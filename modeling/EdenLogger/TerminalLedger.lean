import EdenLogger.Gauges
import EdenLogger.GracefulDrain
import EdenLogger.HandleProgram

/-!
# The ledger of a terminal failure

After a terminal failure the worker waits for the producers to close, counts
what it retains and what the queue depths stand for, and clears the queues.
The carry-over queue is in none of these, so the count is right exactly when
nothing was carried over.
-/

namespace EdenLogger.TerminalLedger

open MachineWord ExporterLanes LogCollector GenerationState GenerationStep GenerationMoves
open GenerationFrames LaneTable LaneOwnership RecordFlow ReceiveSites Completion
open FlushSoundness GracefulDrain Gauges HandleProgram RunRules

variable {L : Type} {x : Exporter L} {s s' : State L} {a : Action L}

/-! ## The depths at rest -/

/-- Fewer records are queued than tickets were handed out. -/
theorem queued_le (hc : Conserved s) :
    (queued s.world s.worker).length + (holdingTickets s.worker).length +
      s.world.history.completed.length ≤ s.world.nextTicket := by
  have hl := hc.located_perm.length_eq
  simp only [located, List.length_append, List.length_map, List.length_range'] at hl
  omega

/-- With every thread outside the callback, a gauge that was not reset is the
number of records queued under its kind. -/
theorem depth_at_rest (hc : Conserved s) (hd : DepthLaw s)
    (ho : ∀ p ∈ s.threads, p.pc.outside = true) (hr : s.world.history.gaugesReset = false)
    (q : QueueKind) :
    s.world.metrics.queueDepth.get q = queuedUnder q (queued s.world s.worker) := by
  have hle : queuedUnder q (queued s.world s.worker) ≤ (queued s.world s.worker).length :=
    List.countP_le_length
  have := queued_le hc
  have hb : s.world.nextTicket ≤ wordMax := hc.bound
  rw [hd hr q, depthOf, claims_outside q ho, Nat.add_zero, mod_size_of_lt]
  unfold wordMax at hb
  unfold size
  omega

/-- The gauges of a running worker before its last count are not reset. -/
theorem not_reset (hh : HandleLaw s) (ha : s.aborted = false)
    (hf : s.worker.pc.isFinished = false) (hcl : hasCleared s.worker.pc = false) :
    s.world.history.gaugesReset = false := by
  by_contra hr
  rcases hh.reset (Bool.eq_true_of_not_eq_false hr) with (hg | hg) | hg
  · rw [ha] at hg
    cases hg
  · rw [hf] at hg
    cases hg
  · rw [hcl] at hg
    cases hg

/-! ## The count -/

/-- What the worker has counted, against the records queued and discarded. -/
def LedgerAt (logs : List (QueuedLog L)) (discarded : List Tag) : WorkerPc L → Prop
  | .ledgerReserved _ normal => normal = queuedUnder .normal logs
  | .ledgerAdd retained remaining | .ledgerClear retained remaining =>
    remaining = retained.flatten.length + logs.length
  | .storeStopped (.terminal retained remaining) | .notifyStopped (.terminal retained remaining)
  | .reporting (.terminal retained remaining) | .finished (.terminal retained remaining) _ =>
    remaining = retained.flatten.length + discarded.length ∧ logs = []
  | _ => True

/-- Before the worker has read the flag it has counted nothing. -/
theorem LedgerAt.early {logs : List (QueuedLog L)} {discarded : List Tag} {pc : WorkerPc L}
    (h : pastClosed pc = false) : LedgerAt logs discarded pc := by
  unfold LedgerAt
  split <;> trivial

/-- The worker's count is right so far. -/
def LedgerLaw (s : State L) : Prop :=
  LedgerAt (queued s.world s.worker) s.world.history.discarded s.worker.pc

/-- What the count needs of a step of another party. -/
theorem LedgerLaw.other (h : LedgerLaw s) (hk : s'.worker = s.worker)
    (hd : s'.world.history.discarded = s.world.history.discarded)
    (hq : pastClosed s.worker.pc = true → laneRecords s'.world.lanes = laneRecords s.world.lanes) :
    LedgerLaw s' := by
  unfold LedgerLaw at h ⊢
  rw [hk, hd]
  by_cases hp : pastClosed s.worker.pc = true
  · have hq' : queued s'.world s.worker = queued s.world s.worker := by
      unfold queued
      rw [hq hp]
    rw [hq']
    exact h
  · exact .early (Bool.eq_false_of_not_eq_true hp)

/-- At rest the three amounts of the count add up without saturating. -/
theorem count_at_rest (hc : Conserved s) (hd : DepthLaw s)
    (ho : ∀ p ∈ s.threads, p.pc.outside = true) (hr : s.world.history.gaugesReset = false)
    {retained : List (List MappedLog)} (hp : (held s.worker.pc).parts = retained.flatten) :
    saturatingAdd (retainedCount retained)
        (saturatingAdd (queuedUnder .normal (queued s.world s.worker))
          s.world.metrics.queueDepth.reserved) =
      retained.flatten.length + (queued s.world s.worker).length := by
  have hdep : s.world.metrics.queueDepth.reserved = _ := depth_at_rest hc hd ho hr .reserved
  have hadd := queuedUnder_add (queued s.world s.worker)
  have hle := queued_le hc
  have hb : s.world.nextTicket ≤ wordMax := hc.bound
  have hlen : retained.flatten.length ≤ (holdingTickets s.worker).length := by
    simp only [holdingTickets, hp, List.length_append, List.length_map]
    omega
  rw [hdep, saturatingAdd_of_le (a := queuedUnder .normal _) (by omega), hadd, retainedCount,
    ← List.length_flatten, saturatingAdd_of_le (by omega)]

/-- Clearing the queues discards every queued record. -/
theorem discarded_of_clear {k' : Worker L} (hk : k'.input = LaneQueues.new)
    (hheld : (held k'.pc).detached = [])
    (ho' : LanesOwned { s with world := clearQueues s.world s.worker, worker := k' })
    (hheld0 : (held s.worker.pc).detached = []) :
    queued (clearQueues s.world s.worker) k' = [] ∧
      (clearQueues s.world s.worker).history.discarded.length =
        s.world.history.discarded.length + (queued s.world s.worker).length := by
  have hl : laneRecords (clearQueues s.world s.worker).lanes = [] :=
    laneRecords_of_registry ho' fun j hj => absurd hj (by simp [clearQueues])
  have hp := (clearLanes_perm s.world.lanes s.world.registry.lanes).length_eq
  rw [show laneRecords (clearLanes s.world.lanes s.world.registry.lanes).1 = [] from hl] at hp
  simp only [List.map_nil, List.nil_append, List.length_map] at hp
  constructor
  · simp only [queued, hl, hk, hheld, detachedRecords, LaneQueues.records_new, List.flatMap_nil,
      List.append_nil]
  · simp only [clearQueues, queued, hheld0, detachedRecords, List.flatMap_nil, List.nil_append,
      List.length_append, List.length_map, hp]

/-- The count is kept by every worker step. -/
theorem LedgerLaw.worker {o : Oracle} {w' : World L} {k' : Worker L} (h : LedgerLaw s)
    (hc : Conserved s) (ho' : LanesOwned { s with world := w', worker := k' }) (hd : DepthLaw s)
    (hdis : DiscardLaw s) (hh : HandleLaw s) (ha : s.aborted = false)
    (hm : WorkerMove x o s.world s.worker w' k') :
    LedgerLaw { s with world := w', worker := k' } := by
  have hfin := not_finished_of_move hm
  have hsame : ∀ {pc : WorkerPc L}, (held pc).detached = [] → (held s.worker.pc).detached = [] →
      queued s.world { s.worker with pc := pc } = queued s.world s.worker := fun h1 h2 => by
    unfold queued
    rw [h1, h2]
  have hrest : pastClosed s.worker.pc = true → hasCleared s.worker.pc = false →
      (∀ p ∈ s.threads, p.pc.outside = true) ∧ s.world.history.gaugesReset = false :=
    fun hp hcl => ⟨hc.quiescence.outside (hc.quiescence.past hp), not_reset hh ha hfin hcl⟩
  unfold LedgerLaw at h ⊢
  cases hm
  case ledgerNormal retained hpc =>
    obtain ⟨hout, hr⟩ := hrest (by rw [hpc]; rfl) (by rw [hpc]; rfl)
    dsimp only [LedgerAt]
    rw [hsame rfl (by rw [hpc]; rfl)]
    exact depth_at_rest hc hd hout hr .normal
  case ledgerReserved retained normal hpc =>
    obtain ⟨hout, hr⟩ := hrest (by rw [hpc]; rfl) (by rw [hpc]; rfl)
    rw [hpc] at h
    dsimp only [LedgerAt] at h ⊢
    rw [hsame rfl (by rw [hpc]; rfl), h]
    exact count_at_rest hc hd hout hr (by rw [hpc]; rfl)
  case ledgerAdd retained remaining hpc =>
    rw [hpc] at h
    dsimp only [LedgerAt] at h ⊢
    rw [h]
    exact congrArg (fun logs => retained.flatten.length + List.length logs)
      (hsame rfl (by rw [hpc]; rfl)).symm
  case ledgerClear retained remaining hpc =>
    have hnil : s.world.history.discarded = [] :=
      hdis.resolve_right (by rw [hpc]; simp [hasCleared])
    obtain ⟨hq, hlen⟩ := discarded_of_clear rfl rfl ho' (by rw [hpc]; rfl)
    rw [hpc] at h
    dsimp only [LedgerAt] at h ⊢
    rw [hnil, List.length_nil, Nat.zero_add] at hlen
    exact ⟨by rw [hlen, h], hq⟩
  case storeStopped exit hpc | notifyStopped exit hpc | report exit hpc =>
    rw [hpc] at h
    cases exit with
    | drained => trivial
    | terminal retained remaining =>
      refine ⟨h.1, ?_⟩
      refine Eq.trans ?_ h.2
      unfold queued
      rw [hpc]
      rfl
  case closedSeen | terminalSeen => trivial
  case detach | popNone | release | chooseReceive | assembleReceive | pollReady | completed =>
    exact .early (by simp)
  all_goals exact .early rfl

/-- The count is kept by every step. -/
theorem LedgerLaw.step (h : LedgerLaw s) (hc : Conserved s) (hc' : Conserved s') (hd : DepthLaw s)
    (hdis : DiscardLaw s) (hh : HandleLaw s) (hm : Move x s a s') : LedgerLaw s' := by
  cases hm with
  | @producer i p p' w' hi hm =>
    have hf := producer_frame hm
    refine h.other rfl (by rw [hf.history]) fun hp => ?_
    rcases producer_records hm with ⟨hl, -⟩ | ⟨log, -, hpush⟩
    · exact hl
    · obtain ⟨-, -, -, -, -, -, hout, -⟩ := hpush
      rw [hc.quiescence.outside (hc.quiescence.past hp) p (List.mem_of_getElem? hi)] at hout
      cases hout
  | worker ha hm => exact h.worker hc hc'.lanes hd hdis hh ha hm
  | flush hj hm =>
    rw [(flush_world hm).1]
    exact h
  | @control op rest hp hr =>
    have hf := controlStep_frame s.world s.control op
    obtain ⟨_, _, hhist⟩ := hf.history
    exact h.other rfl (by rw [hhist]) fun _ => congrArg _ hf.lanes
  | _ => exact h

/-- The count is right in every run. -/
theorem ledgerLaw {ok : State L → Action L → Prop}
    (h : ReachWhile (step x) ok (State.init L) s) : LedgerLaw s :=
  invariant_of_moves_using (I := LedgerLaw)
    (J := fun s => Conserved s ∧ DepthLaw s ∧ DiscardLaw s ∧ HandleLaw s)
    (fun _ hr => ⟨conserved hr, depthLaw hr, discardLaw hr, handleLaw hr⟩) trivial
    (fun _ _ _ hj hj' hi _ hm => hi.step hj.1 hj'.1 hj.2.1 hj.2.2.1 hj.2.2.2 hm) h

/-! ## What was added -/

/-- What the worker itself has added to the dropped count. -/
def addedBy : WorkerPc L → ℕ
  | .ledgerClear _ remaining => remaining
  | .storeStopped exit | .notifyStopped exit | .reporting exit | .finished exit _ => exit.remaining
  | _ => 0

/-- Before the worker has read the flag it has added nothing. -/
theorem addedBy_early {pc : WorkerPc L} (h : pastClosed pc = false) : addedBy pc = 0 := by
  unfold addedBy
  split <;> first | rfl | cases h

/-- The dropped count is what the handle and the worker added. -/
def DropLaw (s : State L) : Prop :=
  s.world.metrics.droppedShutdown = s.world.history.droppedByHandle + addedBy s.worker.pc

/-- What a worker step adds to the dropped count, its place remembers. -/
theorem worker_dropped {o : Oracle} {w w' : World L} {k k' : Worker L}
    (hm : WorkerMove x o w k w' k') :
    w'.metrics.droppedShutdown + addedBy k.pc = w.metrics.droppedShutdown + addedBy k'.pc := by
  cases hm
  case ledgerAdd retained remaining hpc =>
    rw [hpc]
    rfl
  case ledgerClear hpc | storeStopped hpc | notifyStopped hpc | report hpc =>
    rw [hpc]
    rfl
  case closedSeen hc hpc =>
    rw [hpc]
    rfl
  case pollReady wait c cells hr hpc =>
    rw [hpc, addedBy_early (pastClosed_waitReady k c wait)]
    cases c <;> rfl
  case pollNext wait c cells hr hpc =>
    rw [hpc]
    cases c <;> rfl
  case detach d detached hpc =>
    dsimp only
    rw [hpc, addedBy_early (pastClosed_drainNext d)]
    rfl
  case popNone site hi hpc =>
    dsimp only
    rw [hpc, addedBy_early (pastClosed_receivedNone _ site)]
    rfl
  case release site log hpc =>
    rw [hpc, addedBy_early (pastClosed_received _ _ site)]
    rfl
  case chooseReceive hp hs hpc | assembleReceive hl hp hs hpc =>
    dsimp only
    rw [hpc, addedBy_early (pastClosed_tryReceive _ _)]
    rfl
  case completed resume hpc =>
    dsimp only
    rw [hpc, addedBy_early (pastClosed_resumePc resume)]
    rfl
  all_goals
    rename_i hpc
    rw [hpc]
    rfl

/-- What the command adds to the dropped count, the history remembers. -/
theorem control_dropped (w : World L) (c : Control) (op : ControlOp) :
    (controlStep w c op).1.metrics.droppedShutdown + w.history.droppedByHandle =
      w.metrics.droppedShutdown + (controlStep w c op).1.history.droppedByHandle := by
  cases op
  case storeShuttingDown =>
    simp only [controlStep]
    split <;> rfl
  case addDropped =>
    simp only [controlStep]
    omega
  all_goals rfl

/-- The drop law is kept by every step. -/
theorem DropLaw.step (h : DropLaw s) (hm : Move x s a s') : DropLaw s' := by
  unfold DropLaw at h ⊢
  cases hm with
  | producer hi hm =>
    have hf := producer_frame hm
    dsimp only
    rw [hf.droppedShutdown, hf.history]
    exact h
  | worker ha hm =>
    have hd := worker_dropped hm
    have hf := (worker_frame hm).droppedByHandle
    dsimp only
    omega
  | flush hj hm =>
    rw [(flush_world hm).1]
    exact h
  | @control op rest hp hr =>
    have hd := control_dropped s.world s.control op
    dsimp only
    omega
  | _ => exact h

/-- The drop law holds in every run. -/
theorem dropLaw {ok : State L → Action L → Prop}
    (h : ReachWhile (step x) ok (State.init L) s) : DropLaw s :=
  invariant_of_moves (I := DropLaw) rfl (fun _ _ _ hi _ hm => hi.step hm) h

/-- The ledger of a terminal failure, as the worker returns: the remaining
records it reports, which it has added to the dropped count, are the accepted
records that were never completed exactly if nothing is carried over. The
snapshot balances exactly if the handle has counted as many records as are
carried over, which without a handle's own count means none. -/
theorem terminal_ledger (h : ReachWhile (step x) honest (State.init L) s)
    {retained : List (List MappedLog)} {remaining : ℕ}
    (hpc : s.worker.pc = .reporting (.terminal retained remaining)) {o : Oracle}
    (hs : step x s (.worker o) = some s') :
    ∃ report, s'.worker.pc = .finished (.terminal retained remaining) report ∧
      report.metrics.droppedShutdown =
        s.world.history.droppedByHandle + report.remainingRecords ∧
      (report.remainingRecords = s'.world.nextTicket - s'.world.history.completed.length ↔
        s.worker.pending = []) ∧
      (report.metrics.accepted = report.metrics.exported + report.metrics.rejected +
          report.metrics.droppedShutdown ↔
        s.worker.pending.length = s.world.history.droppedByHandle) := by
  have hc := conserved h
  have hledger := ledgerLaw h
  have hdrop : s.world.metrics.droppedShutdown = s.world.history.droppedByHandle + remaining := by
    have := dropLaw h
    unfold DropLaw at this
    rw [hpc] at this
    exact this
  have hcount := counted_eq h
  unfold LedgerLaw at hledger
  unfold counted settled uncounted at hcount
  rw [hpc] at hledger hcount
  obtain ⟨hrem, hq⟩ := hledger
  have hlen := hc.located_perm.length_eq
  have htaken := taken_eq_nil (hc.quiescence.outside (hc.quiescence.past (by rw [hpc]; rfl)))
  simp only [located, htaken, hq, holdingTickets, hpc, held, exitParts, List.map_nil,
    List.length_append, List.length_map, List.length_nil, List.length_range'] at hlen
  simp only [held, List.length_nil, Nat.add_zero] at hcount
  cases stepMove hs with
  | worker ha hm =>
    cases hm
    case report exit hpc' =>
      rw [hpc] at hpc'
      cases hpc'
      refine ⟨_, rfl, hdrop, ?_, ?_⟩
      · rw [← List.length_eq_zero_iff]
        dsimp only [Exit.remaining]
        omega
      · dsimp only [metricsSnapshot]
        omega
    all_goals
      rename_i hpc'
      rw [hpc] at hpc'
      cases hpc'

/-- A batch meets a fatal answer, and the generation is then shut down. -/
def fatalRun (records : List (Action ℕ)) (sent closed : ℕ) : List (Action ℕ) :=
  .spawn :: submitAlone 0 30 ++ records ++ workerSteps sent .fatal ++ [.command .shutdown] ++
    controlSteps 13 ++ [.fence] ++ workerSteps closed .fatal

/-- The worker is about to report its terminal exit, with nothing carried over. -/
def reportsOne (s : State ℕ) : Bool :=
  match s.worker.pc with
  | .reporting (.terminal _ _) => decide (s.aborted = false ∧ s.worker.pending = [] ∧
      s.world.history.droppedByHandle = 0 ∧ s.world.nextTicket = 1 ∧
      s.world.history.completed = [])
  | _ => false

/-- With a single record the ledger counts it. -/
theorem terminal_ledger_one : ∃ (s : State ℕ) (report : ShutdownReport) (exit : Exit),
    s.worker.pc = .finished exit report ∧ report.remainingRecords = 1 ∧
      report.metrics.accepted = report.metrics.exported + report.metrics.rejected +
        report.metrics.droppedShutdown := by
  obtain ⟨s, hs, hp⟩ := exists_reach_of_replay (step sample) honest_of_check (State.init ℕ)
    (fatalRun [] 28 9)
    reportsOne (by decide +kernel)
  unfold reportsOne at hp
  split at hp
  · rename_i retained remaining hpc
    obtain ⟨ha, hpend, hd, hn, hcomp⟩ := of_decide_eq_true hp
    have hstep : step sample s (.worker ⟨[], 0, false, .fatal⟩) = some { s with worker :=
        ⟨.finished (.terminal retained remaining) ⟨false, remaining, metricsSnapshot s.world⟩,
          s.worker.shuttingDown, s.worker.input, s.worker.pending, s.worker.completions⟩ } := by
      simp only [step, ha, workerStep, hpc]
      rfl
    obtain ⟨report, hfin, -, hrem, hbal⟩ := terminal_ledger hs hpc hstep
    refine ⟨_, report, _, hfin, ?_, hbal.mpr (by rw [hpend, hd]; rfl)⟩
    rw [hrem.mpr hpend]
    dsimp only
    rw [hn, hcomp]
    rfl
  · cases hp

/-- The worker reported one of two records. -/
def reportedWithoutCarried (s : State ℕ) : Bool :=
  match s.worker.pc with
  | .finished (.terminal _ _) report => decide (report.remainingRecords = 1 ∧
      s.world.nextTicket = 2 ∧ s.world.history.completed = [] ∧
      report.metrics.accepted ≠ report.metrics.exported + report.metrics.rejected +
        report.metrics.droppedShutdown)
  | _ => false

/-- A record that did not fit the failed batch is carried over, and neither
reported nor counted. -/
theorem carried_uncounted : ∃ (s : State ℕ) (report : ShutdownReport) (exit : Exit),
    ReachWhile (step sample) honest (State.init ℕ) s ∧ s.worker.pc = .finished exit report ∧
      report.remainingRecords = 1 ∧ s.world.nextTicket = 2 ∧ s.world.history.completed = [] ∧
      report.metrics.accepted ≠ report.metrics.exported + report.metrics.rejected +
        report.metrics.droppedShutdown := by
  obtain ⟨s, hs, hp⟩ := exists_reach_of_replay (step sample) honest_of_check (State.init ℕ)
    (fatalRun (.enter 0 30 :: producerSteps 0 7) 19 10)
    reportedWithoutCarried (by decide +kernel)
  unfold reportedWithoutCarried at hp
  split at hp
  · rename_i retained remaining report hpc
    exact ⟨s, report, _, hs, hpc, of_decide_eq_true hp⟩
  · cases hp

end EdenLogger.TerminalLedger
