import EdenLogger.TerminalLedger

/-!
# The ledger of an abort

A worker that is cancelled at an await point leaves its count to the handle,
which adds up the depths and the in-flight gauge. Nothing moves any more, so
the sum is fixed by the gauges at the abort. The in-flight gauge is neither
lowered as parts of a batch resolve nor does it cover a batch under assembly or
the carry-over queue, which decides when the sum is right.
-/

namespace EdenLogger.AbortLedger

open MachineWord WakeUpPermit ExporterLanes LogCollector GenerationState GenerationStep
open GenerationMoves GenerationFrames ListCells LaneOwnership RecordFlow ReceiveSites Completion
open FlushSoundness GracefulDrain Gauges HandleProgram TerminalLedger RunRules

variable {L : Type} {x : Exporter L} {s s' : State L} {a : Action L}

/-! ## What a program is going to count -/

/-- The sum of what the rest of a program reads from the gauges. -/
def ahead : List ControlOp → PerQueue ℕ → ℕ → ℕ
  | [], _, _ => 0
  | .loadDepth q :: rest, depth, inflight => depth.get q + ahead rest depth inflight
  | .loadInflight :: rest, depth, inflight => inflight + ahead rest depth inflight
  | .resetDepth q :: rest, depth, inflight => ahead rest (depth.set q 0) inflight
  | .resetInflight :: rest, depth, _ => ahead rest depth 0
  | _ :: rest, depth, inflight => ahead rest depth inflight

/-- What the handle has counted, has read, and is going to read. -/
def total (s : State L) : ℕ :=
  s.world.history.droppedByHandle + s.control.remaining +
    ahead s.control.program s.world.metrics.queueDepth s.world.metrics.inflight

/-- An operation moves its amount from what is ahead to what was read, or from
there to what was counted. -/
theorem control_total (w : World L) (c : Control) (op : ControlOp) (rest : List ControlOp)
    (hb : c.remaining + ahead (op :: rest) w.metrics.queueDepth w.metrics.inflight ≤ wordMax) :
    (controlStep w c op).1.history.droppedByHandle + (controlStep w c op).2.remaining +
        ahead rest (controlStep w c op).1.metrics.queueDepth
          (controlStep w c op).1.metrics.inflight =
      w.history.droppedByHandle + c.remaining +
        ahead (op :: rest) w.metrics.queueDepth w.metrics.inflight := by
  cases op
  case storeShuttingDown =>
    simp only [controlStep, ahead]
    split <;> rfl
  case loadDepth q =>
    simp only [ahead] at hb
    simp only [controlStep, ahead]
    rw [saturatingAdd_of_le (by omega)]
    omega
  case loadInflight =>
    simp only [ahead] at hb
    simp only [controlStep, ahead]
    rw [saturatingAdd_of_le (by omega)]
    omega
  case addDropped =>
    simp only [controlStep, ahead]
    omega
  all_goals rfl

/-- What may follow an abort. -/
def afterAbort : List (List ControlOp) :=
  [deadlineExpired.tail ++ (stopAcceptance ++ ledger ++ [.storeStopped, .notifyProgress]),
    deadlineExpired.tail, ledger ++ [.storeStopped, .notifyProgress]]

/-- An abort is followed by one of these. -/
def abortsInto : List ControlOp → Bool
  | .abortWorker :: rest => afterAbort.contains rest
  | _ => true

/-- After an abort every gauge is counted once: what is read again later has
been reset before. -/
theorem ahead_of_abort {rest : List ControlOp} (h : rest ∈ afterAbort) (depth : PerQueue ℕ)
    (inflight : ℕ) :
    ahead rest depth inflight = depth.normal + depth.reserved + inflight ∧
      .awaitWorker ∉ rest ∧ .unregister ∉ rest := by
  simp only [afterAbort, List.mem_cons, List.not_mem_nil, or_false] at h
  rcases h with rfl | rfl | rfl
  · refine ⟨?_, by decide, by decide⟩
    simp only [deadlineExpired, ledger, resetLiveMetrics, stopAcceptance, List.cons_append,
      List.nil_append, List.tail_cons, ahead, PerQueue.get, PerQueue.set]
    omega
  · refine ⟨?_, by decide, by decide⟩
    simp only [deadlineExpired, ledger, resetLiveMetrics, List.cons_append,
      List.nil_append, List.tail_cons, ahead, PerQueue.get]
    omega
  · refine ⟨?_, by decide, by decide⟩
    simp only [ledger, List.cons_append, List.nil_append, ahead, PerQueue.get]
    omega

/-! ## After the abort -/

/-- What stays as it was at the abort. -/
structure Frozen (v s : State L) : Prop where
  /-- The worker takes no step. -/
  aborted : s.aborted = true
  /-- No thread can enter the callback. -/
  retired : s.world.retired = true
  /-- No thread is inside the callback. -/
  outside : ∀ p ∈ s.threads, p.pc.outside = true
  /-- No ticket is handed out. -/
  nextTicket : s.world.nextTicket = v.world.nextTicket
  /-- No ticket is completed. -/
  completed : s.world.history.completed = v.world.history.completed
  /-- No outcome is counted. -/
  counted : counted s.world = counted v.world
  /-- The worker's own count stays what it was. -/
  worker : s.worker = v.worker
  /-- The command goes on. -/
  command : s.control.command ≠ none
  /-- It does not wait for the worker again. -/
  waits : .awaitWorker ∉ s.control.program
  /-- What it counts in the end is fixed. -/
  total : total s = total v

/-- A thread outside the callback writes no gauge and takes no ticket. -/
theorem producer_outside {i : ℕ} {w w' : World L} {p p' : Producer L}
    (hm : ProducerMove x i w p w' p') (h : p.pc.outside = true) :
    p'.pc.outside = true ∧ w'.metrics = w.metrics ∧ w'.nextTicket = w.nextTicket := by
  cases hm
  case close => exact ⟨rfl, rfl, rfl⟩
  case closed => exact ⟨rfl, rfl, rfl⟩
  all_goals
    rename_i hpc
    rw [hpc] at h
    cases h

/-- Nothing but the command moves after the abort. -/
theorem Frozen.step {v : State L} (h : Frozen v s) (hb : AbortLedger.total v ≤ wordMax)
    (hm : Move x s a s') : Frozen v s' := by
  cases hm with
  | spawn =>
    refine ⟨h.aborted, h.retired, fun p hp => ?_, h.nextTicket, h.completed, h.counted, h.worker,
      h.command, h.waits, h.total⟩
    rcases List.mem_append.mp hp with hp | hp
    · exact h.outside p hp
    · rw [List.mem_singleton.mp hp]
      rfl
  | enter hi hpc hr =>
    rw [h.retired] at hr
    cases hr
  | @producer i p p' w' hi hm =>
    obtain ⟨hout, hmet, hnext⟩ := producer_outside hm (h.outside p (List.mem_of_getElem? hi))
    have hf := producer_frame hm
    refine ⟨h.aborted, hf.retired.trans h.retired, forall_mem_set h.outside hout,
      hnext.trans h.nextTicket, ?_, ?_, h.worker, h.command, h.waits, ?_⟩
    · rw [← h.completed, hf.history]
    · rw [← h.counted, Completion.counted, hmet]
      rfl
    · rw [← h.total]
      unfold AbortLedger.total
      dsimp only
      rw [hmet, hf.history]
  | exit hi hpc =>
    refine ⟨h.aborted, h.retired, forall_mem_set h.outside ?_, h.nextTicket, h.completed,
      h.counted, h.worker, h.command, h.waits, h.total⟩
    dsimp only
    split <;> rfl
  | worker ha hm =>
    rw [h.aborted] at ha
    cases ha
  | cancelWorker hr ha hw =>
    rw [h.aborted] at ha
    cases ha
  | flush hj hm =>
    rw [(flush_world hm).1]
    exact ⟨h.aborted, h.retired, h.outside, h.nextTicket, h.completed, h.counted, h.worker,
      h.command, h.waits, h.total⟩
  | command hc hf => exact absurd hc h.command
  | @control op rest hp hr =>
    have hf := controlStep_frame s.world s.control op
    obtain ⟨_, _, hh⟩ := hf.history
    have htotal := h.total
    unfold AbortLedger.total at htotal
    rw [hp] at htotal
    have hstep := control_total s.world s.control op rest (by
      unfold AbortLedger.total at hb
      omega)
    refine ⟨h.aborted, hf.retired h.retired, h.outside, hf.nextTicket.trans h.nextTicket, ?_, ?_,
      h.worker, ?_, fun hm => h.waits ?_, hstep.trans htotal⟩
    · rw [← h.completed, hh]
    · rw [← h.counted]
      unfold Completion.counted
      rw [hf.exported, hf.rejected]
    · dsimp only
      rw [control_command]
      exact h.command
    · rw [hp]
      exact List.mem_cons_of_mem _ hm
  | expireDeadline hp =>
    refine absurd ?_ h.waits
    rw [hp]
    exact List.mem_cons_self
  | _ =>
    exact ⟨h.aborted, h.retired, h.outside, h.nextTicket, h.completed, h.counted, h.worker,
      h.command, h.waits, h.total⟩

/-- What was frozen stays frozen. -/
theorem frozen_run {v t : State L} (h : Reach (step x) v t) (h0 : Frozen v v)
    (hb : total v ≤ wordMax) : Frozen v t :=
  h.invariant (I := Frozen v) h0 fun _ _ _ hi _ hs => hi.step hb (stepMove hs)

/-! ## The sum -/

/-- No more tickets were completed when the active export began than are now. -/
def StartLaw (s : State L) : Prop :=
  s.world.history.exportStart ≤ s.world.history.completed.length

/-- The start law is kept by every step. -/
theorem StartLaw.step (h : StartLaw s) (hm : Move x s a s') : StartLaw s' := by
  refine law_of_worker (I := fun past _ => past.exportStart ≤ past.completed.length)
    (fun _ _ _ _ _ h => h) ?_ h hm
  intro o w' k' hm
  unfold StartLaw at h
  cases hm
  case startExport batch hpc => exact Nat.le_refl _
  case ignored resume r rest hc hpc | complete resume r rest t hc hpc =>
    simp only [List.length_append, List.length_singleton]
    omega
  case pollReady wait c cells hr hpc | pollNext wait c cells hr hpc => cases c <;> exact h
  all_goals exact h

/-- The start law holds in every run. -/
theorem startLaw {ok : State L → Action L → Prop}
    (h : ReachWhile (step x) ok (State.init L) s) : StartLaw s :=
  invariant_of_moves (I := StartLaw) (Nat.le_refl _) (fun _ _ _ hi _ hm => hi.step hm) h

/-- Tickets of the active batch that are completed. -/
def activeCompleted (w : World L) : List ℕ := w.history.completed.drop w.history.exportStart

/-- The tickets the in-flight gauge stands for: those of the active batch,
completed or not, or the retained ones. -/
def inflightTickets (w : World L) (k : Worker L) : List ℕ :=
  match stage k.pc with
  | .idle => []
  | .exporting =>
    activeCompleted w ++ ((held k.pc).settled ++ (held k.pc).parts).map MappedLog.ticket
  | .retaining => (held k.pc).parts.map MappedLog.ticket

/-- The gauge is their number. -/
theorem inflightTickets_length (hi : InflightAt s.world s.worker) (hs : StartLaw s) :
    s.world.metrics.inflight = (inflightTickets s.world s.worker).length := by
  unfold InflightAt at hi
  unfold StartLaw at hs
  unfold inflightTickets
  cases hst : stage s.worker.pc with
  | idle =>
    rw [hst] at hi
    exact hi
  | exporting =>
    rw [hst] at hi
    simp only [activeCompleted, List.length_append, List.length_map, List.length_drop] at hi ⊢
    omega
  | retaining =>
    rw [hst] at hi
    simp only [List.length_map] at hi ⊢
    exact hi

/-- When an export begins they are the tickets of its batch. -/
theorem inflightTickets_start {o : Oracle} {w w' : World L} {k k' : Worker L}
    {batch : List MappedLog} (hpc : k.pc = .startExport batch) (hm : WorkerMove x o w k w' k') :
    inflightTickets w' k' = batch.map MappedLog.ticket := by
  cases hm
  case startExport batch' hpc' =>
    cases hpc.symm.trans hpc'
    simp only [inflightTickets, activeCompleted, stage, held, setInflight, List.drop_length,
      List.flatten_cons, List.flatten_nil, List.append_nil, List.nil_append]
  all_goals
    rename_i hpc'
    cases hpc.symm.trans hpc'

/-- As long as the export goes on they stay the same. -/
theorem inflightTickets_move {o : Oracle} {w w' : World L} {k k' : Worker L}
    (hm : WorkerMove x o w k w' k') (hs : w.history.exportStart ≤ w.history.completed.length)
    (hst : stage k.pc = .exporting) (hst' : stage k'.pc = .exporting) :
    (inflightTickets w' k').Perm (inflightTickets w k) := by
  unfold inflightTickets
  rw [hst, hst', List.perm_iff_count]
  intro t
  cases hm
  case ignored resume r rest hc hpc | complete resume r rest m hc hpc =>
    simp only [hpc, activeCompleted, held, List.drop_append_of_le_length hs, List.map_append,
      List.map_cons, List.count_append, List.count_cons, List.count_nil]
    omega
  case completed resume hpc =>
    dsimp only
    rw [hpc, held_resumePc]
    simp only [held, resumeHolding_settled, activeCompleted]
  case acknowledged e n hr hpc | partialSuccess e n m hr hn hpc | rejectedAlone e hr hl hpc =>
    simp only [hpc, activeCompleted, held, resumeHolding, attemptParts, settle, countBatch,
      List.nil_append]
  case split e hr hl hpc =>
    simp only [hpc, held, attemptParts, splitRecords_flatten, List.flatten_append]
  case nextPart records stack hpc =>
    simp only [hpc, held, attemptParts, List.flatten_cons]
  case fatal e hr hpc =>
    simp only [hpc, activeCompleted, held, attemptParts, setStatus, List.flatten_cons]
  case pollReady wait c cells hr hpc | pollNext wait c cells hr hpc =>
    rw [hpc] at hst
    cases wait <;> cases hst
  all_goals
    rename_i hpc
    rw [hpc] at hst ⊢
    first
      | rfl
      | cases hst

/-- Over a whole export they are the tickets of its batch, however its parts resolve. -/
theorem inflightTickets_export {ok : State L → Action L → Prop}
    (h : ReachWhile (step x) ok (State.init L) s) {batch : List MappedLog} {o : Oracle}
    (hpc : s.worker.pc = .startExport batch) (hs : step x s (.worker o) = some s') {t : State L}
    (hr : ReachWhile (step x) (fun u _ => stage u.worker.pc = .exporting) s' t)
    (ht : stage t.worker.pc = .exporting) :
    (inflightTickets t.world t.worker).Perm (batch.map MappedLog.ticket) := by
  have hstart : Reach (step x) (State.init L) s' := h.reach.next trivial hs
  refine hr.invariant_using (J := StartLaw)
    (I := fun u => stage u.worker.pc = .exporting →
      (inflightTickets u.world u.worker).Perm (batch.map MappedLog.ticket))
    (fun u hu => startLaw (hstart.trans hu.reach)) (fun _ => ?_)
    (fun u v a hu _ ih hex hstep => ?_) ht
  · cases stepMove hs with
    | worker ha hm => exact .of_eq (inflightTickets_start hpc hm)
  · exact law_of_worker (I := fun past k => stage k.pc = .exporting →
      (inflightTickets { u.world with history := past } k).Perm (batch.map MappedLog.ticket))
      (fun _ _ _ _ _ hp => hp)
      (fun o w' k' hm hex' => (inflightTickets_move hm hu hex hex').trans (ih hex))
      ih (stepMove hstep)

/-- The tickets the ledger's sum stands for: those of the queued records, which
the depths count, and those of the in-flight gauge. -/
def ledgerTickets (s : State L) : List ℕ :=
  (queued s.world s.worker).map QueuedLog.ticket ++ inflightTickets s.world s.worker

/-- When the gauges cover what the worker leaves behind at an await point, and
nothing else. -/
def ledgerCovers (s : State L) : Prop :=
  match s.worker.pc with
  | .parked (.assembly a) => a.batch = []
  | .awaitReply _ | .retrySleep _ => activeCompleted s.world = [] ∧ s.worker.pending = []
  | .parked (.terminalShutdown _) | .parked (.terminalRecords _) => s.worker.pending = []
  | _ => True

/-- The tickets of a suspended request are those of its export exactly if none
of them is completed and nothing is carried over. -/
theorem request_covers {done parts pending completed : List ℕ} (hd : done ⊆ completed)
    (hn : (parts ++ pending ++ completed).Nodup) :
    (done ++ parts).Perm (parts ++ pending) ↔ done = [] ∧ pending = [] := by
  constructor
  · intro h
    have hp : done.Perm pending :=
      (List.perm_append_left_iff parts).mp (List.perm_append_comm.trans h)
    have hnil : done = [] := List.eq_nil_iff_forall_not_mem.mpr fun t ht =>
      (List.nodup_append.mp hn).2.2 t (List.mem_append_right _ (hp.mem_iff.mp ht)) t (hd ht) rfl
    subst hnil
    exact ⟨rfl, List.nil_perm.mp hp⟩
  · rintro ⟨rfl, rfl⟩
    rw [List.nil_append, List.append_nil]

/-- The in-flight gauge of a suspended worker stands for what it holds exactly
if the gauges cover it. -/
theorem inflight_covers (hk : SiteLaw s.worker) (hw : s.worker.pc.awaits = true)
    (hn : (holdingTickets s.worker ++ s.world.history.completed).Nodup) :
    (inflightTickets s.world s.worker).Perm (holdingTickets s.worker) ↔ ledgerCovers s := by
  have hrequest : ∀ e : Attempt, holdingTickets s.worker =
        (attemptParts e).map MappedLog.ticket ++ s.worker.pending.map MappedLog.ticket →
      inflightTickets s.world s.worker =
        activeCompleted s.world ++ (attemptParts e).map MappedLog.ticket →
      ((inflightTickets s.world s.worker).Perm (holdingTickets s.worker) ↔
        activeCompleted s.world = [] ∧ s.worker.pending = []) := fun e hh hi => by
    have hd : activeCompleted s.world ⊆ s.world.history.completed := List.drop_subset _ _
    rw [hi, hh, request_covers hd (hh ▸ hn), List.map_eq_nil_iff]
  unfold WorkerPc.awaits at hw
  split at hw
  · rename_i wait hpc
    cases wait with
    | receive | producersClosed =>
      have hp := hk.pending (by rw [hpc]; rfl)
      simp [inflightTickets, ledgerCovers, holdingTickets, hpc, stage, waitStage, held, waitHolding,
        hp]
    | assembly a =>
      have hp := hk.pending (by rw [hpc]; rfl)
      simp [inflightTickets, ledgerCovers, holdingTickets, hpc, stage, waitStage, held, waitHolding,
        hp]
    | terminalShutdown retained | terminalRecords retained =>
      have hperm : (retained.flatten.map MappedLog.ticket ++ []).Perm
            (retained.flatten.map MappedLog.ticket ++ s.worker.pending.map MappedLog.ticket) ↔
          [].Perm (s.worker.pending.map MappedLog.ticket) := List.perm_append_left_iff _
      rw [List.append_nil, List.nil_perm, List.map_eq_nil_iff] at hperm
      simpa [inflightTickets, ledgerCovers, holdingTickets, hpc, stage, waitStage, held,
        waitHolding] using hperm
  · rename_i e hpc
    simp only [ledgerCovers, hpc]
    refine hrequest e ?_ ?_ <;>
      simp only [inflightTickets, holdingTickets, hpc, stage, held, List.map_nil, List.map_append,
        List.nil_append, List.append_nil]
  · rename_i e hpc
    simp only [ledgerCovers, hpc]
    refine hrequest e ?_ ?_ <;>
      simp only [inflightTickets, holdingTickets, hpc, stage, held, List.map_nil, List.map_append,
        List.nil_append, List.append_nil]
  · cases hw

/-- The in-flight gauge never stands for more than the worker's own tickets. -/
theorem inflight_le (hi : InflightAt s.world s.worker) :
    s.world.metrics.inflight ≤
      (holdingTickets s.worker).length + s.world.history.completed.length := by
  simp only [holdingTickets, List.length_append, List.length_map]
  unfold InflightAt at hi
  split at hi <;> omega

/-- A suspended worker holds no settled or uncounted record, has added nothing,
and has neither returned nor cleared the queues. -/
theorem awaits_clear {pc : WorkerPc L} (h : pc.awaits = true) :
    (held pc).settled = [] ∧ (held pc).uncounted = 0 ∧ addedBy pc = 0 ∧ pc.isFinished = false ∧
      hasCleared pc = false := by
  unfold WorkerPc.awaits at h
  split at h
  · rename_i wait
    exact ⟨waitHolding_settled wait, waitHolding_uncounted wait, rfl, rfl, rfl⟩
  · exact ⟨rfl, rfl, rfl, rfl, rfl⟩
  · exact ⟨rfl, rfl, rfl, rfl, rfl⟩
  · cases h

/-- With no thread inside the callback, the tickets are, each once, queued, held
by the worker or completed. -/
theorem tickets_at_rest (hc : Conserved s) (hdis : DiscardLaw s)
    (ho : ∀ p ∈ s.threads, p.pc.outside = true) (hcl : hasCleared s.worker.pc = false) :
    ((queued s.world s.worker).map QueuedLog.ticket ++
      (holdingTickets s.worker ++ s.world.history.completed)).Perm
        (List.range' 1 s.world.nextTicket) := by
  have hd : s.world.history.discarded = [] := hdis.resolve_right (by simp [hcl])
  have hl := hc.located_perm
  simp only [located, taken_eq_nil ho, hd, List.map_nil, List.nil_append] at hl
  exact hl

/-- The ledger's tickets and the completed ones are, each once, the tickets
handed out exactly if the gauges cover what the worker left. -/
theorem ledger_perm (hk : SiteLaw s.worker) (hw : s.worker.pc.awaits = true)
    (hr : ((queued s.world s.worker).map QueuedLog.ticket ++
      (holdingTickets s.worker ++ s.world.history.completed)).Perm
        (List.range' 1 s.world.nextTicket)) :
    (ledgerTickets s ++ s.world.history.completed).Perm (List.range' 1 s.world.nextTicket) ↔
      ledgerCovers s := by
  have hn := hr.nodup_iff.mpr List.nodup_range'
  rw [← inflight_covers hk hw (List.nodup_append.mp hn).2.1, ledgerTickets, List.append_assoc]
  constructor
  · intro h
    exact (List.perm_append_right_iff _).mp ((List.perm_append_left_iff _).mp (h.trans hr.symm))
  · intro h
    exact ((h.append_right _).append_left _).trans hr

/-- A command that aborts the worker has replaced the callback and counted
nothing, and is going to count every gauge once. -/
theorem abort_total (hh : HandleLaw s) (hb : BorrowLaw s) (hprog : ProgramLaw s)
    {rest : List ControlOp} (hp : s.control.program = .abortWorker :: rest) :
    s.world.retired = true ∧ s.control.command ≠ none ∧ .awaitWorker ∉ rest ∧
      s.world.history.droppedByHandle + s.control.remaining +
          ahead rest s.world.metrics.queueDepth s.world.metrics.inflight =
        s.world.metrics.queueDepth.normal + s.world.metrics.queueDepth.reserved +
          s.world.metrics.inflight := by
  have hrest : rest ∈ afterAbort := by
    have hcheck := hprog.check abortsInto (by decide +kernel)
    rw [hp] at hcheck
    simp only [abortsInto] at hcheck
    exact List.contains_iff_mem.mp hcheck
  obtain ⟨hsum, hwait, hcallback⟩ :=
    ahead_of_abort hrest s.world.metrics.queueDepth s.world.metrics.inflight
  have hcmd : s.control.command ≠ none := fun hn => by
    rw [hb.idle hn] at hp
    cases hp
  obtain ⟨hrem, hdrop⟩ := hh.uncounted (Or.inl (by
    rw [hp]
    exact List.mem_cons_self))
  refine ⟨(hh.retired hcmd).resolve_left fun hm => ?_, hcmd, hwait, ?_⟩
  · rw [hp] at hm
    exact hcallback ((List.mem_cons.mp hm).resolve_left (by simp))
  · rw [hsum, hdrop, hrem]
    omega

/-- What an abort leaves behind, once the command has run to its end: nothing
more is accepted or completed, the worker stays where it was, and what the
ledger added is the number of its tickets. -/
structure AbortOutcome (s t : State L) : Prop where
  nextTicket : t.world.nextTicket = s.world.nextTicket
  completed : t.world.history.completed = s.world.history.completed
  counted : counted t.world = counted s.world
  worker : t.worker = s.worker
  dropped : t.world.history.droppedByHandle = (ledgerTickets s).length

/-- Every abort of a suspended worker has this outcome. -/
theorem abort_outcome (h : ReachWhile (step x) honest (State.init L) s) {rest : List ControlOp}
    (hp : s.control.program = .abortWorker :: rest) (hw : s.worker.pc.awaits = true)
    (ho : ∀ p ∈ s.threads, p.pc.outside = true) {u v t : State L}
    (hu : step x s .control = some u) (hv : step x u .cancelWorker = some v)
    (ht : Reach (step x) v t) (hend : t.control.program = []) : AbortOutcome s t := by
  have hc := conserved h
  have hh := handleLaw h
  obtain ⟨-, -, -, hfin, hcl⟩ := awaits_clear hw
  obtain ⟨hret, hcmd, hwait, htotal⟩ := abort_total hh (borrowLaw h) (programLaw h) hp
  have htreach : Reach (step x) (State.init L) t :=
    ((h.reach.next trivial hu).next trivial hv).trans ht
  have hrest := (tickets_at_rest hc (discardLaw h) ho hcl).length_eq
  simp only [List.length_append, List.length_map, List.length_range'] at hrest
  cases stepMove hu with
  | control hp' hready =>
    rw [hp] at hp'
    cases hp'
    cases stepMove hv with
    | cancelWorker hr ha hw' =>
      have hreset := not_reset hh ha hfin hcl
      have hdepth := queuedUnder_add (queued s.world s.worker)
      have hn := depth_at_rest hc (depthLaw h) ho hreset .normal
      have hres := depth_at_rest hc (depthLaw h) ho hreset .reserved
      have hinf := inflightLaw h hreset
      have hle := inflight_le hinf
      have hbound : s.world.nextTicket ≤ wordMax := hc.bound
      simp only [PerQueue.get] at hn hres
      have hfrozen := frozen_run ht ⟨rfl, hret, ho, rfl, rfl, rfl, rfl, hcmd, hwait, rfl⟩ (by
        unfold total
        refine le_trans (le_of_eq htotal) ?_
        omega)
      have hrem : t.control.remaining = 0 := by
        by_contra hne
        have := (handleLaw htreach).counting hne
        rw [hend] at this
        cases this
      have hsum := hfrozen.total.trans htotal
      unfold total at hsum
      rw [hend, hrem] at hsum
      refine ⟨hfrozen.nextTicket, hfrozen.completed, hfrozen.counted, hfrozen.worker, ?_⟩
      simp only [ledgerTickets, List.length_append, List.length_map,
        ← inflightTickets_length hinf (startLaw h)]
      simp only [ahead] at hsum
      omega

/-- The ledger of an abort. The command aborts a worker that is suspended at an
await point, with no thread inside the callback, and runs to its end. What it
adds to the dropped count is the number of the ledger's tickets. It is the
number of accepted records not completed, the counters balance, and every
accepted record is counted once, as dropped or with its outcome, exactly if the
gauges cover what the worker left and nothing else. -/
theorem abort_ledger (h : ReachWhile (step x) honest (State.init L) s) {rest : List ControlOp}
    (hp : s.control.program = .abortWorker :: rest) (hw : s.worker.pc.awaits = true)
    (ho : ∀ p ∈ s.threads, p.pc.outside = true) {u v t : State L}
    (hu : step x s .control = some u) (hv : step x u .cancelWorker = some v)
    (ht : Reach (step x) v t) (hend : t.control.program = []) :
    t.world.history.droppedByHandle = (ledgerTickets s).length ∧
      ((t.world.history.droppedByHandle = t.world.nextTicket - t.world.history.completed.length ∧
          t.world.nextTicket = t.world.metrics.exported + t.world.metrics.rejected +
            t.world.metrics.droppedShutdown ∧
          (ledgerTickets s ++ t.world.history.resolved.map fun p => p.1.ticket).Perm
            (List.range' 1 t.world.nextTicket)) ↔
        ledgerCovers s) := by
  have hout := abort_outcome h hp hw ho hu hv ht hend
  have htreach : Reach (step x) (State.init L) t :=
    ((h.reach.next trivial hu).next trivial hv).trans ht
  obtain ⟨hset, hall, hadd, -, hcl⟩ := awaits_clear hw
  have hcover := ledger_perm (siteLaw h) hw (tickets_at_rest (conserved h) (discardLaw h) ho hcl)
  have hresolved : (t.world.history.resolved.map fun p => p.1.ticket) =
      s.world.history.completed := by
    have hr : (t.world.history.resolved.map fun p => p.1.ticket) = _ := resolvedLaw htreach
    rw [hr, hout.completed, settled, hout.worker, hset, List.map_nil, List.append_nil]
  rw [hresolved, hout.nextTicket, hcover]
  refine ⟨hout.dropped, fun hP => hP.2.2, fun hcov => ?_⟩
  have hlen := (hcover.mpr hcov).length_eq
  rw [List.length_append, List.length_range'] at hlen
  have hdropped := hout.dropped
  have hcount := counted_eq h
  have hcount' := hout.counted
  have hdrop : t.world.metrics.droppedShutdown = t.world.history.droppedByHandle := by
    have := dropLaw htreach
    unfold DropLaw at this
    rwa [hout.worker, hadd] at this
  unfold settled uncounted at hcount
  rw [hset, hall, List.length_nil] at hcount
  unfold counted at hcount hcount'
  refine ⟨?_, ?_, hcov⟩
  · rw [hout.completed]
    omega
  · omega

/-! ## Two aborts -/

/-- Abort the worker, run the command to its end, and test both states. -/
def abortCheck (test : State ℕ → State ℕ → Bool) (s : State ℕ) : Bool :=
  match s.control.program with
  | .abortWorker :: rest =>
    s.worker.pc.awaits && (s.threads.all fun p => p.pc.outside) &&
      ((step sample s .control).bind fun u => step sample u .cancelWorker).any fun v =>
        (replay (step sample) noCheck v (controlSteps rest.length)).any fun t =>
          decide (t.control.program = []) && test s t
  | _ => false

/-- A replayed abort, with what the ledger's theorem asks of it. -/
theorem exists_abort (as : List (Action ℕ)) (test : State ℕ → State ℕ → Bool)
    (h : (replay (step sample) honestCheck (State.init ℕ) as).any (abortCheck test) = true) :
    ∃ (s u v t : State ℕ) (rest : List ControlOp),
      ReachWhile (step sample) honest (State.init ℕ) s ∧
        s.control.program = .abortWorker :: rest ∧ s.worker.pc.awaits = true ∧
        (∀ p ∈ s.threads, p.pc.outside = true) ∧ step sample s .control = some u ∧
        step sample u .cancelWorker = some v ∧ Reach (step sample) v t ∧
        t.control.program = [] ∧ test s t = true := by
  obtain ⟨s, hs, hp⟩ := exists_reach_of_replay _ honest_of_check _ _ _ h
  unfold abortCheck at hp
  split at hp
  · rename_i rest hprog
    simp only [Bool.and_eq_true, List.all_eq_true, Option.any_eq_true, Option.bind_eq_some_iff,
      decide_eq_true_eq] at hp
    obtain ⟨⟨hw, ho⟩, v, ⟨u, hu, hv⟩, t, ht, hend, htest⟩ := hp
    exact ⟨s, u, v, t, rest, hs, hprog, hw, ho, hu, hv,
      replay_reach (fun _ _ _ => trivial) ht, hend, htest⟩
  · cases hp

/-- A shutdown's deadline passes while the worker is suspended. -/
def deadlineRun (before : List (Action ℕ)) : List (Action ℕ) :=
  before ++ [.command .shutdown] ++ controlSteps 13 ++ [.fence, .expireDeadline]

/-- The worker awaits the answer for two of three records, with nothing
completed or carried over. -/
def abortedInRequest (s t : State ℕ) : Bool :=
  match s.worker.pc with
  | .awaitReply _ => decide (activeCompleted s.world = [] ∧ s.worker.pending = [] ∧
      t.world.nextTicket = 3 ∧ (queued s.world s.worker).map QueuedLog.ticket = [3] ∧
      inflightTickets s.world s.worker = [1, 2])
  | _ => false

/-- An abort during the request of two records, with a third one in its lane,
counts each of them as dropped. -/
theorem abort_ledger_request : ∃ s t : State ℕ, Reachable sample t ∧ s.worker.pc.awaits = true ∧
    ledgerTickets s = [3, 1, 2] ∧ t.world.history.droppedByHandle = 3 ∧
    t.world.nextTicket =
      t.world.metrics.exported + t.world.metrics.rejected + t.world.metrics.droppedShutdown ∧
    (ledgerTickets s ++ t.world.history.resolved.map fun p => p.1.ticket).Perm [1, 2, 3] := by
  obtain ⟨s, u, v, t, rest, hs, hp, hw, ho, hu, hv, ht, hend, htest⟩ :=
    exists_abort
      (deadlineRun (.spawn :: submitAlone 0 3 ++ .enter 0 4 :: producerSteps 0 7 ++ lateSteps 21 ++
        submitAlone 0 5))
      abortedInRequest (by decide +kernel)
  unfold abortedInRequest at htest
  split at htest
  · rename_i e hpc
    obtain ⟨hdone, hpend, hnext, hq, hi⟩ := of_decide_eq_true htest
    have hcov : ledgerCovers s := by
      unfold ledgerCovers
      rw [hpc]
      exact ⟨hdone, hpend⟩
    have htickets : ledgerTickets s = [3, 1, 2] := by rw [ledgerTickets, hq, hi]; rfl
    obtain ⟨hdropped, hiff⟩ := abort_ledger hs hp hw ho hu hv ht hend
    obtain ⟨-, hbalance, hperm⟩ := hiff.mpr hcov
    rw [htickets] at hdropped
    rw [hnext] at hperm
    exact ⟨s, t, ((hs.reach.next trivial hu).next trivial hv).trans ht, hw, htickets, hdropped,
      hbalance, hperm⟩
  · cases htest

/-- The worker waits with a batch, and its abort counts nothing. -/
def abortedInAssembly (s t : State ℕ) : Bool :=
  match s.worker.pc with
  | .parked (.assembly _) => decide (t.world.history.droppedByHandle = 0 ∧
      t.world.nextTicket = 1 ∧ t.world.history.completed = [] ∧
      t.world.nextTicket ≠ t.world.metrics.exported + t.world.metrics.rejected +
        t.world.metrics.droppedShutdown)
  | _ => false

/-- An abort while the record's batch waits for more counts nothing. -/
theorem abort_uncounted : ∃ (s u v t : State ℕ) (b : Assembly),
    ReachWhile (step sample) honest (State.init ℕ) s ∧ s.worker.pc = .parked (.assembly b) ∧
      (∀ p ∈ s.threads, p.pc.outside = true) ∧ step sample s .control = some u ∧
      step sample u .cancelWorker = some v ∧ Reach (step sample) v t ∧
      t.control.program = [] ∧ t.world.history.droppedByHandle = 0 ∧ t.world.nextTicket = 1 ∧
      t.world.history.completed = [] ∧
      t.world.nextTicket ≠ t.world.metrics.exported + t.world.metrics.rejected +
        t.world.metrics.droppedShutdown := by
  obtain ⟨s, u, v, t, rest, hs, -, -, ho, hu, hv, ht, hend, htest⟩ :=
    exists_abort
      (deadlineRun (.spawn :: workerSteps 9 .fatal ++ submitAlone 0 3 ++ workerSteps 19 .fatal))
      abortedInAssembly (by decide +kernel)
  unfold abortedInAssembly at htest
  split at htest
  · rename_i b hpc
    exact ⟨s, u, v, t, b, hs, hpc, ho, hu, hv, ht, hend, of_decide_eq_true htest⟩
  · cases htest

end EdenLogger.AbortLedger
