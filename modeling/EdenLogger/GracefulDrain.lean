import EdenLogger.ProducerWakeUps
import EdenLogger.FlushSoundness

/-!
# The drain on the way out

A worker that was asked to stop looks for records once more, and only then
reads whether the producers have closed. A last push between the two reads is
missed, and its record is lost. In runs where the producers do not close in
that window with records left in a lane, the exit has drained everything.
-/

namespace EdenLogger.GracefulDrain

open ExporterLanes LogCollector CompletionTracking Watermark GenerationState GenerationStep
open GenerationMoves GenerationFrames ListCells LaneTable LaneOwnership RecordFlow ReceiveSites
open Completion ProducerWakeUps FlushSoundness RunRules

variable {L : Type} {x : Exporter L} {s s' : State L} {a : Action L}

/-! ## The last look -/

/-- Whether a lane holds no record. -/
def laneEmpty (w : World L) (j : ℕ) : Bool := (w.lanes[j]?).all fun lane => lane.queues.isEmpty

/-- A lane without records is one that does not hold any. -/
theorem laneEmpty_iff {w : World L} {j : ℕ} : laneEmpty w j = true ↔ ¬ laneHolds w j := by
  unfold laneEmpty laneHolds
  cases hl : w.lanes[j]? with
  | none => simp
  | some lane => simp [LaneQueues.isEmpty_iff]

/-- The worker's last look before its exit finds nothing any more, whatever
the lanes behind it hold. -/
def isBlind (s : State L) : Bool :=
  match s.worker.pc with
  | .take (.receiving .exitCheck) todo detached =>
    todo.all (laneEmpty s.world) && detached.all fun p => p.2.isEmpty
  | .pop .exitCheck => s.worker.input.isEmpty
  | .loadClosed => true
  | .storeStopped exit | .notifyStopped exit | .reporting exit | .finished exit _ =>
    isDrained exit
  | _ => false

/-- Steps in which the producers do not close behind the worker's last look
with a record in a lane. -/
def closesInTime (s : State L) (a : Action L) : Prop :=
  a = .fence → s.fence = .armed → isBlind s = true → laneRecords s.world.lanes = []

/-- A check for such steps. -/
def closesInTimeCheck (s : State L) : Action L → Bool
  | .fence => !isBlind s || (laneRecords s.world.lanes).isEmpty
  | _ => true

/-- A step that passes the check meets the condition. -/
theorem closesInTime_of_check (s : State L) (a : Action L) (h : closesInTimeCheck s a = true) :
    closesInTime s a := by
  intro ha _ hb
  subst ha
  simpa [closesInTimeCheck, hb] using h

/-- Once the producers have closed, a blind worker leaves no record behind. -/
def DrainLaw (s : State L) : Prop :=
  s.world.producersClosed = true → isBlind s = true → laneRecords s.world.lanes = []

/-! ## Lanes behind the last look -/

/-- No lane holds a record. -/
theorem laneRecords_eq_nil {lanes : List (ProducerLane L)}
    (h : ∀ {j : ℕ} {lane : ProducerLane L}, lanes[j]? = some lane → lane.queues.records = []) :
    laneRecords lanes = [] := by
  refine List.flatMap_eq_nil_iff.mpr fun lane hl => ?_
  obtain ⟨j, hj⟩ := List.mem_iff_getElem?.mp hl
  exact h hj

/-- The records of one lane are records of the table. -/
theorem records_of_laneRecords {lanes : List (ProducerLane L)} (h : laneRecords lanes = []) {j : ℕ}
    {lane : ProducerLane L} (hj : lanes[j]? = some lane) : lane.queues.records = [] :=
  List.flatMap_eq_nil_iff.mp h lane (List.mem_of_getElem? hj)

/-- The worker puts no record into an empty table. -/
theorem laneRecords_of_table {lanes lanes' : List (ProducerLane L)} (ht : TableStep lanes lanes')
    (h : laneRecords lanes = []) : laneRecords lanes' = [] :=
  laneRecords_eq_nil fun hj => by
    obtain ⟨lane, hl, hs⟩ := ht.lane hj
    rcases hs.queues with hq | hq
    · rw [hq]
      exact records_of_laneRecords h hl
    · exact hq

/-- Lanes that are all empty, or outside the registry, hold no record. -/
theorem laneRecords_of_registry (ho : LanesOwned s)
    (h : ∀ j ∈ s.world.registry.lanes, laneEmpty s.world j = true) :
    laneRecords s.world.lanes = [] :=
  laneRecords_eq_nil fun {j lane} hj => by
    by_cases hr : j ∈ s.world.registry.lanes
    · by_contra hne
      exact laneEmpty_iff.mp (h j hr) ⟨lane, hj, hne⟩
    · exact ho.unregistered hj hr

/-! ## The law -/

/-- Entering `try_receive` starts a new look. -/
theorem isBlind_receive (site : Site) (h : s.worker.pc = tryReceive s.worker.input site) :
    isBlind s = false := by
  unfold isBlind
  rw [h]
  unfold tryReceive
  by_cases he : s.worker.input.isEmpty = true
  · rw [if_pos he]
  · rw [if_neg he]
    cases site <;> first | rfl | exact Bool.eq_false_of_not_eq_true he

/-- A worker that is blind in a drain drains for its last look. -/
theorem drain_of_blind {d : Drain} (h : isBlind s = true)
    (hpc : (∃ todo detached, s.worker.pc = .take d todo detached) ∨ s.worker.pc = drainNext d) :
    d = .receiving .exitCheck := by
  unfold isBlind at h
  rcases hpc with ⟨todo, detached, hpc⟩ | hpc <;> rw [hpc] at h <;> cases d with
  | boundary => cases h
  | receiving site =>
    cases site with
    | exitCheck => rfl
    | _ => cases h

/-- A blind worker was blind before its step, or has just begun its last look
at lanes that are all empty. -/
theorem isBlind_move {o : Oracle} {w' : World L} {k' : Worker L}
    (hm : WorkerMove x o s.world s.worker w' k')
    (h : isBlind { s with world := w', worker := k' } = true) :
    isBlind s = true ∨ ∀ j ∈ w'.registry.lanes, laneEmpty w' j = true := by
  cases hm
  case drain d hpc =>
    refine Or.inr fun j hj => ?_
    obtain rfl := drain_of_blind h (Or.inl ⟨_, _, rfl⟩)
    simp only [isBlind, List.all_nil, Bool.and_true, List.all_eq_true] at h
    exact h j (mem_snapshot_order.mpr hj)
  case take d i todo detached lane hl hpc =>
    refine Or.inl ?_
    obtain rfl := drain_of_blind h (Or.inl ⟨_, _, rfl⟩)
    simp only [isBlind, Bool.and_eq_true, List.all_append, List.all_cons, List.all_nil,
      Bool.and_true, ProducerLane.take] at h
    obtain ⟨ht, hd, hq⟩ := h
    rw [List.all_eq_true] at ht
    have hi : laneEmpty s.world i = true := by
      simp only [laneEmpty, hl, Option.all_some]
      exact hq
    simp only [isBlind, hpc, List.all_cons, Bool.and_eq_true, List.all_eq_true]
    refine ⟨⟨hi, fun j hj => ?_⟩, List.all_eq_true.mp hd⟩
    by_cases hij : j = i
    · exact hij ▸ hi
    · have hempty := ht j hj
      rwa [laneEmpty, List.getElem?_set_ne fun h => hij h.symm] at hempty
  case detach d detached hpc =>
    refine Or.inl ?_
    obtain rfl := drain_of_blind h (Or.inr rfl)
    simp only [isBlind, drainNext, LaneQueues.isEmpty_iff] at h
    have hp := moveDetached_records detached s.worker.input
    rw [h] at hp
    have hd := (List.append_eq_nil_iff.mp (List.nil_perm.mp hp)).1
    simp only [isBlind, hpc, List.all_nil, Bool.true_and, List.all_eq_true, LaneQueues.isEmpty_iff]
    exact List.flatMap_eq_nil_iff.mp hd
  case popNone site hi hpc =>
    cases site with
    | exitCheck =>
      refine Or.inl ?_
      simp only [isBlind, hpc]
      exact (LaneQueues.isEmpty_iff _).mpr hi
    | firstDraining =>
      rw [isBlind_receive .exitCheck rfl] at h
      cases h
    | _ => cases h
  case release site log hpc => cases site <;> cases h
  case chooseReceive site hp hs hpc =>
    rw [isBlind_receive site rfl] at h
    cases h
  case assembleReceive a site hl hp hs hpc =>
    rw [isBlind_receive site rfl] at h
    cases h
  case pollReady wait c cells hr hpc =>
    cases wait with
    | receive =>
      cases c <;> rw [isBlind_receive _ rfl] at h <;> cases h
    | assembly a =>
      cases c with
      | records =>
        rw [isBlind_receive _ rfl] at h
        cases h
      | _ => cases h
    | _ => cases h
  case closedSeen hc hpc =>
    refine Or.inl ?_
    simp only [isBlind, hpc]
  case completed resume hpc => cases resume <;> cases h
  case storeStopped exit hpc | notifyStopped exit hpc | report exit hpc =>
    refine Or.inl ?_
    simp only [isBlind, hpc]
    exact h
  all_goals cases h

/-- A thread takes no record out of a lane. -/
theorem producer_keeps {i : ℕ} {w w' : World L} {p p' : Producer L}
    (hm : ProducerMove x i w p w' p') {j : ℕ} (h : laneHolds w j) : laneHolds w' j := by
  cases hm
  case register hn hpc =>
    obtain ⟨lane, hg, hne⟩ := h
    have hlt := (List.getElem?_eq_some_iff.mp hg).1
    exact ⟨lane, (List.getElem?_append_left hlt).trans hg, hne⟩
  case push r q ticket j' lane' hj hl hpc =>
    refine exists_cell_set hl (fun _ he => ?_) h
    have hp := lane'.records_push ⟨r.log, q, r.bytes, ticket, i⟩
    rw [he] at hp
    exact absurd (List.nil_perm.mp hp) (by simp)
  case close j' lane' hj hl hpc => exact exists_cell_set hl id h
  case refused failure hpc => cases failure <;> exact h
  all_goals exact h

/-- What makes a worker blind is not changed by pushes. -/
theorem isBlind_producer {i : ℕ} {w' : World L} {p p' : Producer L} {threads : List (Producer L)}
    (hm : ProducerMove x i s.world p w' p')
    (h : isBlind { s with world := w', threads := threads } = true) : isBlind s = true := by
  have hl : ∀ j, laneEmpty w' j = true → laneEmpty s.world j = true := fun j hj =>
    laneEmpty_iff.mpr fun hh => laneEmpty_iff.mp hj (producer_keeps hm hh)
  unfold isBlind at h ⊢
  dsimp only at h
  split
  · rename_i todo detached hpc
    rw [hpc] at h
    dsimp only at h
    rw [Bool.and_eq_true, List.all_eq_true] at h ⊢
    exact ⟨fun j hj => hl j (h.1 j hj), h.2⟩
  all_goals simp_all

/-- The drain law is kept by every step under the condition. -/
theorem DrainLaw.step (h : DrainLaw s) (hq : Quiescence s) (ho : LanesOwned s)
    (ho' : LanesOwned s') (hok : closesInTime s a) (hm : Move x s a s') : DrainLaw s' := by
  intro hc hb
  cases hm with
  | @producer i p p' w' hi hm =>
    have hc0 : s.world.producersClosed = true := (producer_frame hm).producersClosed ▸ hc
    have hr := h hc0 (isBlind_producer hm hb)
    rcases producer_records hm with ⟨hl, -⟩ | ⟨log, -, hp⟩
    · exact hl.trans hr
    · obtain ⟨-, -, -, -, -, -, hout, -⟩ := hp
      rw [hq.outside hc0 p (List.mem_of_getElem? hi)] at hout
      cases hout
  | fenceClose hf hr hout => exact hok rfl hf hb
  | @worker o w' k' ha hm =>
    have hc0 : s.world.producersClosed = true := (worker_frame hm).producersClosed ▸ hc
    rcases isBlind_move hm hb with hb | hj
    · exact laneRecords_of_table (worker_table hm ho.spare) (h hc0 hb)
    · exact laneRecords_of_registry ho' hj
  | flush hj hm =>
    rw [(flush_world hm).1] at hc hb ⊢
    exact h hc hb
  | @control op rest hp hr =>
    have hf := controlStep_frame s.world s.control op
    have hl : laneEmpty (controlStep s.world s.control op).1 = laneEmpty s.world := by
      funext j
      simp only [laneEmpty, hf.lanes]
    have hb' : isBlind s = true := by
      simpa only [isBlind, hl] using hb
    dsimp only
    rw [hf.lanes]
    exact h (hf.producersClosed ▸ hc) hb'
  | _ => exact h hc hb

/-- The drain law holds in every run that meets the condition. -/
theorem drainLaw (h : ReachWhile (step x) closesInTime (State.init L) s) : DrainLaw s :=
  invariant_of_moves_using (I := DrainLaw) (J := fun s => Quiescence s ∧ LanesOwned s)
    (fun _ hr => ⟨quiescence hr, lanesOwned hr⟩) (fun hc => by cases hc)
    (fun _ _ _ hj hj' hi hok hm => hi.step hj.1 hj.2 hj'.2 hok hm) h

/-! ## The exit -/

/-- The worker returns by its last step, with a snapshot of the metrics. -/
theorem finished_of_move {o : Oracle} {w w' : World L} {k k' : Worker L}
    (hm : WorkerMove x o w k w' k') {exit : Exit} {report : ShutdownReport}
    (h : k'.pc = .finished exit report) :
    k.pc = .reporting exit ∧ w' = w ∧ report = ⟨false, exit.remaining, metricsSnapshot w⟩ := by
  cases hm
  case report hpc =>
    cases h
    exact ⟨hpc, rfl, rfl⟩
  case detach | popNone | release | chooseReceive | assembleReceive | pollReady | completed =>
    have hp := congrArg pastClosed h
    simp only [pastClosed_drainNext, pastClosed_receivedNone, pastClosed_received,
      pastClosed_tryReceive, pastClosed_waitReady, pastClosed_resumePc] at hp
    cases hp
  all_goals cases h

/-- A returned worker reports what its exit counted. -/
def ReportLaw (k : Worker L) : Prop :=
  ∀ exit report, k.pc = .finished exit report → report.remainingRecords = exit.remaining

/-- The report law holds in every run. -/
theorem reportLaw {ok : State L → Action L → Prop}
    (h : ReachWhile (step x) ok (State.init L) s) : ReportLaw s.worker :=
  worker_invariant (I := ReportLaw) (fun _ _ hpc => by cases hpc) (fun _ hm exit report hpc => by
    rw [(finished_of_move hm hpc).2.2]) h

/-- Where the worker stands after a graceful exit, it holds nothing. -/
theorem holdingTickets_drained {k : Worker L} {report : ShutdownReport}
    (hpc : k.pc = .finished .drained report) (hp : k.pending = []) : holdingTickets k = [] := by
  simp only [holdingTickets, hpc, hp, held, exitParts, List.map_nil, List.append_nil]

/-- No thread outside the callback holds a ticket. -/
theorem taken_eq_nil {threads : List (Producer L)} (h : ∀ p ∈ threads, p.pc.outside = true) :
    taken threads = [] :=
  List.flatMap_eq_nil_iff.mpr fun p hp => ticketOf_outside (h p hp)

/-- A graceful drain is complete, in runs where the producers do not close
behind the worker's last look with a record in a lane: every ticket is
completed, nothing is queued or carried over, and none remain. -/
theorem graceful_drain (h : ReachWhile (step x) closesInTime (State.init L) s)
    {report : ShutdownReport} (hpc : s.worker.pc = .finished .drained report) :
    (∀ t, 0 < t → t ≤ s.world.nextTicket → t ∈ s.world.history.completed) ∧
      s.world.completedTicket = s.world.nextTicket ∧
      (∀ lane ∈ s.world.lanes, lane.queues.isEmpty = true) ∧ s.worker.input.isEmpty = true ∧
      s.worker.pending = [] ∧ report.remainingRecords = 0 ∧
      s.world.history.completed.length = s.world.nextTicket := by
  have hc := conserved h
  have hk := siteLaw h
  have hclosed := hc.quiescence.past (by rw [hpc]; rfl)
  have hl : laneRecords s.world.lanes = [] := drainLaw h hclosed (by simp only [isBlind, hpc]; rfl)
  have hin : s.worker.input.records = [] := hk.inbox (by rw [hpc]; rfl)
  have hpe : s.worker.pending = [] := hk.pending (by rw [hpc]; rfl)
  have hd : s.world.history.discarded = [] := by
    refine (discardLaw h).resolve_right fun hcl => ?_
    rw [hpc] at hcl
    cases hcl
  have hq : queued s.world s.worker = [] := by
    simp only [queued, hl, hpc, held, detachedRecords, hin, List.flatMap_nil, List.append_nil]
  have hperm : s.world.history.completed.Perm (List.range' 1 s.world.nextTicket) := by
    have hp := hc.located_perm
    simpa only [located, taken_eq_nil (hc.quiescence.outside hclosed), hq, hd,
      holdingTickets_drained hpc hpe, List.map_nil, List.nil_append] using hp
  have hmem : ∀ t, t ∈ s.world.history.completed ↔ 0 < t ∧ t ≤ s.world.nextTicket := fun t => by
    rw [hperm.mem_iff, List.mem_range'_1]
    omega
  have ht := trackerLaw h
  refine ⟨fun t hpos hle => (hmem t).mpr ⟨hpos, hle⟩, ?_, fun lane hlane => ?_,
    (LaneQueues.isEmpty_iff _).mpr hin, hpe, reportLaw h _ _ hpc, ?_⟩
  · exact ht.published.trans (ht.exact.isWatermark.eq_of_segment hmem)
  · exact (LaneQueues.isEmpty_iff _).mpr (List.flatMap_eq_nil_iff.mp hl lane hlane)
  · rw [hperm.length_eq, List.length_range']

/-- A record is exported, then the generation is shut down. -/
def shutdownRun : List (Action ℕ) :=
  .spawn :: submitAlone 0 3 ++ [.command .shutdown] ++ controlSteps 13 ++ [.fence, .fence] ++
    workerSteps 39 (.ok 1 0)

/-- The worker drained one record. -/
def drainedOne (s : State ℕ) : Bool :=
  match s.worker.pc with
  | .finished .drained _ => decide (s.world.nextTicket = 1)
  | _ => false

/-- That run drains its one record. -/
theorem graceful_drain_one : ∃ s : State ℕ, s.world.nextTicket = 1 ∧
    s.world.completedTicket = s.world.nextTicket := by
  obtain ⟨s, hs, hp⟩ := exists_reach_of_replay (step sample) closesInTime_of_check (State.init ℕ)
    shutdownRun
    drainedOne (by decide +kernel)
  unfold drainedOne at hp
  split at hp
  · rename_i hpc
    exact ⟨s, of_decide_eq_true hp, (graceful_drain hs hpc).2.1⟩
  · cases hp

/-- The last push and the close of its callback come between the worker's
last look and its reading of the flag. -/
def lastPushRun : List (Action ℕ) :=
  [.spawn, .enter 0 5] ++ producerSteps 0 5 ++ [.command .shutdown] ++ controlSteps 13 ++
    workerSteps 13 .fatal ++ producerSteps 0 3 ++ [.fence] ++ workerSteps 4 .fatal

/-- The worker returned, and a record is left in a lane. -/
def drainedWithRecord (s : State ℕ) : Bool :=
  match s.worker.pc with
  | .finished .drained report => decide (report.remainingRecords = 0 ∧
      s.world.nextTicket = 1 ∧ s.world.completedTicket = 0 ∧
      (laneRecords s.world.lanes).map QueuedLog.ticket = [1])
  | _ => false

/-- In that run the worker returns with nothing remaining, while an accepted
record is left in its lane and never completed. -/
theorem drain_incomplete : ∃ (s : State ℕ) (report : ShutdownReport), Reachable sample s ∧
    s.worker.pc = .finished .drained report ∧ report.remainingRecords = 0 ∧
      s.world.nextTicket = 1 ∧ s.world.completedTicket = 0 ∧
      (laneRecords s.world.lanes).map QueuedLog.ticket = [1] := by
  obtain ⟨s, hs, hp⟩ := exists_reach (step sample) (State.init ℕ) lastPushRun
    drainedWithRecord (by decide +kernel)
  unfold drainedWithRecord at hp
  split at hp
  · rename_i report hpc
    exact ⟨s, report, hs, hpc, of_decide_eq_true hp⟩
  · cases hp

end EdenLogger.GracefulDrain
