import EdenLogger.BatchExport
import EdenLogger.BatchLimits
import EdenLogger.FlushDelay

/-!
# Why a batch is closed

The wait for the next record listens to the shutdown, the deadline, a flush and
the records notification. The first three close the batch. A records
notification leads to one more look into the lanes, and closes it too if the
record was already taken; `receive` would have waited again.
-/

namespace EdenLogger.BatchClosing

open MachineWord WakeUpPermit ExporterConfig ExporterLanes LogCollector GenerationState
open GenerationStep GenerationMoves GenerationFrames ListCells RecordFlow RunRules ReceiveSites
open ProducerWakeUps
open BatchLimits FlushDelay BatchExport

variable {L : Type} {x : Exporter L} {s s' : State L} {a : Action L}

/-! ## Requests behind the permits -/

/-- A command clears `accepting` before it notifies the shutdown or a flush. -/
def stopsFirst : List ControlOp → Bool
  | [] | .storeAccepting :: _ => true
  | .notifyShutdown :: _ | .notifyFlush :: _ => false
  | _ :: rest => stopsFirst rest

/-- Whether a flush call has sent its request. -/
def isSent (c : FlushCall) : Bool :=
  match c.pc with
  | .notify => false
  | _ => true

/-- Shutdown began, or a flush call sent its request. -/
def flushRequested (s : State L) : Prop :=
  s.world.accepting = false ∨ ∃ c ∈ s.flushes, isSent c = true

/-- Where the worker looks for a record because it has seen the shutdown. -/
def drainingNext : WorkerPc L → Bool
  | .drain (.receiving (.nextDraining _)) | .take (.receiving (.nextDraining _)) _ _ => true
  | .pop (.nextDraining _) => true
  | _ => false

/-- What the worker's signals are evidence of. -/
structure CauseLaw (s : State L) : Prop where
  /-- A command that has not stopped acceptance notifies only behind that. -/
  first : stopsFirst s.control.program = true ∨ s.world.accepting = false
  /-- The shutdown notification. -/
  shutdown : s.world.shutdown.pending = true → s.world.accepting = false
  /-- The worker's own flag. -/
  seen : s.worker.shuttingDown = true → s.world.accepting = false
  /-- The flush notification. -/
  flush : s.world.flush.pending = true → flushRequested s

/-- The worker sets its flag on a shutdown notification. -/
theorem shuttingDown_of_move {o : Oracle} {w w' : World L} {k k' : Worker L}
    (hm : WorkerMove x o w k w' k') (h : k'.shuttingDown = true) :
    k.shuttingDown = true ∨ w.shutdown.pending = true := by
  cases hm
  case pollReady wait c cells hr hpc =>
    cases c with
    | shutdown => exact Or.inr ((Notify.poll_fst _).symm.trans hr)
    | _ => cases wait <;> exact Or.inl h
  case release site log hpc => cases site <;> exact Or.inl h
  case complete | ignored => exact Or.inl h
  all_goals exact Or.inl h

/-- The worker adds no notification to a wait. -/
theorem pending_of_worker {o : Oracle} {w w' : World L} {k k' : Worker L}
    (hm : WorkerMove x o w k w' k') (c : Cell) (h : pendingAt w' c = true) :
    pendingAt w c = true := by
  rcases worker_pending hm c with hsame | ⟨-, -, -, hp, -⟩
  · exact hsame ▸ h
  · exact hp

/-- An operation that notifies the shutdown or a flush is not the first of its command. -/
theorem control_requests (w : World L) (k : Control) {op : ControlOp} {rest : List ControlOp}
    (h : stopsFirst (op :: rest) = true) :
    ((controlStep w k op).1.accepting = false ∨ stopsFirst rest = true) ∧
      (controlStep w k op).1.shutdown = w.shutdown ∧ (controlStep w k op).1.flush = w.flush := by
  cases op
  case storeAccepting => exact ⟨Or.inl rfl, rfl, rfl⟩
  case notifyShutdown | notifyFlush => cases h
  case storeShuttingDown =>
    simp only [controlStep]
    split <;> exact ⟨Or.inr h, rfl, rfl⟩
  all_goals exact ⟨Or.inr h, rfl, rfl⟩

/-- Acceptance is never resumed. -/
theorem control_accepting (w : World L) (k : Control) (op : ControlOp)
    (h : w.accepting = false) : (controlStep w k op).1.accepting = false := by
  cases op
  case storeAccepting => rfl
  case storeShuttingDown =>
    simp only [controlStep]
    split <;> exact h
  all_goals exact h

/-- A flush call begins with its request. -/
theorem sent_of_move {w w' : World L} {c c' : FlushCall} (hm : FlushMove w c w' c') :
    isSent c' = true := by
  cases hm <;> rfl

/-- Every step keeps the evidence. -/
theorem CauseLaw.step (h : CauseLaw s) (hm : Move x s a s') : CauseLaw s' := by
  cases hm with
  | producer hi hm =>
    have hf := producer_frame hm
    refine ⟨?_, ?_, ?_, ?_⟩
    · simpa only [hf.accepting] using h.first
    · simpa only [hf.accepting, hf.shutdown] using h.shutdown
    · simpa only [hf.accepting] using h.seen
    · simpa only [flushRequested, hf.accepting, hf.flush] using h.flush
  | worker hab hm =>
    have hf := worker_frame hm
    refine ⟨?_, fun hp => ?_, fun hk => ?_, fun hp => ?_⟩
    · simpa only [hf.accepting] using h.first
    · exact hf.accepting.trans (h.shutdown (pending_of_worker hm .shutdown hp))
    · exact hf.accepting.trans ((shuttingDown_of_move hm hk).elim h.seen h.shutdown)
    · simpa only [flushRequested, hf.accepting] using h.flush (pending_of_worker hm .flush hp)
  | cancelWorker hr hab hw =>
    exact ⟨h.first, fun hp => h.shutdown ((Notify.pending_drop _).symm.trans hp), h.seen,
      fun hp => h.flush ((Notify.pending_drop _).symm.trans hp)⟩
  | beginFlush hc =>
    refine ⟨h.first, h.shutdown, h.seen, fun hp => (h.flush hp).imp id ?_⟩
    rintro ⟨c, hc, hs⟩
    exact ⟨c, List.mem_append_left _ hc, hs⟩
  | @flush j c c' w' hj hm =>
    have hsent : ∃ d ∈ s.flushes.set j c', isSent d = true :=
      ⟨c', List.mem_set (List.getElem?_eq_some_iff.mp hj).1 c', sent_of_move hm⟩
    rw [(flush_world hm).1]
    exact ⟨h.first, h.shutdown, h.seen, fun _ => Or.inr hsent⟩
  | @expireFlush j c e hj hpc =>
    refine ⟨h.first, h.shutdown, h.seen, fun hp => (h.flush hp).imp id fun hs => ?_⟩
    exact exists_mem_set hj hs fun _ => rfl
  | @command c hc hf =>
    refine ⟨Or.inl ?_, h.shutdown, h.seen, h.flush⟩
    cases c <;> rfl
  | @control op rest hp hr =>
    have hstays := control_accepting s.world s.control op
    rcases h.first with hfirst | hacc
    · rw [hp] at hfirst
      obtain ⟨hnext, hshutdown, hflush⟩ := control_requests s.world s.control hfirst
      refine ⟨hnext.symm, fun hq => ?_, fun hk => hstays (h.seen hk), fun hq => ?_⟩
      · exact hstays (h.shutdown (hshutdown ▸ hq))
      · exact (h.flush (hflush ▸ hq)).imp hstays id
    · exact ⟨Or.inr (hstays hacc), fun _ => hstays hacc, fun _ => hstays hacc,
        fun _ => Or.inl (hstays hacc)⟩
  | expireDeadline hp =>
    refine ⟨h.first.imp (fun hfirst => ?_) id, h.shutdown, h.seen, h.flush⟩
    rw [hp] at hfirst
    exact hfirst
  | _ => exact ⟨h.first, h.shutdown, h.seen, h.flush⟩

/-- The evidence holds in every run. -/
theorem causeLaw {ok : State L → Action L → Prop}
    (h : ReachWhile (step x) ok (State.init L) s) : CauseLaw s :=
  invariant_of_moves (I := CauseLaw)
    ⟨Or.inl rfl, (fun hp => by cases hp), (fun hk => by cases hk), (fun hp => by cases hp)⟩
    (fun _ _ _ hi _ hm => hi.step hm) h

/-- A worker that looks for the next record of a last batch has seen the shutdown. -/
def DrainingLaw (k : Worker L) : Prop := drainingNext k.pc = true → k.shuttingDown = true

/-- Entering `try_receive`. -/
theorem DrainingLaw.receive {k : Worker L} {site : Site} (hpc : k.pc = tryReceive k.input site)
    (h : ∀ b, site = .nextDraining b → k.shuttingDown = true) : DrainingLaw k := by
  intro hd
  rw [hpc] at hd
  cases site with
  | nextDraining b => exact h b rfl
  | _ =>
    unfold tryReceive at hd
    split at hd <;> cases hd

/-- The worker's steps keep it. -/
theorem DrainingLaw.move {o : Oracle} {w w' : World L} {k k' : Worker L} (h : DrainingLaw k)
    (hm : WorkerMove x o w k w' k') : DrainingLaw k' := by
  cases hm
  case drain d hpc | detach d detached hpc =>
    unfold DrainingLaw at h
    rw [hpc] at h
    cases d with
    | boundary => exact fun hd => by cases hd
    | receiving site => cases site <;> exact h
  case take d i todo detached lane hl hpc =>
    unfold DrainingLaw at h
    rw [hpc] at h
    cases d with
    | boundary => exact fun hd => by cases hd
    | receiving site => cases site <;> exact h
  case popNone site hi hpc =>
    cases site with
    | firstDraining => exact DrainingLaw.receive rfl fun b hb => by cases hb
    | _ => exact fun hd => by cases hd
  case release site log hpc => cases site <;> exact fun hd => by cases hd
  case chooseReceive site hp hs hpc =>
    refine DrainingLaw.receive rfl fun b hb => ?_
    rw [hb] at hs
    split at hs <;> cases hs
  case assembleReceive b site hl hp hs hpc =>
    refine DrainingLaw.receive rfl fun b' hb => ?_
    rw [hb] at hs
    split at hs
    · assumption
    · cases hs
  case pollReady wait c cells hr hpc =>
    cases wait with
    | receive =>
      cases c <;> exact DrainingLaw.receive rfl fun b hb => by cases hb
    | assembly b =>
      cases c with
      | records => exact DrainingLaw.receive rfl fun b hb => by cases hb
      | _ => exact fun hd => by cases hd
    | _ => exact fun hd => by cases hd
  case completed resume hpc => cases resume <;> exact fun hd => by cases hd
  all_goals exact fun hd => by cases hd

/-- It holds in every run. -/
theorem drainingLaw {ok : State L → Action L → Prop}
    (h : ReachWhile (step x) ok (State.init L) s) : DrainingLaw s.worker :=
  worker_invariant (I := DrainingLaw) (fun hd => by cases hd) (fun hi hm => hi.move hm) h

/-! ## Closing a batch -/

/-- The documented reasons to close a batch. -/
inductive Documented (x : Exporter L) (s : State L) (a : Action L) (s' : State L) : Prop
  /-- It is full. -/
  | full {b : Assembly} (hpc : s.worker.pc = .assemble b)
      (hfull : b.batch.length = x.config.maxBatchRecords)
  /-- The next record does not fit, and is carried over. -/
  | carried {b : Assembly} {r : MappedLog} (hpc : s.worker.pc = .offer b r)
      (hno : fitsRecord x b r = false) (hcarried : s'.worker.pending = r :: s.worker.pending)
  /-- Its deadline has passed. -/
  | deadline {b : Assembly} {cells : List Cell} {o : Oracle}
      (hpc : s.worker.pc = .poll (.assembly b) (.deadline :: cells)) (ha : a = .worker o)
      (hfired : o.fired = true)
  /-- A flush was requested. -/
  | flush {b : Assembly} {cells : List Cell}
      (hpc : s.worker.pc = .poll (.assembly b) (.flush :: cells)) (hflush : flushRequested s)
  /-- Shutdown began, and the wait hears of it. -/
  | shutdown {b : Assembly} {cells : List Cell}
      (hpc : s.worker.pc = .poll (.assembly b) (.shutdown :: cells))
      (hstopped : s.world.accepting = false)
  /-- Shutdown began before, and no record is left. -/
  | drained {b : Assembly} (hpc : s.worker.pc = .pop (.nextDraining b))
      (hseen : s.worker.shuttingDown = true) (hstopped : s.world.accepting = false)

/-- The wait took a records notification, and the look into the lanes behind it
found no record. -/
def StaleNotification (s : State L) : Prop :=
  ∃ b, s.worker.pc = .pop (.nextWoken b) ∧ s.worker.input.records = []

/-- Whether the worker stands behind a stale notification. -/
def isStale (k : Worker L) : Bool :=
  match k.pc with
  | .pop (.nextWoken _) => k.input.records.isEmpty
  | _ => false

/-- The check is exact. -/
theorem isStale_iff : isStale s.worker = true ↔ StaleNotification s := by
  unfold isStale StaleNotification
  split
  · rename_i b hpc
    exact ⟨fun h => ⟨b, hpc, List.isEmpty_iff.mp h⟩, fun ⟨_, _, h⟩ => List.isEmpty_iff.mpr h⟩
  · rename_i hpc
    exact ⟨(fun h => by cases h), fun ⟨b, hb, _⟩ => absurd hb (hpc b)⟩

/-- A stale notification is no documented reason. -/
theorem not_documented_of_stale (h : StaleNotification s) : ¬ Documented x s a s' := by
  obtain ⟨b, hpc, -⟩ := h
  intro hd
  cases hd with
  | full hpc' | carried hpc' | deadline hpc' | flush hpc' | shutdown hpc' | drained hpc' =>
    rw [hpc] at hpc'
    cases hpc'

/-- `try_receive` is not the end of a batch. -/
theorem tryReceive_ne (input : LaneQueues L) (site : Site) (batch : List MappedLog) :
    tryReceive input site ≠ .startExport batch := by
  unfold tryReceive
  split <;> exact fun hc => by cases hc

/-- In every run, a step of the worker closes a batch for a documented reason
unless it is behind a stale notification. -/
theorem batch_closed_for_reason (hv : x.config.validate = .ok ()) (h : Reachable x s)
    (a : Action L) (s' : State L) (hs : step x s a = some s') {batch : List MappedLog}
    (hopen : s.worker.pc ≠ .startExport batch) (hclosed : s'.worker.pc = .startExport batch) :
    Documented x s a s' ↔ ¬ StaleNotification s := by
  refine ⟨fun hd hst => not_documented_of_stale hst hd, fun hst => ?_⟩
  have hcause := causeLaw h
  have hlimits := (limitLaw hv h).worker
  have hdraining := drainingLaw h
  cases stepMove hs with
  | @worker o w' k' hab hm =>
    cases hm
    case popNone site hi hpc =>
      cases site with
      | nextDraining b =>
        have hseen := hdraining (by rw [hpc]; rfl)
        exact .drained hpc hseen (hcause.seen hseen)
      | nextWoken b => exact absurd ⟨b, hpc, hi⟩ hst
      | firstDraining => exact absurd hclosed (tryReceive_ne _ _ _)
      | receive | exitCheck | nextPolled b => cases hclosed
    case assembleFull b hl hpc =>
      rw [hpc] at hlimits
      have hcount := (AssemblyOk.limits hlimits).count
      exact .full hpc (by omega)
    case offerCarry b r ho hf hpc => exact .carried hpc hf rfl
    case pollReady wait c cells hr hpc =>
      cases wait with
      | assembly b =>
        cases c with
        | shutdown =>
          exact .shutdown hpc (hcause.shutdown ((Notify.poll_fst _).symm.trans hr))
        | deadline => exact .deadline hpc rfl hr
        | flush => exact .flush hpc (hcause.flush ((Notify.poll_fst _).symm.trans hr))
        | records => exact absurd hclosed (tryReceive_ne _ _ _)
      | receive => cases c <;> exact absurd hclosed (tryReceive_ne _ _ _)
      | producersClosed | terminalShutdown | terminalRecords => cases hclosed
    case detach d detached hpc => cases d <;> cases hclosed
    case release site log hpc => cases site <;> cases hclosed
    case chooseReceive | assembleReceive => exact absurd hclosed (tryReceive_ne _ _ _)
    case completed resume hpc => cases resume <;> cases hclosed
    all_goals cases hclosed
  | _ => exact absurd hclosed hopen

/-- Whether a step of the worker closes a batch. -/
def closesBatch (o : Oracle) (s : State ℕ) : Bool :=
  (begunBatch s.worker.pc).isEmpty &&
    (step sample s (.worker o)).any fun s' => !(begunBatch s'.worker.pc).isEmpty

/-- Such a step. -/
theorem closes_of_check {o : Oracle} {s : State ℕ} (h : closesBatch o s = true) :
    ∃ s' batch, step sample s (.worker o) = some s' ∧ s.worker.pc ≠ .startExport batch ∧
      s'.worker.pc = .startExport batch := by
  obtain ⟨hopen, hclosed⟩ := (Bool.and_eq_true _ _).mp h
  obtain ⟨s', hs, hne⟩ := (Option.any_eq_true _ _).mp hclosed
  have hbatch : begunBatch s'.worker.pc ≠ [] := fun hc => by
    rw [hc] at hne
    cases hne
  refine ⟨s', _, hs, fun hpc => ?_, startExport_of_begunBatch hbatch⟩
  rw [hpc] at hopen
  exact hbatch (List.isEmpty_iff.mp hopen)

/-- An oracle whose deadline has passed. -/
def lateOracle : Oracle := ⟨[], 0, true, .ok 1 0⟩

/-- A batch of one record that its deadline closes. -/
def closesLate (s : State ℕ) : Bool :=
  closesBatch lateOracle s && !isStale s.worker

/-- A batch that is closed when its deadline has passed. -/
theorem batch_closed_for_reason_deadline : ∃ (s s' : State ℕ) (a : Action ℕ)
    (batch : List MappedLog), Reachable sample s ∧ step sample s a = some s' ∧
      s'.worker.pc = .startExport batch ∧ Documented sample s a s' := by
  obtain ⟨s, hs, ht⟩ := exists_reach (step sample) (State.init ℕ)
    (.spawn :: submitAlone 0 3 ++ lateSteps 13) closesLate (by decide +kernel)
  obtain ⟨hclose, hstale⟩ := (Bool.and_eq_true _ _).mp ht
  obtain ⟨s', batch, hstep, hopen, hclosed⟩ := closes_of_check hclose
  exact ⟨s, s', _, batch, hs, hstep, hclosed,
    (batch_closed_for_reason (by decide +kernel) hs _ s' hstep hopen hclosed).mpr
      (fun hst => by rw [isStale_iff.mpr hst] at hstale; cases hstale)⟩

/-- A batch of one record that a stale notification closes. -/
def closesEarly (s : State ℕ) : Bool :=
  closesBatch ⟨[], 0, false, .ok 1 0⟩ s && isStale s.worker

/-- A record is pushed while the worker is busy. The worker takes it at the top
of its loop, and the notification it left closes the batch at once. -/
theorem batch_closed_early : ∃ (s s' : State ℕ) (a : Action ℕ) (batch : List MappedLog),
    Reachable sample s ∧ step sample s a = some s' ∧ s.worker.pc ≠ .startExport batch ∧
      s'.worker.pc = .startExport batch ∧ ¬ Documented sample s a s' := by
  obtain ⟨s, hs, ht⟩ := exists_reach (step sample) (State.init ℕ)
    (.spawn :: submitAlone 0 3 ++ workerSteps 19 (.ok 1 0)) closesEarly (by decide +kernel)
  obtain ⟨hclose, hstale⟩ := (Bool.and_eq_true _ _).mp ht
  obtain ⟨s', batch, hstep, hopen, hclosed⟩ := closes_of_check hclose
  exact ⟨s, s', _, batch, hs, hstep, hopen, hclosed,
    not_documented_of_stale (isStale_iff.mp hstale)⟩

end EdenLogger.BatchClosing
