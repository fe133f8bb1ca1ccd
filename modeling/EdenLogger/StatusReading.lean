import EdenLogger.ShutdownProgress

/-!
# What the status says

While records are accepted, the status in the metrics is a function of where
the worker stands: backing off between a retryable answer and the next request,
failed behind a fatal answer, and running everywhere else. The places on the
way out are reached only after acceptance was stopped.
-/

namespace EdenLogger.StatusReading

open WakeUpPermit ExporterLanes LogCollector GenerationState GenerationStep GenerationMoves
open GenerationFrames RecordFlow ReceiveSites ProducerWakeUps HandleProgram ShutdownProgress
open RunRules
open BatchClosing (CauseLaw causeLaw control_accepting)

variable {L : Type} {x : Exporter L} {s s' : State L} {a : Action L}

/-- The status where the worker stands. -/
def statusOf (pc : WorkerPc L) : ExporterStatus :=
  if hasFailed pc then .terminalFailure
  else
    match pc with
    | .retrySleep _ | .retried _ _ => .backingOff
    | _ => .running

/-- Receive sites of a worker that has seen the shutdown. -/
def lastSite : Site → Bool
  | .firstDraining | .exitCheck | .nextDraining _ => true
  | .receive | .nextPolled _ | .nextWoken _ => false

/-- Where the worker stands only after acceptance was stopped. -/
def leaving : WorkerPc L → Bool
  | .drain (.receiving site) | .take (.receiving site) _ _ | .pop site | .release site _ =>
    lastSite site
  | .poll wait _ | .parked wait =>
    match wait with
    | .producersClosed | .terminalRecords _ => true
    | _ => false
  | .retried _ accepting => !accepting
  | .loadClosed | .terminalClosed _ | .ledgerNormal _ | .ledgerReserved _ _ | .ledgerAdd _ _
  | .ledgerClear _ _ | .storeStopped _ | .notifyStopped _ | .reporting _ | .finished _ _ => true
  | _ => false

/-- While records are accepted, the worker is not on its way out, and the
status is where it stands. -/
def ReadingLaw (s : State L) : Prop :=
  s.world.accepting = true →
    leaving s.worker.pc = false ∧ s.world.metrics.status = statusOf s.worker.pc

@[simp] theorem statusOf_tryReceive (input : LaneQueues L) (site : Site) :
    statusOf (tryReceive input site) = .running := by
  rcases tryReceive_cases input site with h | h <;> rw [h] <;> rfl

@[simp] theorem leaving_tryReceive (input : LaneQueues L) (site : Site) :
    leaving (tryReceive input site) = lastSite site := by
  rcases tryReceive_cases input site with h | h <;> rw [h] <;> rfl

/-- A worker step keeps the law, as long as nothing told the worker to stop. -/
theorem reading_of_move {o : Oracle} {w w' : World L} {k k' : Worker L}
    (hm : WorkerMove x o w k w' k') (hacc : w.accepting = true) (hseen : k.shuttingDown = false)
    (hquiet : w.shutdown.pending = false) (hpoll : PollLaw k) (hl : leaving k.pc = false)
    (hst : w.metrics.status = statusOf k.pc) :
    leaving k'.pc = false ∧ w'.metrics.status = statusOf k'.pc := by
  have hplace : ∀ {pc}, k.pc = pc → leaving pc = false ∧ w.metrics.status = statusOf pc :=
    fun hpc => ⟨hpc ▸ hl, hpc ▸ hst⟩
  cases hm
  case drain d hpc | take d i todo detached lane hl' hpc | detach d detached hpc =>
    obtain ⟨hl', hst'⟩ := hplace hpc
    cases d <;> exact ⟨hl', hst'⟩
  case popNone site hi hpc =>
    obtain ⟨hl', hst'⟩ := hplace hpc
    cases site with
    | firstDraining | exitCheck | nextDraining => cases hl'
    | receive | nextPolled | nextWoken => exact ⟨rfl, hst'⟩
  case pop site log input hi hpc =>
    obtain ⟨hl', hst'⟩ := hplace hpc
    exact ⟨hl', hst'⟩
  case release site log hpc =>
    obtain ⟨hl', hst'⟩ := hplace hpc
    cases site with
    | firstDraining | exitCheck | nextDraining => cases hl'
    | receive | nextPolled | nextWoken => exact ⟨rfl, hst'⟩
  case chooseReceive site hp hs hpc =>
    rw [hseen, if_neg Bool.false_ne_true] at hs
    subst hs
    exact ⟨leaving_tryReceive _ _, (hplace hpc).2.trans (statusOf_tryReceive _ _).symm⟩
  case assembleReceive b site hl' hp hs hpc =>
    rw [hseen, if_neg Bool.false_ne_true] at hs
    subst hs
    exact ⟨leaving_tryReceive _ _, (hplace hpc).2.trans (statusOf_tryReceive _ _).symm⟩
  case pollReady wait c cells hr hpc =>
    obtain ⟨hl', hst'⟩ := hplace hpc
    have hstatus : (dropWaits (pollCell w o c).2).metrics.status = w.metrics.status := by
      cases c <;> rfl
    have hc : c ≠ .shutdown := by
      rintro rfl
      rw [← Notify.poll_fst] at hquiet
      exact absurd (hquiet.symm.trans hr) (by simp)
    rw [hstatus, hst']
    cases wait with
    | receive =>
      cases c with
      | shutdown => exact absurd rfl hc
      | _ => exact ⟨leaving_tryReceive _ _, (statusOf_tryReceive _ _).symm⟩
    | assembly b =>
      cases c with
      | shutdown => exact absurd rfl hc
      | records => exact ⟨leaving_tryReceive _ _, (statusOf_tryReceive _ _).symm⟩
      | _ => exact ⟨rfl, rfl⟩
    | producersClosed | terminalRecords => cases hl'
    | terminalShutdown retained =>
      unfold PollLaw at hpoll
      rw [hpc] at hpoll
      exact absurd (List.mem_singleton.mp (hpoll List.mem_cons_self)) hc
  case pollNext wait c cells hr hpc =>
    have hstatus : (pollCell w o c).2.metrics.status = w.metrics.status := by cases c <;> rfl
    obtain ⟨hl', hst'⟩ := hplace hpc
    exact ⟨hl', hstatus.trans hst'⟩
  case slept e hpc => exact ⟨by simp [leaving, hacc], (hplace hpc).2⟩
  case retried e accepting hpc =>
    obtain ⟨hl', -⟩ := hplace hpc
    cases accepting with
    | false => cases hl'
    | true => exact ⟨rfl, rfl⟩
  case batchStatus hpc => exact ⟨rfl, by rw [hseen]; rfl⟩
  case terminalProceed ha hpc => rw [hacc] at ha; cases ha
  case completed resume hpc => cases resume <;> exact ⟨rfl, (hplace hpc).2⟩
  all_goals
    rename_i hpc
    first
      | exact ⟨rfl, (hplace hpc).2⟩
      | exact ⟨rfl, rfl⟩
      | exact ⟨(hplace hpc).1, (hplace hpc).2⟩
      | exact absurd (hplace hpc).1 (by simp [leaving])

/-- The head of a program does not store a status before acceptance was stopped. -/
def storesLate (c : Command) : List ControlOp → Bool
  | .storeShuttingDown :: rest => !(before .storeAccepting c).contains (.storeShuttingDown :: rest)
  | .storeStopped :: rest => !(before .storeAccepting c).contains (.storeStopped :: rest)
  | _ => true

/-- As long as records are accepted, the command stores no status. -/
theorem control_reading (h : Reachable x s) {op : ControlOp} {rest : List ControlOp}
    (hp : s.control.program = op :: rest) (hacc : s.world.accepting = true) :
    (controlStep s.world s.control op).1.metrics.status = s.world.metrics.status := by
  have hstop : ∀ c, s.control.command = some c → s.control.program ∈ before .storeAccepting c :=
    fun c hc => by
      by_contra hn
      rw [(stopLaw h).accepting ⟨c, hc, hn⟩] at hacc
      cases hacc
  have hcommand : ∃ c, s.control.command = some c := by
    refine Option.ne_none_iff_exists'.mp fun hn => ?_
    rw [(borrowLaw h).idle hn] at hp
    cases hp
  obtain ⟨c, hc⟩ := hcommand
  have hlate := (programLaw h).check (storesLate c) (by cases c <;> decide +kernel)
  have hin := hstop c hc
  rw [hp] at hlate hin
  cases op with
  | storeShuttingDown => simp [storesLate, hin] at hlate
  | storeStopped => simp [storesLate, hin] at hlate
  | _ => rfl

/-- The reading law is kept by every step. -/
theorem ReadingLaw.step (h : ReadingLaw s) (hr : Reachable x s) (hm : Move x s a s') :
    ReadingLaw s' := by
  have hcause := causeLaw hr
  intro hacc
  cases hm with
  | producer hi hm =>
    have hf := producer_frame hm
    obtain ⟨hl, hst⟩ := h (hf.accepting.symm.trans hacc)
    exact ⟨hl, hf.status.trans hst⟩
  | worker hab hm =>
    have hacc' := (worker_frame hm).accepting.symm.trans hacc
    have hfalse : ∀ {b : Bool}, (b = true → s.world.accepting = false) → b = false := fun hb => by
      by_contra hne
      rw [hb (Bool.eq_true_of_not_eq_false hne)] at hacc'
      cases hacc'
    obtain ⟨hl, hst⟩ := h hacc'
    exact reading_of_move hm hacc' (hfalse hcause.seen) (hfalse hcause.shutdown) (pollLaw hr) hl hst
  | flush hj hm =>
    rw [(flush_world hm).1] at hacc ⊢
    exact h hacc
  | @control op rest hp hready =>
    have hacc' : s.world.accepting = true := by
      by_contra hne
      have := control_accepting s.world s.control op (Bool.eq_false_of_not_eq_true hne)
      rw [this] at hacc
      cases hacc
    obtain ⟨hl, hst⟩ := h hacc'
    exact ⟨hl, (control_reading hr hp hacc').trans hst⟩
  | _ => exact h hacc

/-- The reading law holds in every reachable state. -/
theorem readingLaw (h : Reachable x s) : ReadingLaw s :=
  h.invariant_using (I := ReadingLaw) (J := fun t => Reachable x t) (fun _ ht => ht)
    (fun _ => ⟨rfl, rfl⟩) (fun _ _ _ ht _ hi _ hs => hi.step ht (stepMove hs))

/-- The status is where the worker stands. In every reachable state in which
records are accepted, the status in the metrics is `BackingOff` exactly between
a retryable answer and the next request, `TerminalFailure` exactly behind a
fatal answer, and `Running` everywhere else. -/
theorem status_of_place (h : Reachable x s) (hacc : s.world.accepting = true) :
    s.world.metrics.status = statusOf s.worker.pc :=
  (readingLaw h hacc).2

/-- A worker that was asked for a retry and has slept. -/
def backingOffRun : List (Action ℕ) :=
  .spawn :: submitAlone 0 3 ++ lateSteps 17 ++ workerSteps 2 .retryable

/-- Whether records are accepted behind the retry delay. -/
def sleptAccepting (s : State ℕ) : Bool :=
  match s.worker.pc with
  | .retried _ _ => s.world.accepting
  | _ => false

/-- There the status is `BackingOff`. -/
theorem status_of_place_retried : ∃ s : State ℕ, Reachable sample s ∧
    s.world.metrics.status = .backingOff := by
  obtain ⟨s, hs, hp⟩ := exists_reach (step sample) (State.init ℕ) backingOffRun sleptAccepting
    (by decide +kernel)
  unfold sleptAccepting at hp
  split at hp
  · rename_i hpc
    refine ⟨s, hs, (status_of_place hs hp).trans ?_⟩
    rw [hpc]
    rfl
  · cases hp

end EdenLogger.StatusReading
