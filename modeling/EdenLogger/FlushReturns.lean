import EdenLogger.FlushWakeUps
import EdenLogger.StatusReading
import EdenLogger.WorkerRest

/-!
# Flush calls return

A flush call borrows the handle, so no command runs beside it and the worker
lives on. Once the worker has come to rest, everything the call stands for is
completed, and its waiter has been woken if it is parked. From there it takes
at most four more steps.
-/

namespace EdenLogger.FlushReturns

open WakeUpPermit ExporterConfig ExporterLanes GenerationState GenerationStep GenerationMoves
open GenerationFrames ListCells RecordFlow Completion ProducerWakeUps HandleProgram FlushWakeUps
open ShutdownProgress StatusReading WorkerRest RunRules RunCosts
open BatchClosing (control_accepting)

variable {L : Type} {x : Exporter L} {s s' : State L} {a : Action L}

/-! ## Beside a flush call -/

/-- Without a command, records are accepted and the worker is not cancelled. -/
structure FreeLaw (s : State L) : Prop where
  accepting : s.control.command = none → s.world.accepting = true
  notRequested : s.control.command = none → s.abortRequested = false
  notAborted : s.control.command = none → s.aborted = false

/-- The law is kept by every step. -/
theorem FreeLaw.step (h : FreeLaw s) (hb : BorrowLaw s) (hm : Move x s a s') : FreeLaw s' := by
  cases hm with
  | producer hi hm =>
    exact ⟨fun hn => (producer_frame hm).accepting.trans (h.accepting hn), h.notRequested,
      h.notAborted⟩
  | worker hab hm =>
    exact ⟨fun hn => (worker_frame hm).accepting.trans (h.accepting hn), h.notRequested,
      h.notAborted⟩
  | cancelWorker hr hab hw =>
    refine ⟨h.accepting, h.notRequested, fun hn => ?_⟩
    exact absurd (hr.symm.trans (h.notRequested hn)) (by simp)
  | flush hj hm =>
    rw [(flush_world hm).1]
    exact ⟨h.accepting, h.notRequested, h.notAborted⟩
  | command hc hf => refine ⟨?_, ?_, ?_⟩ <;> exact fun hn => by cases hn
  | @control op rest hp hr =>
    have hbusy : (controlStep s.world s.control op).2.command ≠ none := fun hn => by
      rw [hb.idle ((control_command s.world s.control op).symm.trans hn)] at hp
      cases hp
    exact ⟨fun hn => absurd hn hbusy, fun hn => absurd hn hbusy, fun hn => absurd hn hbusy⟩
  | _ => exact ⟨h.accepting, h.notRequested, h.notAborted⟩

/-- The law holds in every run. -/
theorem freeLaw (h : Reachable x s) : FreeLaw s :=
  invariant_of_moves_using (I := FreeLaw) (fun _ => borrowLaw)
    ⟨fun _ => rfl, fun _ => rfl, fun _ => rfl⟩ (fun _ _ _ hb _ hi _ hm => hi.step hb hm) h

/-- No call stands for tickets that were not handed out. -/
def TargetLaw (s : State L) : Prop := ∀ c ∈ s.flushes, c.target ≤ s.world.nextTicket

/-- The law is kept by every step. -/
theorem TargetLaw.step (h : TargetLaw s) (hm : Move x s a s') : TargetLaw s' := by
  cases hm with
  | producer hi hm =>
    intro c hc
    have hle := h c hc
    dsimp only
    rcases producer_ticket hm with ⟨-, -, hn, -⟩ | ⟨-, -, -, hn, -⟩ | ⟨-, -, -, hn, -⟩ <;> omega
  | worker hab hm => exact fun c hc => (h c hc).trans_eq (worker_frame hm).nextTicket.symm
  | beginFlush hc =>
    intro c hcm
    rcases List.mem_append.mp hcm with hcm | hcm
    · exact h c hcm
    · rw [List.mem_singleton.mp hcm]
  | flush hj hm =>
    rw [(flush_world hm).1]
    refine forall_mem_set h ?_
    rw [(flush_call hm).1]
    exact h _ (List.mem_of_getElem? hj)
  | expireFlush hj hpc =>
    have hle := h _ (List.mem_of_getElem? hj)
    exact forall_mem_set h hle
  | @control op rest hp hr =>
    exact fun c hc =>
      (h c hc).trans_eq (controlStep_frame s.world s.control op).nextTicket.symm
  | _ => exact h

/-- The law holds in every run. -/
theorem targetLaw (h : Reachable x s) : TargetLaw s :=
  invariant_of_moves (I := TargetLaw) (fun _ hc => absurd hc (by simp [State.init]))
    (fun _ _ _ hi _ hm => hi.step hm) h

/-- Whatever a call reports, it succeeded, timed out or met a failure. -/
def ReportLaw (s : State L) : Prop :=
  ∀ c ∈ s.flushes, ∀ report, c.pc = .done report → report.status = .flushed ∨
    report.status = .timedOut ∨ report.status = .terminalFailure ∧ hasFailed s.worker.pc = true

/-- A worker that has failed does not recover. -/
theorem failed_lasts (hm : Move x s a s') (h : hasFailed s.worker.pc = true) :
    hasFailed s'.worker.pc = true := by
  cases hm with
  | worker hab hm =>
    by_contra hn
    exact absurd (h.symm.trans (hasFailed_move hm (Bool.eq_false_of_not_eq_true hn))) (by simp)
  | _ => exact h

/-- Beside a call that has not returned, the status is where the worker stands. -/
theorem status_beside (h : Reachable x s) {c : FlushCall} (hc : c ∈ s.flushes)
    (hr : c.returned = false) : s.world.metrics.status = statusOf s.worker.pc :=
  (readingLaw h ((freeLaw h).accepting ((borrowLaw h).alone c hc hr))).2

/-- A call that has not returned reads a failure only behind one, and never a stop. -/
theorem final_beside (h : Reachable x s) {c : FlushCall} (hc : c ∈ s.flushes)
    (hr : c.returned = false) :
    (s.world.metrics.status = .terminalFailure → hasFailed s.worker.pc = true) ∧
      s.world.metrics.status ≠ .stopped := by
  rw [status_beside h hc hr]
  unfold statusOf
  split
  · exact ⟨fun _ => ‹_›, by simp⟩
  · split <;> simp

/-- The report law is kept by every step. -/
theorem ReportLaw.step (h : ReportLaw s) (hr : Reachable x s) (hm : Move x s a s') :
    ReportLaw s' := by
  have hkeep : ∀ c ∈ s.flushes, ∀ report, c.pc = .done report → report.status = .flushed ∨
      report.status = .timedOut ∨
        report.status = .terminalFailure ∧ hasFailed s'.worker.pc = true :=
    fun c hc report hpc => (h c hc report hpc).imp id fun hs =>
      hs.imp id fun hf => ⟨hf.1, failed_lasts hm hf.2⟩
  cases hm with
  | beginFlush hn =>
    intro c hc
    rcases List.mem_append.mp hc with hc | hc
    · exact hkeep c hc
    · rw [List.mem_singleton.mp hc]
      exact fun report hpc => by cases hpc
  | @flush j c c' w' hj hm =>
    have hfinal := final_beside hr (List.mem_of_getElem? hj)
    refine forall_mem_set hkeep fun report hpc => ?_
    cases hm with
    | flushed ht hpc' =>
      cases hpc
      exact .inl rfl
    | failed hs hpc' =>
      cases hpc
      exact .inr (.inr ⟨rfl, (hfinal (by simp only [FlushCall.returned, hpc'])).1 hs⟩)
    | stopped hs hpc' => exact absurd hs (hfinal (by simp only [FlushCall.returned, hpc'])).2
    | _ => cases hpc
  | expireFlush hj hpc' =>
    refine forall_mem_set hkeep fun report hpc => ?_
    cases hpc
    exact .inr (.inl rfl)
  | _ => exact hkeep

/-- The report law holds in every run. -/
theorem reportLaw (h : Reachable x s) : ReportLaw s :=
  h.invariant_using (I := ReportLaw) (J := fun t => Reachable x t) (fun _ ht => ht)
    (fun _ hc => absurd hc (by simp [State.init]))
    (fun _ _ _ ht _ hi _ hs => hi.step ht (stepMove hs))

/-- A flush call never reports that the exporter was stopped, though it looks
for that: no command runs beside it. It reports a terminal failure only where
the worker has met one. -/
theorem flush_never_stopped (h : Reachable x s) {c : FlushCall} (hc : c ∈ s.flushes)
    {report : FlushReport} (hpc : c.pc = .done report) :
    report.status ≠ .stopped ∧
      (report.status = .terminalFailure → hasFailed s.worker.pc = true) := by
  rcases reportLaw h c hc report hpc with hs | hs | ⟨hs, hf⟩
  · simp [hs]
  · simp [hs]
  · simp [hs, hf]

/-- A call that begins behind a terminal failure reports it. -/
def failedRun : List (Action ℕ) :=
  .spawn :: submitAlone 0 3 ++ workerSteps 24 .fatal ++ .beginFlush :: List.replicate 4 (.flush 0)

/-- Whether the only call has returned. -/
def returnedAlone (s : State ℕ) : Bool :=
  match s.flushes with
  | [⟨.done ⟨.terminalFailure, 1, 0⟩, 1, [1]⟩] => true
  | _ => false

/-- There the worker has met it. -/
theorem flush_never_stopped_failed : ∃ s : State ℕ, Reachable sample s ∧
    hasFailed s.worker.pc = true := by
  obtain ⟨s, hs, hp⟩ := exists_reach (step sample) (State.init ℕ) failedRun returnedAlone
    (by decide +kernel)
  unfold returnedAlone at hp
  split at hp
  · rename_i hf
    have hc : (⟨.done ⟨.terminalFailure, 1, 0⟩, 1, [1]⟩ : FlushCall) ∈ s.flushes := by
      rw [hf]
      exact List.mem_singleton.mpr rfl
    exact ⟨s, hs, (flush_never_stopped hs hc rfl).2 rfl⟩
  · cases hp

/-! ## Behind the point of rest -/

/-- In a run up to a worker that has not failed no fatal answer came. -/
theorem heard_of_alive (h : Reachable x s) (hlive : hasFailed s.worker.pc = false) :
    ReachWhile (step x) failureHeard (State.init L) s := by
  induction h with
  | refl => exact ReachWhile.refl
  | @tail t u ht hs ih =>
    obtain ⟨a, -, hs⟩ := hs
    have hm := stepMove hs
    have halive : hasFailed t.worker.pc = false := Bool.eq_false_of_not_eq_true fun hf =>
      absurd (hlive.symm.trans (failed_lasts hm hf)) (by simp)
    refine (ih halive).next (fun o e ha hpc hr => ?_) hs
    subst ha
    simp only [step] at hs
    split at hs
    · cases hs
    · simp only [workerStep, hpc, hr, answer, Option.map_some, Option.some.injEq] at hs
      rw [← hs] at hlive
      cases hlive

/-- The steps of a call whose target is completed. -/
def flushLeft : FlushPc → ℕ
  | .notify => 3
  | .enable => 2
  | .loadCompleted _ => 1
  | .loadStatus _ _ => 4
  | .parked _ => 3
  | .done _ => 0

/-- Each of its steps is one of them. -/
theorem flushLeft_move {w w' : World L} {c c' : FlushCall} (hm : FlushMove w c w' c')
    (ht : c.target ≤ w.completedTicket) : flushLeft c'.pc < flushLeft c.pc := by
  cases hm with
  | behind hlt hpc => omega
  | _ =>
    rename_i hpc
    rw [hpc]
    simp [flushLeft]

/-- Other steps leave a call alone, or let it time out. -/
theorem flush_kept {j : ℕ} {c : FlushCall} (hj : s.flushes[j]? = some c) (hm : Move x s a s')
    (ha : a ≠ .flush j) : s'.flushes[j]? = some c ∨
      ∃ report, s'.flushes[j]? = some { c with pc := .done report } := by
  cases hm with
  | beginFlush hc =>
    exact .inl (List.getElem?_append_left (List.getElem?_eq_some_iff.mp hj).1 ▸ hj)
  | @flush i d d' w' hi hm =>
    refine .inl ?_
    rw [List.getElem?_set_ne, hj]
    rintro rfl
    exact ha rfl
  | @expireFlush i d e hi hpc =>
    by_cases hij : i = j
    · subst hij
      obtain rfl := Option.some.inj (hj.symm.trans hi)
      exact .inr ⟨_, List.getElem?_set_self (List.getElem?_eq_some_iff.mp hj).1⟩
    · exact .inl ((List.getElem?_set_ne hij).trans hj)
  | _ => exact .inl hj

/-- The call has returned, or the worker has failed. -/
def Settled (j : ℕ) (s : State L) : Prop :=
  hasFailed s.worker.pc = true ∨ ∃ c ∈ s.flushes[j]?, c.returned = true

/-- Behind the point of rest, a call that has not returned finds its target
completed, and a worker that sleeps. -/
theorem reached_of_rest (h : Reachable x s) (hdue : ¬ Due s) (hquiet : ∀ i, ¬ Feeding s i)
    {j : ℕ} {c : FlushCall} (hj : s.flushes[j]? = some c) (hopen : ¬ Settled j s) :
    asleep s.world s.worker = true ∧ c.target ≤ s.world.completedTicket := by
  have hlive : hasFailed s.worker.pc = false :=
    Bool.eq_false_of_not_eq_true fun hf => hopen (.inl hf)
  have hret : c.returned = false := Bool.eq_false_of_not_eq_true fun hr => hopen (.inr ⟨c, hj, hr⟩)
  have hfree := (borrowLaw h).alone c (List.mem_of_getElem? hj) hret
  have hplace := (readingLaw h ((freeLaw h).accepting hfree)).1
  have hfin : s.worker.pc.isFinished = false := by
    unfold WorkerPc.isFinished
    split
    · rename_i hpc
      rw [hpc] at hplace
      cases hplace
    · rfl
  have hsleep := asleep_of_not_due hdue ((freeLaw h).notAborted hfree) hfin
  have hcompleted := completed_of_asleep h hsleep hlive hquiet
  have htracker := trackerLaw h
  refine ⟨hsleep, (targetLaw h c (List.mem_of_getElem? hj)).trans ?_⟩
  rw [htracker.published]
  by_contra hlt
  refine htracker.exact.next_missing (hcompleted.mem_iff.mpr ?_)
  rw [List.mem_range'_1]
  omega

/-- Its next step is enabled: if it is parked, it has been woken. -/
theorem flush_enabled (h : Reachable x s) (hsleep : asleep s.world s.worker = true)
    (hlive : hasFailed s.worker.pc = false) {j : ℕ} {c : FlushCall} (hj : s.flushes[j]? = some c)
    (hr : c.returned = false) (ht : c.target ≤ s.world.completedTicket) :
    (step x s (.flush j)).isSome = true := by
  simp only [step, hj, Option.bind_some, Option.isSome_map]
  cases hpc : c.pc with
  | notify | enable => simp [flushStep, hpc]
  | loadCompleted e => simp [flushStep, hpc, ht]
  | loadStatus e n =>
    simp only [flushStep, hpc]
    split
    · rfl
    · split <;> rfl
  | parked e =>
    have hwait := waitLaw (heard_of_alive h hlive) c (List.mem_of_getElem? hj)
    unfold WaitLaw at hwait
    rw [hpc] at hwait
    obtain ⟨wait, hparked, -⟩ := wait_of_asleep hsleep hlive
    have hwoken := (hwait.2 (.inl ht)).resolve_right (by rw [hparked]; simp [owesWake])
    simp [flushStep, hpc, hwoken]
  | done report => simp [FlushCall.returned, hpc] at hr

/-- Flush calls are never forgotten. -/
theorem flushes_length (hm : Move x s a s') : s.flushes.length ≤ s'.flushes.length := by
  cases hm with
  | beginFlush hc => simp
  | flush hj hm => simp
  | expireFlush hj hpc => simp
  | _ => exact Nat.le_refl _

/-- Behind the point of rest the call returns, or the worker has failed. -/
theorem settles_call {state : ℕ → State L} {label : ℕ → Action L} (h : Reachable x (state 0))
    (hrun : Endless (step x) state label) {n j : ℕ}
    (hrest : ∀ m, n ≤ m → ¬ Due (state m) ∧ ∀ i, ¬ Feeding (state m) i)
    (hj : j < (state 0).flushes.length)
    (hfair : WeaklyFair (step x) state label fun a => a = .flush j) : ∃ m, Settled j (state m) := by
  have hreach : ∀ m, Reachable x (state m) := fun m => h.trans (hrun.reach m)
  have hmove : ∀ m, Move x (state m) (label m) (state (m + 1)) := fun m => stepMove (hrun.next m)
  have hcall : ∀ m, ∃ c, (state m).flushes[j]? = some c := fun m => by
    suffices hlt : j < (state m).flushes.length from ⟨_, List.getElem?_eq_getElem hlt⟩
    induction m with
    | zero => exact hj
    | succ m ih => exact ih.trans_le (flushes_length (hmove m))
  have hready : ∀ m, n ≤ m → ¬ Settled j (state m) → ∀ c, (state m).flushes[j]? = some c →
      asleep (state m).world (state m).worker = true ∧ c.target ≤ (state m).world.completedTicket :=
    fun m hm hopen c hc => reached_of_rest (hreach m) (hrest m hm).1 (hrest m hm).2 hc hopen
  have hends : ∃ m, n ≤ m ∧ Settled j (state m) := by
    refine eventually_of_rank (fun s => (s.flushes[j]?).elim 0 fun c => flushLeft c.pc)
      (Settled j) (fun m hm hopen => ?_) (fun m hm hopen _ hl => ?_)
      (fun m hm hopen hnext hl => ?_) hfair
    all_goals obtain ⟨c, hc⟩ := hcall m
    · obtain ⟨hsleep, htarget⟩ := hready m hm hopen c hc
      refine ⟨_, rfl, flush_enabled (hreach m) hsleep ?_ hc ?_ htarget⟩
      · exact Bool.eq_false_of_not_eq_true fun hf => hopen (.inl hf)
      · exact Bool.eq_false_of_not_eq_true fun hr => hopen (.inr ⟨c, hc, hr⟩)
    · have hm' := hmove m
      rw [hl] at hm'
      generalize state (m + 1) = t at hm'
      cases hm' with
      | @flush _ d d' w' hd hstep =>
        obtain rfl := Option.some.inj (hc.symm.trans hd)
        have hlt := flushLeft_move hstep (hready m hm hopen c hc).2
        rw [hc, List.getElem?_set_self (List.getElem?_eq_some_iff.mp hd).1]
        exact hlt
    · rcases flush_kept hc (hmove m) hl with hkept | ⟨report, hdone⟩
      · rw [hkept, hc]
      · exact absurd (.inr ⟨_, hdone, rfl⟩) hnext
  obtain ⟨m, -, hsettled⟩ := hends
  exact ⟨m, hsettled⟩

/-- Flush calls return. In an infinite run that is fair to the worker, to the
threads and to a flush call, and in which only so many pushes, notifications,
retries and unprompted polls happen, the call returns with success or on its
own deadline, unless the worker meets a terminal failure. Left out are runs in
which the worker panics at the deadline of a batch. -/
theorem flush_returns (hv : x.config.validate = .ok ()) {state : ℕ → State L}
    {label : ℕ → Action L} (h : Reachable x (state 0)) (hrun : FairRun x state label)
    {lanes credit : ℕ} (hb : Bounded lanes credit state label) {j : ℕ}
    (hj : j < (state 0).flushes.length)
    (hfair : WeaklyFair (step x) state label fun a => a = .flush j) :
    ∃ n, hasFailed (state n).worker.pc = true ∨ ∃ c report, (state n).flushes[j]? = some c ∧
      c.pc = .done report ∧ (report.status = .flushed ∨ report.status = .timedOut) := by
  obtain ⟨n, hrest⟩ := settles hv h hrun hb
  obtain ⟨m, hsettled⟩ := settles_call h hrun.run hrest hj hfair
  refine ⟨m, ?_⟩
  by_cases hfail : hasFailed (state m).worker.pc = true
  · exact .inl hfail
  · obtain ⟨c, hc, hr⟩ := hsettled.resolve_left hfail
    cases hpc : c.pc with
    | done report =>
      have hreach := h.trans (hrun.run.reach m)
      have hlaw := reportLaw hreach c (List.mem_of_getElem? hc) report hpc
      exact .inr ⟨c, report, hc, hpc, hlaw.imp id fun hs => hs.resolve_right fun hf => hfail hf.2⟩
    | _ => simp [FlushCall.returned, hpc] at hr

/-- One thread has submitted a record, and a flush call begins. -/
def flushBegun : State ℕ :=
  (replay (step sample) noCheck (State.init ℕ) (.spawn :: submitAlone 0 3 ++ [.beginFlush])).getD
    (State.init ℕ)

/-- It is reachable. -/
theorem reachable_flushBegun : Reachable sample flushBegun := reach_getD (by decide +kernel)

/-- The call parks, the worker exports the record and sleeps, the call returns. -/
def flushScript : List (Action ℕ) :=
  List.replicate 4 (.flush 0) ++ workerSteps 42 (.ok 1 0) ++ List.replicate 3 (.flush 0)

/-- Only the call and the worker move. -/
theorem flushScript_cases {a : Action ℕ} (ha : a ∈ flushScript) :
    (∃ o, a = .worker o) ∨ (∃ j, a = .flush j) := by
  rcases List.mem_append.mp ha with ha | ha
  · rcases List.mem_append.mp ha with ha | ha
    · exact .inr ⟨_, List.eq_of_mem_replicate ha⟩
    · exact .inl ⟨_, List.eq_of_mem_replicate ha⟩
  · exact .inr ⟨_, List.eq_of_mem_replicate ha⟩

/-- Behind the script the call is owed no step. -/
theorem flush_served (n : ℕ) :
    (step sample (scripted flushBegun flushScript (flushScript.length + n)) (.flush 0)).isSome =
      false := by
  obtain ⟨hworld, -, hflushes⟩ :=
    scripted_behind flushBegun flushScript flushScript.length (Nat.le_refl _) n
  have hdone : (step sample (scripted flushBegun flushScript flushScript.length)
      (.flush 0)).isSome = false := by
    decide +kernel
  simp only [step, Option.isSome_bind, Option.isSome_map] at hdone ⊢
  rw [hworld, hflushes]
  exact hdone

/-- In that run the call returns. -/
theorem flush_returns_parked : ∃ n,
    hasFailed (scripted flushBegun flushScript n).worker.pc = true ∨
      ∃ c report, (scripted flushBegun flushScript n).flushes[0]? = some c ∧
        c.pc = .done report ∧ (report.status = .flushed ∨ report.status = .timedOut) := by
  refine flush_returns (x := sample) (by decide +kernel) reachable_flushBegun
    (fair_scripted (endless_scripted (by decide +kernel)) (by decide +kernel)
      (fun _ => flushScript_cases) (by decide +kernel))
    (bounded_scripted 1 (by decide +kernel)) (by decide +kernel) fun n hcan => ?_
  obtain ⟨_, rfl, hs⟩ := hcan (flushScript.length + n) (Nat.le_add_left ..)
  exact absurd (hs.symm.trans (flush_served n)) (by simp)

end EdenLogger.FlushReturns
