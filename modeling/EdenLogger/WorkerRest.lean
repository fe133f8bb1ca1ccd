import EdenLogger.GracefulDrain
import EdenLogger.ShutdownProgress

/-!
# The worker comes to rest

A worker that sleeps with nothing pending stays asleep until somebody wakes it.
Once pushes, notifications and retries have come to an end, a fair runtime takes
it to such a sleep, to its return, or to its cancellation. A worker that sleeps
without having failed has completed everything that was accepted.
-/

namespace EdenLogger.WorkerRest

open WakeUpPermit ExporterConfig ExporterLanes GenerationState GenerationStep GenerationMoves
open LaneTable LaneOwnership RecordFlow ReceiveSites ProducerWakeUps FlushSoundness
open GracefulDrain WorkerEffort ShutdownProgress RunRules RunCosts

variable {L : Type} {x : Exporter L} {s s' : State L} {a : Action L}

/-- The worker sleeps, nothing it listens to is pending, and it has no deadline. -/
def asleep (w : World L) (k : Worker L) : Bool :=
  match k.pc with
  | .parked (.assembly _) => false
  | .parked wait => !wait.cells.any (pendingAt w)
  | _ => false

/-- The runtime owes the worker a step: an answer, a deadline or a notification
is on its way, or it does not wait at all. -/
def Due (s : State L) : Prop :=
  s.aborted = false ∧ s.worker.pc.isFinished = false ∧ asleep s.world s.worker = false

/-- What wakes the worker keeps it awake. -/
theorem awake_of_pending {w w' : World L} {k : Worker L}
    (hkept : ∀ c, pendingAt w c = true → pendingAt w' c = true) (h : asleep w k = false) :
    asleep w' k = false := by
  unfold asleep at h ⊢
  split at h
  · rfl
  · rw [Bool.not_eq_false', List.any_eq_true] at h ⊢
    obtain ⟨c, hc, hp⟩ := h
    exact ⟨c, hc, hkept c hp⟩
  · rfl

/-- A worker that is due stays so until it moves, or is cancelled. -/
theorem due_lasts (hd : Due s) (hm : Move x s a s') (ha : ∀ o, a ≠ .worker o) :
    Due s' ∨ s'.aborted = true := by
  have hkept : ∀ c, pendingAt s.world c = true → pendingAt s'.world c = true :=
    fun c hc => pending_kept hm ha hc
  have hsame : s'.worker = s.worker := by
    cases hm with
    | worker hab hm => exact absurd rfl (ha _)
    | _ => rfl
  have haborted : s'.aborted = s.aborted ∨ s'.aborted = true := by
    cases hm with
    | cancelWorker => exact .inr rfl
    | _ => exact .inl rfl
  rcases haborted with h | h
  · refine .inl ⟨h.trans hd.1, ?_, ?_⟩ <;> rw [hsame]
    · exact hd.2.1
    · exact awake_of_pending hkept hd.2.2
  · exact .inr h

/-- A cancelled worker stays so. -/
theorem aborted_lasts (h : s.aborted = true) (hm : Move x s a s') : s'.aborted = true := by
  cases hm with
  | cancelWorker => rfl
  | _ => exact h

/-- Where a worker sleeps that has not failed, it holds nothing. -/
theorem wait_of_asleep {w : World L} {k : Worker L} (hsleep : asleep w k = true)
    (hlive : hasFailed k.pc = false) : ∃ wait, k.pc = .parked wait ∧ isLive wait = true ∧
      (waitHolding wait : Holding L) = {} ∧ pendingAt w .records = false := by
  unfold asleep at hsleep
  split at hsleep
  · cases hsleep
  · rename_i wait hbatch hpc
    rw [hpc] at hlive
    rw [Bool.not_eq_true', List.any_eq_false] at hsleep
    refine ⟨wait, hpc, by simpa [hasFailed] using hlive, ?_⟩
    cases wait with
    | assembly a => exact absurd rfl (hbatch a)
    | receive | producersClosed =>
      exact ⟨rfl, Bool.eq_false_of_not_eq_true (hsleep .records (by simp [Wait.cells]))⟩
    | terminalShutdown | terminalRecords => cases hlive
  · cases hsleep

/-- A thread is about to push a record or to notify the worker. -/
def Feeding (s : State L) (i : ℕ) : Prop :=
  ∃ p, s.threads[i]? = some p ∧ ProducerPc.feeds p.pc = true

/-- A thread that feeds the worker does so until it moves. -/
theorem Feeding.lasts {i : ℕ} (h : Feeding s i) (hm : Move x s a s') (ha : a ≠ .producer i) :
    Feeding s' i := by
  obtain ⟨p, hi, hf⟩ := h
  have hother : ∀ {j : ℕ} {q q' : Producer L}, s.threads[j]? = some q → q.pc = .idle →
      (s.threads.set j q')[i]? = some p := fun {j q q'} hj hq => by
    rw [List.getElem?_set_ne, hi]
    rintro rfl
    obtain rfl := Option.some.inj (hi.symm.trans hj)
    rw [hq] at hf
    cases hf
  cases hm with
  | spawn => exact ⟨p, List.getElem?_append_left (List.getElem?_eq_some_iff.mp hi).1 ▸ hi, hf⟩
  | enter hj hpc => exact ⟨p, hother hj hpc, hf⟩
  | exit hj hpc => exact ⟨p, hother hj hpc, hf⟩
  | producer hj hm =>
    refine ⟨p, ?_, hf⟩
    rw [List.getElem?_set_ne, hi]
    rintro rfl
    exact ha rfl
  | _ => exact ⟨p, hi, hf⟩

/-- It can move. -/
theorem Feeding.enabled {i : ℕ} (h : Reachable x s) (hf : Feeding s i) :
    (step x s (.producer i)).isSome = true := by
  obtain ⟨p, hi, hf⟩ := hf
  cases hpc : p.pc with
  | push r q ticket =>
    exact producer_enabled h hi (by rw [hpc]; rfl) fun _ _ ht => by cases hpc.symm.trans ht
  | notify =>
    exact producer_enabled h hi (by rw [hpc]; rfl) fun _ _ ht => by cases hpc.symm.trans ht
  | closed => simp [step, producerStep, hi, hpc]
  | _ =>
    rw [hpc] at hf
    cases hf

/-- Its step is credited. -/
theorem Feeding.credited {i : ℕ} (hf : Feeding s i) (lanes : ℕ) :
    0 < workCredit lanes s (.producer i) := by
  obtain ⟨p, hi, hf⟩ := hf
  simp [workCredit, feeds, hi, hf, queuedEffort]

/-- Where no thread is about to push, no thread holds a ticket. -/
theorem taken_of_quiet (h : ∀ i, ¬ Feeding s i) : taken s.threads = [] := by
  refine List.flatMap_eq_nil_iff.mpr fun p hp => ?_
  obtain ⟨i, hi⟩ := List.mem_iff_getElem?.mp hp
  unfold ticketOf
  split
  · rename_i hpc
    exact absurd ⟨p, hi, by rw [hpc]; rfl⟩ (h i)
  · rfl

/-- A worker that sleeps without having failed has nothing left, if no thread
is about to push or to notify: every accepted record is completed once. -/
theorem completed_of_asleep (h : Reachable x s) (hsleep : asleep s.world s.worker = true)
    (hlive : hasFailed s.worker.pc = false) (hquiet : ∀ i, ¬ Feeding s i) :
    s.world.history.completed.Perm (List.range' 1 s.world.nextTicket) := by
  obtain ⟨wait, hpc, hwait, hheld, hnone⟩ := wait_of_asleep hsleep hlive
  have hc := conserved h
  have hk := siteLaw h
  have hpe : s.worker.pending = [] := hk.pending (by rw [hpc]; exact hwait)
  have hin : s.worker.input.records = [] := hk.inbox (by rw [hpc]; exact hwait)
  have hlanes : laneRecords s.world.lanes = [] := by
    refine laneRecords_of_registry hc.lanes fun j hj => laneEmpty_iff.mpr fun hholds => ?_
    rcases wakeLaw h hlive j hj hholds with hp | ⟨p, hp, hn⟩ | hdrain
    · exact absurd (hnone.symm.trans hp) (by simp)
    · obtain ⟨i, hi⟩ := List.mem_iff_getElem?.mp hp
      exact hquiet i ⟨p, hi, by rw [hn]; rfl⟩
    · rw [hpc] at hdrain
      exact hdrain
  have hdiscarded : s.world.history.discarded = [] := by
    refine (discardLaw h).resolve_right fun hcl => ?_
    rw [hpc] at hcl
    cases hcl
  have hparked : held s.worker.pc = {} := by
    rw [hpc]
    exact hheld
  have hqueued : queued s.world s.worker = [] := by
    simp only [queued, hlanes, hparked, detachedRecords, hin, List.flatMap_nil, List.append_nil]
  have hholding : holdingTickets s.worker = [] := by
    simp only [holdingTickets, hparked, hpe, List.map_nil, List.append_nil]
  simpa only [located, taken_of_quiet hquiet, hqueued, hdiscarded, hholding, List.map_nil,
    List.nil_append] using hc.located_perm

/-! ## Runs -/

/-- An infinite run in which the worker and the threads get the steps that they
are owed. -/
structure FairRun (x : Exporter L) (state : ℕ → State L) (label : ℕ → Action L) : Prop where
  run : Endless (step x) state label
  worker : Fair state label Due isWorkerStep
  thread : ∀ i, WeaklyFair (step x) state label fun a => a = .producer i

/-- Only so many lanes are registered, and only so many pushes, notifications,
retries and unprompted polls happen. -/
structure Bounded (lanes credit : ℕ) (state : ℕ → State L) (label : ℕ → Action L) : Prop where
  lanes_le : ∀ n, (state n).world.lanes.length ≤ lanes
  credit_le : ∀ n, (accountOf workerCost (workCredit lanes) state label n).credited ≤ credit

section runs

variable {state : ℕ → State L} {label : ℕ → Action L} {lanes credit : ℕ}

/-- In such a run no thread is about to push or to notify from some point on. -/
theorem never_feeding (h : Reachable x (state 0)) (hrun : FairRun x state label)
    (hb : Bounded lanes credit state label) : ∃ n, ∀ m, n ≤ m → ∀ i, ¬ Feeding (state m) i := by
  have hspent : ∀ n, (accountOf (workCredit lanes) workerCost state label n).spent ≤ credit :=
    fun n => (credited_eq_spent ..).symm.le.trans (hb.credit_le n)
  obtain ⟨n, hfree⟩ := exists_free workerCost hspent
  refine ⟨n, fun m hm i hfeeding => ?_⟩
  have hquiet : ∀ k, n ≤ k → Feeding (state k) i → ¬ label k = .producer i :=
    fun k hk hf hl => by
      have hcredited := hf.credited lanes
      rw [← hl, hfree k hk] at hcredited
      exact absurd hcredited (Nat.lt_irrefl 0)
  have hfair : Fair state label (fun s => Feeding s i) fun a => a = .producer i :=
    (hrun.thread i).fair fun k hf => ⟨_, rfl, hf.enabled (h.trans (hrun.run.reach k))⟩
  obtain ⟨_, _, hstopped⟩ := stops_of_due (fun _ => False) hquiet
    (fun k _ hf hl => .inl (hf.lasts (stepMove (hrun.run.next k)) hl)) hfair hm hfeeding
  exact hstopped

/-- In such a run the worker is not due from some point on. -/
theorem never_due (hv : x.config.validate = .ok ()) (h : Reachable x (state 0))
    (hrun : FairRun x state label) (hb : Bounded lanes credit state label) :
    ∃ n, ∀ m, n ≤ m → ¬ Due (state m) := by
  have hbound : ∀ n, (accountOf workerCost (workCredit lanes) state label n).spent ≤
      effort lanes (state 0).world (state 0).worker + credit := fun n => by
    have hpaid := effort_run hv h (hb.lanes_le n) (hrun.run.booked n)
    have hcredit := hb.credit_le n
    omega
  have hlasts : ∀ n, Due (state n) → ¬ isWorkerStep (label n) →
      Due (state (n + 1)) ∨ (state (n + 1)).aborted = true := fun n hd hw => by
    refine due_lasts hd (stepMove (hrun.run.next n)) fun o hl => hw ?_
    rw [hl]
    trivial
  have hstopped : ∀ n, (state n).aborted = true →
      ¬ Due (state n) ∧ (state (n + 1)).aborted = true := fun n hs =>
    ⟨fun hd => absurd (hs.symm.trans hd.1) (by simp),
      aborted_lasts hs (stepMove (hrun.run.next n))⟩
  refine eventually_at_rest (fun s => s.aborted = true) hbound (fun n hw => ?_) hlasts hstopped
    hrun.worker
  cases hl : label n with
  | worker o => exact Nat.one_pos
  | _ =>
    rw [hl] at hw
    exact hw.elim

/-- In such a run there is a point behind which nobody has anything left to do
for the worker. -/
theorem settles (hv : x.config.validate = .ok ()) (h : Reachable x (state 0))
    (hrun : FairRun x state label) (hb : Bounded lanes credit state label) :
    ∃ n, ∀ m, n ≤ m → ¬ Due (state m) ∧ ∀ i, ¬ Feeding (state m) i := by
  obtain ⟨n, hdue⟩ := never_due hv h hrun hb
  obtain ⟨n', hquiet⟩ := never_feeding h hrun hb
  exact ⟨max n n', fun m hm => ⟨hdue m (by omega), hquiet m (by omega)⟩⟩

end runs

/-- A worker that is not due sleeps, unless it was cancelled or has returned. -/
theorem asleep_of_not_due (hd : ¬ Due s) (hab : s.aborted = false)
    (hfin : s.worker.pc.isFinished = false) : asleep s.world s.worker = true := by
  by_contra hawake
  exact hd ⟨hab, hfin, Bool.eq_false_of_not_eq_true hawake⟩

/-- The worker comes to rest, with everything completed. In such a run there is
a point behind which the worker sleeps and every accepted record is completed
once, unless it was cancelled, has returned or has failed. Left out are runs in
which the worker panics at the deadline of a batch. -/
theorem comes_to_rest (hv : x.config.validate = .ok ()) {state : ℕ → State L}
    {label : ℕ → Action L} (h : Reachable x (state 0)) (hrun : FairRun x state label)
    {lanes credit : ℕ} (hb : Bounded lanes credit state label) :
    ∃ n, ∀ m, n ≤ m → (state m).aborted = true ∨ (state m).worker.pc.isFinished = true ∨
      hasFailed (state m).worker.pc = true ∨
        asleep (state m).world (state m).worker = true ∧
          (state m).world.history.completed.Perm (List.range' 1 (state m).world.nextTicket) := by
  obtain ⟨n, hrest⟩ := settles hv h hrun hb
  refine ⟨n, fun m hm => ?_⟩
  by_cases hab : (state m).aborted = true
  · exact .inl hab
  by_cases hfin : (state m).worker.pc.isFinished = true
  · exact .inr (.inl hfin)
  by_cases hfail : hasFailed (state m).worker.pc = true
  · exact .inr (.inr (.inl hfail))
  have hsleep := asleep_of_not_due (hrest m hm).1 (Bool.eq_false_of_not_eq_true hab)
    (Bool.eq_false_of_not_eq_true hfin)
  exact .inr (.inr (.inr ⟨hsleep, completed_of_asleep (h.trans (hrun.run.reach m)) hsleep
    (Bool.eq_false_of_not_eq_true hfail) (hrest m hm).2⟩))

/-- One thread has submitted a record. -/
def oneQueued : State ℕ :=
  (replay (step sample) noCheck (State.init ℕ) (.spawn :: submitAlone 0 3)).getD (State.init ℕ)

/-- It is reachable. -/
theorem reachable_oneQueued : Reachable sample oneQueued := reach_getD (by decide +kernel)

/-- The worker's steps up to its sleep. -/
def exportSteps : List (Action ℕ) := workerSteps 41 (.ok 1 0)

/-- Whether a thread idles. -/
def isIdle (p : Producer ℕ) : Bool :=
  match p.pc with
  | .idle => true
  | _ => false

/-- An idle thread is owed no step. -/
theorem not_enabled_of_idle {s : State ℕ} (h : ∀ p ∈ s.threads, isIdle p = true) (i : ℕ) :
    (step sample s (.producer i)).isSome = false := by
  cases hi : s.threads[i]? with
  | none => simp [step, hi]
  | some p =>
    have hp := h p (List.mem_of_getElem? hi)
    unfold isIdle at hp
    split at hp
    · rename_i hpc
      simp [step, hi, producerStep, hpc]
    · cases hp

/-- A script of steps that are not a thread's leaves idle threads idle. -/
theorem idle_scripted {s : State ℕ} {script : List (Action ℕ)}
    (hrun : Endless (step sample) (scripted s script) (thenThreads script))
    (hidle : ∀ p ∈ s.threads, isIdle p = true)
    (hscript : ∀ a ∈ script, (∃ o, a = .worker o) ∨ (∃ j, a = .flush j)) (n : ℕ) :
    ∀ p ∈ (scripted s script n).threads, isIdle p = true := by
  induction n with
  | zero => exact hidle
  | succ n ih =>
    have hm := stepMove (hrun.next n)
    have hlabel : (∃ o, thenThreads script n = .worker o) ∨ (∃ j, thenThreads script n = .flush j) ∨
        thenThreads script n = .spawn :=
      (thenThreads_cases script n).elim (fun h => (hscript _ h).imp id .inl) fun h => .inr (.inr h)
    rcases hlabel with ⟨o, hl⟩ | ⟨j, hl⟩ | hl <;> rw [hl] at hm
    · generalize scripted s script (n + 1) = t at hm
      cases hm
      exact ih
    · generalize scripted s script (n + 1) = t at hm
      cases hm
      exact ih
    · generalize scripted s script (n + 1) = t at hm
      cases hm
      intro p hp
      rcases List.mem_append.mp hp with hp | hp
      · exact ih p hp
      · rw [List.mem_singleton.mp hp]
        rfl

/-- A script is fair if the worker sleeps behind it and the threads idle. -/
theorem fair_scripted {s : State ℕ} {script : List (Action ℕ)}
    (hrun : Endless (step sample) (scripted s script) (thenThreads script))
    (hidle : ∀ p ∈ s.threads, isIdle p = true)
    (hscript : ∀ a ∈ script, (∃ o, a = .worker o) ∨ (∃ j, a = .flush j))
    (hsleep : asleep (scripted s script script.length).world
      (scripted s script script.length).worker = true) :
    FairRun sample (scripted s script) (thenThreads script) where
  run := hrun
  worker n hdue := by
    have hd := (hdue (script.length + n) (Nat.le_add_left ..)).2.2
    obtain ⟨hworld, hworker, -⟩ := scripted_behind s script script.length (Nat.le_refl _) n
    rw [hworld, hworker, hsleep] at hd
    cases hd
  thread i n hcan := by
    obtain ⟨_, rfl, hs⟩ := hcan n (Nat.le_refl n)
    have hnone := not_enabled_of_idle (idle_scripted hrun hidle hscript n) i
    exact absurd (hs.symm.trans hnone) (by simp)

/-- A script is bounded by the lanes it registers and by what it is credited. -/
theorem bounded_scripted {s : State ℕ} {script : List (Action ℕ)} (lanes : ℕ)
    (hlanes : ∀ m ∈ List.range (script.length + 1),
      (scripted s script m).world.lanes.length ≤ lanes) :
    Bounded lanes
      (accountOf workerCost (workCredit lanes) (scripted s script) (thenThreads script)
        script.length).credited (scripted s script) (thenThreads script) where
  lanes_le n := by
    rcases Nat.le_total n script.length with hn | hn
    · exact hlanes n (List.mem_range.mpr (Nat.lt_succ_of_le hn))
    · obtain ⟨m, rfl⟩ := Nat.exists_eq_add_of_le hn
      rw [(scripted_behind s script script.length (Nat.le_refl _) m).1]
      exact hlanes _ (List.mem_range.mpr (Nat.lt_succ_self _))
  credit_le := credited_le workerCost fun m hm => by
    rw [thenThreads_behind hm]
    rfl

/-- In that run the record is exported, and the worker goes back to sleep. -/
theorem comes_to_rest_oneQueued : ∃ n, ∀ m, n ≤ m →
    (scripted oneQueued exportSteps m).aborted = true ∨
      (scripted oneQueued exportSteps m).worker.pc.isFinished = true ∨
      hasFailed (scripted oneQueued exportSteps m).worker.pc = true ∨
        asleep (scripted oneQueued exportSteps m).world
            (scripted oneQueued exportSteps m).worker = true ∧
          (scripted oneQueued exportSteps m).world.history.completed.Perm
            (List.range' 1 (scripted oneQueued exportSteps m).world.nextTicket) :=
  comes_to_rest (x := sample) (by decide +kernel) reachable_oneQueued
    (fair_scripted (endless_scripted (by decide +kernel)) (by decide +kernel)
      (fun _ ha => .inl ⟨_, List.eq_of_mem_replicate ha⟩) (by decide +kernel))
    (bounded_scripted 1 (by decide +kernel))

end EdenLogger.WorkerRest
