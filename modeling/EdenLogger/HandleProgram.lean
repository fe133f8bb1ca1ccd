import EdenLogger.FlushSoundness
import Mathlib.Data.List.Infix

/-!
# The handle's programs

A command runs down one of a few fixed programs, and a deadline replaces the
wait at its head by another one. What holds at a place of a command is read
off the remainders of these programs: the callback is replaced before the
worker is aborted, nothing is counted before that, and the gauges are reset
only once the worker is gone.
-/

namespace EdenLogger.HandleProgram

open ExporterLanes LogCollector GenerationState GenerationStep GenerationMoves GenerationFrames
open FlushSoundness RunRules

variable {L : Type} {x : Exporter L} {s s' : State L} {a : Action L}

/-! ## Calls and commands exclude each other -/

/-- A command finds every flush call returned, and none begins after it. -/
structure BorrowLaw (s : State L) : Prop where
  /-- No command runs beside a flush call. -/
  alone : ∀ c ∈ s.flushes, c.returned = false → s.control.command = none
  /-- Without a command there is nothing to do. -/
  idle : s.control.command = none → s.control.program = []

/-- A call that has not returned had not returned before its step. -/
theorem returned_of_move {w w' : World L} {c c' : FlushCall} (hm : FlushMove w c w' c')
    (h : c'.returned = false) : c.returned = false := by
  cases hm with
  | flushed ht hpc => cases h
  | failed hs hpc => cases h
  | stopped hs hpc => cases h
  | notify hpc | enable hpc | behind ht hpc | park hf hs hpc | woken hw hpc =>
    simp only [FlushCall.returned, hpc]

/-- The command's local state keeps the command. -/
theorem control_command (w : World L) (c : Control) (op : ControlOp) :
    (controlStep w c op).2.command = c.command := by
  cases op <;> rfl

/-- The borrow law is kept by every step. -/
theorem BorrowLaw.step (h : BorrowLaw s) (hm : Move x s a s') : BorrowLaw s' := by
  cases hm with
  | beginFlush hc =>
    refine ⟨fun c hcm hr => ?_, h.idle⟩
    rcases List.mem_append.mp hcm with hcm | hcm
    · exact h.alone c hcm hr
    · exact hc
  | @flush j c c' w' hj hm =>
    refine ⟨fun d hd hr => ?_, h.idle⟩
    rcases List.mem_or_eq_of_mem_set hd with hd | rfl
    · exact h.alone d hd hr
    · exact h.alone c (List.mem_of_getElem? hj) (returned_of_move hm hr)
  | @expireFlush j c e hj hpc =>
    refine ⟨fun d hd hr => ?_, h.idle⟩
    rcases List.mem_or_eq_of_mem_set hd with hd | rfl
    · exact h.alone d hd hr
    · cases hr
  | command hc hf =>
    refine ⟨fun c hcm hr => ?_, fun hn => by cases hn⟩
    rw [hf c hcm] at hr
    cases hr
  | @control op rest hp hr =>
    have hne : s.control.command ≠ none := fun hn => by
      rw [h.idle hn] at hp
      cases hp
    refine ⟨fun c hcm hret => absurd (h.alone c hcm hret) hne, fun hn => ?_⟩
    exact absurd ((control_command s.world s.control op).symm.trans hn) hne
  | expireDeadline hp =>
    refine ⟨h.alone, fun hn => ?_⟩
    have hi := h.idle hn
    rw [hp] at hi
    cases hi
  | _ => exact ⟨h.alone, h.idle⟩

/-- The borrow law holds in every run. -/
theorem borrowLaw {ok : State L → Action L → Prop}
    (h : ReachWhile (step x) ok (State.init L) s) : BorrowLaw s :=
  invariant_of_moves (I := BorrowLaw)
    ⟨fun _ hc => absurd hc (by simp [State.init]), fun _ => rfl⟩
    (fun _ _ _ hi _ hm => hi.step hm) h

/-! ## Remainders of programs -/

/-- Everything a command may run, from its start or from an expired deadline. -/
def programs : List (List ControlOp) :=
  [Command.program .shutdown, Command.program .reconfigure, Command.program .drop,
    deadlineExpired ++ (stopAcceptance ++ ledger ++ [.storeStopped, .notifyProgress]),
    deadlineExpired]

/-- A check on every remainder of every program. -/
def everyRemainder (check : List ControlOp → Bool) : Bool :=
  programs.all fun p => p.tails.all check

/-- What is left to do is the remainder of a program. -/
def ProgramLaw (s : State L) : Prop := ∃ p ∈ programs, s.control.program <:+ p

/-- What every remainder passes, the current one passes. -/
theorem ProgramLaw.check (h : ProgramLaw s) (check : List ControlOp → Bool)
    (hc : everyRemainder check = true) : check s.control.program = true := by
  obtain ⟨p, hp, hs⟩ := h
  exact List.all_eq_true.mp (List.all_eq_true.mp hc p hp) _ ((List.mem_tails _ _).mpr hs)

/-- What an expired deadline leads to is a program. -/
def expiresTo : List ControlOp → Bool
  | .awaitWorker :: rest => programs.contains (deadlineExpired ++ rest)
  | _ => true

/-- The program law is kept by every step. -/
theorem ProgramLaw.step (h : ProgramLaw s) (hm : Move x s a s') : ProgramLaw s' := by
  cases hm with
  | @command c hc hf =>
    refine ⟨c.program, ?_, List.suffix_rfl⟩
    cases c <;> decide
  | @control op rest hp hr =>
    obtain ⟨p, hmem, hs⟩ := h
    rw [hp] at hs
    exact ⟨p, hmem, (List.suffix_cons op rest).trans hs⟩
  | expireDeadline hp =>
    have hc := h.check expiresTo (by decide +kernel)
    rw [hp] at hc
    simp only [expiresTo] at hc
    exact ⟨_, List.contains_iff_mem.mp hc, List.suffix_rfl⟩
  | _ => exact h

/-- The program law holds in every run. -/
theorem programLaw {ok : State L → Action L → Prop}
    (h : ReachWhile (step x) ok (State.init L) s) : ProgramLaw s :=
  invariant_of_moves (I := ProgramLaw) ⟨_, List.mem_cons_self, List.nil_suffix⟩
    (fun _ _ _ hi _ hm => hi.step hm) h

/-! ## Places of a command -/

/-- Operations that read a gauge into the ledger. -/
def isLoad : ControlOp → Bool
  | .loadDepth _ | .loadInflight => true
  | _ => false

/-- Operations that reset a gauge. -/
def isReset : ControlOp → Bool
  | .resetDepth _ | .resetBytes _ | .resetInflight => true
  | _ => false

/-- Gauges are read and counted with no abort and no wait ahead, and what is
read is counted later. -/
def countsLate : List ControlOp → Bool
  | op :: rest =>
    !(isLoad op || decide (op = .addDropped)) ||
      (!rest.contains .abortWorker && !rest.contains .awaitWorker &&
        (rest.contains .addDropped || !isLoad op))
  | [] => true

/-- Gauges are reset with no join ahead. -/
def resetsLate : List ControlOp → Bool
  | op :: rest => !isReset op || !rest.contains .joinWorker
  | [] => true

/-- The worker was cancelled or has returned. -/
def workerGone (s : State L) : Prop := s.aborted = true ∨ s.worker.pc.isFinished = true

/-- What holds at the places of a command. -/
structure HandleLaw (s : State L) : Prop where
  /-- Nothing is counted before an abort, or before the wait for the worker. -/
  uncounted : .abortWorker ∈ s.control.program ∨ .awaitWorker ∈ s.control.program ∨
    s.control.command = none → s.control.remaining = 0 ∧ s.world.history.droppedByHandle = 0
  /-- What was read is counted later. -/
  counting : s.control.remaining ≠ 0 → .addDropped ∈ s.control.program
  /-- The callback is replaced, or this is still to be done. -/
  retired : s.control.command ≠ none → .unregister ∈ s.control.program ∨ s.world.retired = true
  /-- Resets come after the worker is gone. -/
  resets : (∃ op ∈ s.control.program, isReset op = true) →
    .joinWorker ∈ s.control.program ∨ workerGone s
  /-- Reset gauges belong to a worker that is gone, or that reset them itself. -/
  reset : s.world.history.gaugesReset = true → workerGone s ∨ hasCleared s.worker.pc = true
  /-- A worker is cancelled where it is suspended. -/
  aborted : s.aborted = true → s.worker.pc.awaits = true

/-- A returned worker takes no step. -/
theorem not_finished_of_move {o : Oracle} {w w' : World L} {k k' : Worker L}
    (hm : WorkerMove x o w k w' k') : k.pc.isFinished = false := by
  cases hm
  all_goals
    rename_i hpc
    rw [hpc]
    rfl

/-- The worker resets the gauges only where it clears the queues. -/
theorem cleared_of_move {o : Oracle} {w w' : World L} {k k' : Worker L}
    (hm : WorkerMove x o w k w' k') :
    (w'.history.gaugesReset = true → w.history.gaugesReset = true ∨ hasCleared k'.pc = true) ∧
      (hasCleared k.pc = true → hasCleared k'.pc = true) := by
  cases hm
  case ledgerClear => exact ⟨fun _ => Or.inr rfl, fun _ => rfl⟩
  case pollReady wait c cells hr hpc =>
    refine ⟨fun h => Or.inl ?_, fun h => ?_⟩
    · cases c <;> exact h
    · rw [hpc] at h
      cases h
  case pollNext wait c cells hr hpc =>
    refine ⟨fun h => Or.inl ?_, fun h => ?_⟩
    · cases c <;> exact h
    · rw [hpc] at h
      cases h
  case storeStopped exit hpc | notifyStopped exit hpc | report exit hpc =>
    refine ⟨Or.inl, fun h => ?_⟩
    rw [hpc] at h
    cases exit <;> exact h
  all_goals
    rename_i hpc
    refine ⟨Or.inl, fun h => ?_⟩
    rw [hpc] at h
    cases h

/-- Parties other than the worker and the handle keep the law. -/
theorem HandleLaw.other (h : HandleLaw s) (hc : s'.control = s.control)
    (hd : s'.world.history.droppedByHandle = s.world.history.droppedByHandle)
    (hr : s'.world.retired = s.world.retired)
    (hg : s'.world.history.gaugesReset = s.world.history.gaugesReset)
    (hk : s'.worker = s.worker) (ha : s'.aborted = s.aborted) : HandleLaw s' := by
  have hgone : workerGone s → workerGone s' := fun hw => by
    unfold workerGone at hw ⊢
    rwa [hk, ha]
  constructor
  · rw [hc, hd]
    exact h.uncounted
  · rw [hc]
    exact h.counting
  · rw [hc, hr]
    exact h.retired
  · rw [hc]
    exact fun hop => (h.resets hop).imp id hgone
  · rw [hg, hk]
    exact fun hre => (h.reset hre).imp hgone id
  · rw [ha, hk]
    exact h.aborted

/-- Only reading a gauge and counting the sum change the ledger. -/
theorem control_ledger (w : World L) (c : Control) {op : ControlOp} (h : isLoad op = false)
    (hn : op ≠ .addDropped) : (controlStep w c op).2.remaining = c.remaining ∧
      (controlStep w c op).1.history.droppedByHandle = w.history.droppedByHandle := by
  cases op
  case storeShuttingDown =>
    refine ⟨rfl, ?_⟩
    simp only [controlStep]
    split <;> rfl
  case loadDepth | loadInflight => cases h
  case addDropped => exact absurd rfl hn
  all_goals exact ⟨rfl, rfl⟩

/-- Only a reset marks the gauges as reset. -/
theorem control_reset (w : World L) (c : Control) {op : ControlOp} (h : isReset op = false) :
    (controlStep w c op).1.history.gaugesReset = w.history.gaugesReset := by
  cases op
  case storeShuttingDown =>
    simp only [controlStep]
    split <;> rfl
  case resetDepth | resetBytes | resetInflight => cases h
  all_goals rfl

/-- An operation of the command keeps the law. -/
theorem HandleLaw.control (h : HandleLaw s) (hb : BorrowLaw s) (hp' : ProgramLaw s) {op : ControlOp}
    {rest : List ControlOp} (hp : s.control.program = op :: rest) (hr : controlReady s op = true) :
    HandleLaw { s with
      world := (controlStep s.world s.control op).1
      control := { (controlStep s.world s.control op).2 with program := rest }
      abortRequested := s.abortRequested || decide (op = .abortWorker) } := by
  have hcounts := hp'.check countsLate (by decide +kernel)
  have hresets := hp'.check resetsLate (by decide +kernel)
  rw [hp] at hcounts hresets
  have hcmd : s.control.command ≠ none := fun hn => by
    rw [hb.idle hn] at hp
    cases hp
  have hin : ∀ {op'}, op' ∈ s.control.program → op' ≠ op → op' ∈ rest := fun hm hne => by
    rw [hp] at hm
    exact (List.mem_cons.mp hm).resolve_left hne
  have hof : ∀ {op'}, op' ∈ rest → op' ∈ s.control.program := fun hm => by
    rw [hp]
    exact List.mem_cons_of_mem _ hm
  constructor
  · intro hahead
    have hin' : .abortWorker ∈ rest ∨ .awaitWorker ∈ rest := by
      rcases hahead with hm | hm | hm
      · exact Or.inl hm
      · exact Or.inr hm
      · exact absurd ((control_command s.world s.control op).symm.trans hm) hcmd
    obtain ⟨h1, h2⟩ := h.uncounted (hin'.imp hof fun hm => Or.inl (hof hm))
    have hop : isLoad op = false ∧ op ≠ .addDropped := by
      by_contra hn
      have hl : (isLoad op || decide (op = .addDropped)) = true := by
        rw [Bool.or_eq_true, decide_eq_true_eq]
        by_contra hno
        rw [not_or] at hno
        exact hn ⟨Bool.eq_false_of_not_eq_true hno.1, hno.2⟩
      simp only [countsLate, hl, Bool.not_true, Bool.false_or, Bool.and_eq_true, Bool.not_eq_true',
        List.contains_eq_mem, decide_eq_false_iff_not] at hcounts
      rcases hin' with hm | hm
      · exact hcounts.1.1 hm
      · exact hcounts.1.2 hm
    obtain ⟨h3, h4⟩ := control_ledger s.world s.control hop.1 hop.2
    exact ⟨h3.trans h1, h4.trans h2⟩
  · intro hne
    by_cases hadd : op = .addDropped
    · subst hadd
      exact absurd rfl hne
    · by_cases hl : isLoad op = true
      · simp only [countsLate, hl, Bool.true_or, Bool.not_true, Bool.false_or, Bool.or_false,
          Bool.and_eq_true, List.contains_eq_mem, decide_eq_true_eq] at hcounts
        exact hcounts.2
      · have hr := (control_ledger s.world s.control (Bool.eq_false_of_not_eq_true hl) hadd).1
        exact hin (h.counting (hr ▸ hne)) fun he => hadd he.symm
  · intro _
    by_cases hop : op = .unregister
    · subst hop
      exact Or.inr rfl
    · exact (h.retired hcmd).imp (fun hm => hin hm fun he => hop he.symm)
        (controlStep_frame s.world s.control op).retired
  · rintro ⟨op', hm, hreset⟩
    rcases h.resets ⟨op', hof hm, hreset⟩ with hj | hg
    · by_cases hop : op = .joinWorker
      · subst hop
        simp only [controlReady, Bool.or_eq_true] at hr
        exact Or.inr hr
      · exact Or.inl (hin hj fun he => hop he.symm)
    · exact Or.inr hg
  · intro hreset
    by_cases hop : isReset op = true
    · refine Or.inl ((h.resets ⟨op, ?_, hop⟩).resolve_left fun hj => ?_)
      · rw [hp]
        exact List.mem_cons_self
      · have hj' : .joinWorker ∈ rest := hin hj (by rintro rfl; cases hop)
        simp only [resetsLate, hop, Bool.not_true, Bool.false_or, Bool.not_eq_true',
          List.contains_eq_mem, decide_eq_false_iff_not] at hresets
        exact hresets hj'
    · exact h.reset
        ((control_reset s.world s.control (Bool.eq_false_of_not_eq_true hop)).symm.trans hreset)
  · exact h.aborted

/-- The handle law is kept by every step. -/
theorem HandleLaw.step (h : HandleLaw s) (hb : BorrowLaw s) (hp' : ProgramLaw s)
    (hm : Move x s a s') : HandleLaw s' := by
  cases hm with
  | producer hi hm =>
    have hf := producer_frame hm
    refine h.other rfl ?_ hf.retired ?_ rfl rfl <;> exact (congrArg _ hf.history).trans rfl
  | @worker o w' k' ha hm =>
    have hf := worker_frame hm
    obtain ⟨hre, hcl⟩ := cleared_of_move hm
    have hgone : ¬ workerGone s := by
      rintro (hw | hw)
      · rw [ha] at hw
        cases hw
      · rw [not_finished_of_move hm] at hw
        cases hw
    refine ⟨?_, h.counting, fun hc => ?_, fun hop => ?_, fun hr => ?_, fun hab => ?_⟩
    · dsimp only
      rw [hf.droppedByHandle]
      exact h.uncounted
    · dsimp only
      rw [hf.retired]
      exact h.retired hc
    · exact (h.resets hop).imp id fun hg => absurd hg hgone
    · rcases hre hr with hr | hr
      · exact Or.inr (hcl ((h.reset hr).resolve_left hgone))
      · exact Or.inr hr
    · exact absurd (Or.inl hab) hgone
  | cancelWorker hr ha hw =>
    exact ⟨h.uncounted, h.counting, h.retired, fun hop => (h.resets hop).imp id fun _ => Or.inl rfl,
      fun hre => (h.reset hre).imp (fun _ => Or.inl rfl) id, fun _ => hw⟩
  | flush hj hm =>
    rw [(flush_world hm).1]
    exact h.other rfl rfl rfl rfl rfl rfl
  | @command c hc hf =>
    obtain ⟨h1, h2⟩ := h.uncounted (Or.inr (Or.inr hc))
    have hcallback : .unregister ∈ c.program := by cases c <;> decide
    have hkept : ∀ op ∈ c.program, isReset op = false := by cases c <;> decide
    refine ⟨fun _ => ⟨h1, h2⟩, fun hne => absurd h1 hne, fun _ => Or.inl hcallback, ?_, h.reset,
      h.aborted⟩
    rintro ⟨op, hm, hreset⟩
    rw [hkept op hm] at hreset
    cases hreset
  | control hp hr => exact h.control hb hp' hp hr
  | @expireDeadline rest hp =>
    have hin : .awaitWorker ∈ s.control.program := by
      rw [hp]
      exact List.mem_cons_self
    obtain ⟨h1, h2⟩ := h.uncounted (Or.inr (Or.inl hin))
    refine ⟨fun _ => ⟨h1, h2⟩, fun hne => absurd h1 hne, fun hc => ?_, fun _ => Or.inl ?_, h.reset,
      h.aborted⟩
    · refine (h.retired hc).imp (fun hm => ?_) id
      rw [hp] at hm
      exact List.mem_append_right _ ((List.mem_cons.mp hm).resolve_left (by simp))
    · exact List.mem_append_left _ (by decide)
  | _ => exact h.other rfl rfl rfl rfl rfl rfl

/-- The handle law holds in every run. -/
theorem handleLaw {ok : State L → Action L → Prop}
    (h : ReachWhile (step x) ok (State.init L) s) : HandleLaw s :=
  invariant_of_moves_using (I := HandleLaw) (J := fun s => BorrowLaw s ∧ ProgramLaw s)
    (fun _ hr => ⟨borrowLaw hr, programLaw hr⟩)
    ⟨fun _ => ⟨rfl, rfl⟩, fun hn => absurd rfl hn, fun hn => absurd rfl hn,
      fun ⟨_, hm, _⟩ => absurd hm (by simp [State.init]),
      fun hr => absurd hr (by simp [State.init, World.new, History.new]),
      fun ha => absurd ha (by simp [State.init])⟩
    (fun _ _ _ hj _ hi _ hm => hi.step hj.1 hj.2 hm) h

end EdenLogger.HandleProgram
