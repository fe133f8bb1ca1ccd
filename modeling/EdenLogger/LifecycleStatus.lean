import EdenLogger.HandleProgram

/-!
# The end of a generation's status

`stop_acceptance` clears `accepting`, checks the status and then stores
`ShuttingDown`. The worker stores the status from what it read before. A run in
which no such reading is overtaken never turns the status back to `Running`
after acceptance was stopped, and never overwrites `Stopped`.
-/

namespace EdenLogger.LifecycleStatus

open ExporterLanes LogCollector GenerationState GenerationStep GenerationMoves GenerationFrames
open LaneOwnership HandleProgram RunRules

variable {L : Type} {x : Exporter L} {s s' : State L} {a : Action L}

/-! ## Readings that are overtaken -/

/-- Whether the worker's step stores a status that is not `Stopped`. -/
def storesStatus (o : Oracle) : WorkerPc L → Bool
  | .retried _ _ | .batchStatus => true
  | .awaitReply _ => decide (o.reply = .retryable) || decide (o.reply = .fatal)
  | _ => false

/-- A dropped handle has stored `Stopped`. -/
def droppedStopped (s : State L) : Prop :=
  s.control.command = some .drop ∧ .storeStopped ∉ s.control.program

/-- `stop_acceptance` has found the status not stopped, and has not stored its own yet. -/
def checkedStatus (s : State L) : Prop :=
  s.control.program.head? = some .storeShuttingDown ∧ s.control.sawStopped = false

/-- A worker step that no reading of another party depends on, and whose own
readings still hold. -/
structure WorkerCareful (s : State L) (o : Oracle) : Prop where
  /-- A worker that completed a batch has seen the shutdown, if there is one. -/
  batch : s.worker.pc = .batchStatus → s.worker.shuttingDown = false → s.world.accepting = true
  /-- `accepting` was not cleared since it was read behind the retry delay. -/
  retry : ∀ e, s.worker.pc = .retried e true → s.world.accepting = true
  /-- `Stopped` is not stored between the check and the store of `stop_acceptance`. -/
  stop : ∀ exit, s.worker.pc = .storeStopped exit → ¬ checkedStatus s
  /-- A worker outlives a dropped handle's `Stopped` without storing a status. -/
  drop : storesStatus o s.worker.pc = true → ¬ droppedStopped s

/-- The steps under which no reading is overtaken. -/
def Careful (s : State L) (a : Action L) : Prop := ∀ o, a = .worker o → WorkerCareful s o

/-! ## What steps do to the status -/

/-- What the worker stores. -/
theorem worker_status {o : Oracle} {w w' : World L} {k k' : Worker L}
    (hm : WorkerMove x o w k w' k') :
    w'.metrics.status = w.metrics.status ∨
      (∃ exit, k.pc = .storeStopped exit ∧ k'.pc = .notifyStopped exit ∧
        w'.metrics.status = .stopped) ∨
      (storesStatus o k.pc = true ∧ w'.metrics.status ≠ .stopped) := by
  cases hm with
  | storeStopped hpc => exact Or.inr (Or.inl ⟨_, hpc, rfl, rfl⟩)
  | backOff hr hpc =>
    refine Or.inr (Or.inr ⟨?_, fun hc => by cases hc⟩)
    rw [hpc]
    simp only [storesStatus, hr, decide_true, Bool.true_or]
  | fatal hr hpc =>
    refine Or.inr (Or.inr ⟨?_, fun hc => by cases hc⟩)
    rw [hpc]
    simp only [storesStatus, hr, decide_true, Bool.or_true]
  | @retried e accepting hpc =>
    rw [hpc]
    exact Or.inr (Or.inr ⟨rfl, fun hc => by cases accepting <;> cases hc⟩)
  | batchStatus hpc =>
    rw [hpc]
    refine Or.inr (Or.inr ⟨rfl, fun hc => ?_⟩)
    simp only [setStatus] at hc
    split at hc <;> cases hc
  | @pollReady wait c cells hr hpc => cases c <;> exact Or.inl rfl
  | @pollNext wait c cells hr hpc => cases c <;> exact Or.inl rfl
  | _ => exact Or.inl rfl

/-- When the worker stores `Running`. -/
theorem worker_running {o : Oracle} {w w' : World L} {k k' : Worker L}
    (hm : WorkerMove x o w k w' k') (h : w'.metrics.status = .running) :
    w.metrics.status = .running ∨ (k.pc = .batchStatus ∧ k.shuttingDown = false) ∨
      ∃ e, k.pc = .retried e true := by
  cases hm with
  | storeStopped hpc | backOff hr hpc | fatal hr hpc => cases h
  | @retried e accepting hpc =>
    cases accepting with
    | false => cases h
    | true => exact Or.inr (Or.inr ⟨e, hpc⟩)
  | batchStatus hpc =>
    by_cases hk : k.shuttingDown = true
    · rw [if_pos hk] at h
      cases h
    · exact Or.inr (Or.inl ⟨hpc, Bool.eq_false_of_not_eq_true hk⟩)
  | @pollReady wait c cells hr hpc => cases c <;> exact Or.inl h
  | @pollNext wait c cells hr hpc => cases c <;> exact Or.inl h
  | _ => exact Or.inl h

/-- What the handle's command stores. -/
theorem control_status (w : World L) (c : Control) (op : ControlOp) :
    (controlStep w c op).1.metrics.status = w.metrics.status ∨
      (op = .storeStopped ∧ (controlStep w c op).1.metrics.status = .stopped) ∨
      (op = .storeShuttingDown ∧ c.sawStopped = false ∧
        (controlStep w c op).1.metrics.status = .shuttingDown) := by
  cases op with
  | storeStopped => exact Or.inr (Or.inl ⟨rfl, rfl⟩)
  | storeShuttingDown =>
    rw [controlStep]
    by_cases hs : c.sawStopped = true
    · rw [if_pos hs]
      exact Or.inl rfl
    · rw [if_neg hs]
      exact Or.inr (Or.inr ⟨rfl, Bool.eq_false_of_not_eq_true hs, rfl⟩)
  | _ => exact Or.inl rfl

/-- A status is stored by the worker and by the handle's command only. -/
theorem status_of_move (hm : Move x s a s') :
    s'.world.metrics.status = s.world.metrics.status ∨
      (∃ o w' k', a = .worker o ∧ s.aborted = false ∧
        WorkerMove x o s.world s.worker w' k' ∧ s'.world = w') ∨
      ∃ op rest, s.control.program = op :: rest ∧ controlReady s op = true ∧
        s'.world = (controlStep s.world s.control op).1 := by
  cases hm with
  | producer hi hm => exact Or.inl (producer_frame hm).status
  | worker ha hm => exact Or.inr (Or.inl ⟨_, _, _, rfl, ha, hm, rfl⟩)
  | flush hj hm =>
    rw [(flush_world hm).1]
    exact Or.inl rfl
  | control hp hr => exact Or.inr (Or.inr ⟨_, _, hp, hr, rfl⟩)
  | _ => exact Or.inl rfl

/-! ## Who stored Stopped -/

/-- The worker has stored `Stopped`. -/
def workerStopped : WorkerPc L → Bool
  | .notifyStopped _ | .reporting _ | .finished _ _ => true
  | _ => false

/-- What a drain leaves to the handle's destructor. -/
def behindDrain : Command → List ControlOp
  | .shutdown => stopAcceptance ++ ledger ++ [.storeStopped, .notifyProgress]
  | .reconfigure => []
  | .drop => []

/-- What a command may run, from its start or from an expired deadline. -/
def ownPrograms (c : Command) : List (List ControlOp) :=
  match c with
  | .shutdown => [c.program, deadlineExpired ++ behindDrain c]
  | .reconfigure => [c.program, deadlineExpired ++ behindDrain c]
  | .drop => [c.program]

/-- A command is behind its drain, or about to announce the end of it. -/
def pastDrain (s : State L) : Prop :=
  ∃ c, s.control.command = some c ∧ s.control.program <:+ .notifyProgress :: behindDrain c

/-- Where the status comes from. -/
structure StatusLaw (s : State L) : Prop where
  /-- What `stop_acceptance` checked still holds when it stores `ShuttingDown`. -/
  checked : checkedStatus s → s.world.metrics.status ≠ .stopped
  /-- `Stopped` was stored by a party behind which no worker runs, or by a
  dropped handle. -/
  ended : s.world.metrics.status = .stopped →
    workerStopped s.worker.pc = true ∨ s.aborted = true ∨ droppedStopped s
  /-- The worker announces only what it stored. -/
  stored : workerStopped s.worker.pc = true → s.world.metrics.status = .stopped
  /-- Its report shows it. -/
  report : ∀ exit report, s.worker.pc = .finished exit report → report.metrics.status = .stopped
  /-- A drain that has not waited for the worker has still to do so. -/
  waited : ∀ c, s.control.command = some c → c ≠ .drop →
    .awaitWorker ∈ s.control.program ∨ .joinWorker ∈ s.control.program ∨ workerGone s
  /-- A command keeps to its programs. -/
  own : ∀ c, s.control.command = some c → ∃ p ∈ ownPrograms c, s.control.program <:+ p
  /-- Behind its drain a command finds the status stopped. -/
  drained : pastDrain s → s.world.metrics.status = .stopped

/-- A status that was stopped stays so. -/
theorem StatusLaw.stays (h : StatusLaw s) (ha : Careful s a) (hm : Move x s a s')
    (hs : s.world.metrics.status = .stopped) : s'.world.metrics.status = .stopped := by
  rcases status_of_move hm with hsame | ⟨o, w', k', rfl, hab, hw, hw'⟩ | ⟨op, rest, hp, hr, hw'⟩
  · exact hsame.trans hs
  · rw [hw']
    rcases worker_status hw with hsame | ⟨exit, -, -, hst⟩ | ⟨hst, -⟩
    · exact hsame.trans hs
    · exact hst
    · rcases h.ended hs with hk | hk | hk
      · -- a worker that announces its end stores nothing
        revert hk hst
        cases s.worker.pc <;> simp [workerStopped, storesStatus]
      · rw [hab] at hk
        cases hk
      · exact absurd hk ((ha o rfl).drop hst)
  · rw [hw']
    rcases control_status s.world s.control op with hsame | ⟨-, hst⟩ | ⟨rfl, hsaw, -⟩
    · exact hsame.trans hs
    · exact hst
    · exact absurd hs (h.checked ⟨by rw [hp]; rfl, hsaw⟩)

/-! ## Places of a command -/

/-- `ShuttingDown` is stored right behind the check. -/
def checksFirst : List ControlOp → Bool
  | op :: .storeShuttingDown :: _ => decide (op = .loadStatus)
  | _ => true

/-- `Stopped` is stored with no wait ahead. -/
def stopsLate : List ControlOp → Bool
  | .storeStopped :: rest => !rest.contains .awaitWorker && !rest.contains .joinWorker
  | _ => true

/-- A drain is left by storing `Stopped`, or by the end of its wait. -/
def leavesDrain (c : Command) : List ControlOp → Bool
  | op :: rest => !(rest.isSuffixOf (.notifyProgress :: behindDrain c)) ||
      (op :: rest).isSuffixOf (.notifyProgress :: behindDrain c) ||
        decide (op = .storeStopped) || decide (op = .awaitWorker)
  | [] => true

/-- `Stopped` is stored once. -/
def stopsOnce : List ControlOp → Bool
  | .storeStopped :: rest => !rest.contains .storeStopped
  | _ => true

/-- A worker that stored `Stopped` is past its check of `producers_closed`. -/
theorem pastClosed_of_stopped {pc : WorkerPc L} (h : workerStopped pc = true) :
    pastClosed pc = true := by
  cases pc
  case notifyStopped | reporting | finished => rfl
  all_goals cases h

/-- A worker that returned has stored it. -/
theorem stopped_of_finished {pc : WorkerPc L} (h : pc.isFinished = true) :
    workerStopped pc = true := by
  cases pc
  case finished => rfl
  all_goals cases h

/-- What an expired deadline leads to is a program of the command. -/
def expiresWithin (c : Command) : List ControlOp → Bool
  | .awaitWorker :: rest => (ownPrograms c).contains (deadlineExpired ++ rest)
  | _ => true

/-- What every remainder of a command's programs passes, the current one passes. -/
theorem StatusLaw.check (h : StatusLaw s) {c : Command} (hc : s.control.command = some c)
    (check : List ControlOp → Bool)
    (hall : (ownPrograms c).all (fun p => p.tails.all check) = true) :
    check s.control.program = true := by
  obtain ⟨p, hp, hs⟩ := h.own c hc
  exact List.all_eq_true.mp (List.all_eq_true.mp hall p hp) _ ((List.mem_tails _ _).mpr hs)

/-- The worker gets behind its last store by that store. -/
theorem stored_of_move {o : Oracle} {w w' : World L} {k k' : Worker L}
    (hm : WorkerMove x o w k w' k') (h : workerStopped k'.pc = true) :
    workerStopped k.pc = true ∨ w'.metrics.status = .stopped := by
  have hpast := pastClosed_of_stopped h
  cases hm
  case storeStopped => exact Or.inr rfl
  case notifyStopped hpc | report hpc => exact Or.inl (by rw [hpc]; rfl)
  case detach | popNone | release | chooseReceive | assembleReceive | pollReady | completed =>
    simp at hpast
  all_goals cases h

/-- It stays there. -/
theorem stopped_of_move {o : Oracle} {w w' : World L} {k k' : Worker L}
    (hm : WorkerMove x o w k w' k') (h : workerStopped k.pc = true) :
    workerStopped k'.pc = true := by
  cases hm
  case notifyStopped | report => rfl
  all_goals
    rename_i hpc
    rw [hpc] at h
    cases h

/-- Its report is a snapshot of what it stored. -/
theorem report_of_move {o : Oracle} {w w' : World L} {k k' : Worker L}
    (hm : WorkerMove x o w k w' k') {exit : Exit} {report : ShutdownReport}
    (h : k'.pc = .finished exit report) :
    workerStopped k.pc = true ∧ report.metrics.status = w.metrics.status := by
  have hpast : pastClosed k'.pc = true := by rw [h]; rfl
  cases hm
  case report hpc =>
    cases h
    exact ⟨by rw [hpc]; rfl, rfl⟩
  case detach | popNone | release | chooseReceive | assembleReceive | pollReady | completed =>
    simp at hpast
  all_goals cases h

/-! ## Careful runs -/

/-- Steps that leave the handle's command alone, and the worker where it was. -/
theorem StatusLaw.other (h : StatusLaw s) (hc : s'.control = s.control)
    (hst : s'.world.metrics.status = s.world.metrics.status) (hk : s'.worker = s.worker)
    (ha : s.aborted = true → s'.aborted = true) : StatusLaw s' := by
  have hgone : workerGone s → workerGone s' := fun hw => by
    unfold workerGone at hw ⊢
    rw [hk]
    exact hw.imp ha id
  refine ⟨?_, ?_, ?_, ?_, ?_, ?_, ?_⟩
  · rw [checkedStatus, hc, hst]
    exact h.checked
  · rw [droppedStopped, hc, hst, hk]
    exact fun hs => (h.ended hs).imp id (Or.imp ha id)
  · rw [hst, hk]
    exact h.stored
  · rw [hk]
    exact h.report
  · rw [hc]
    exact fun c hcmd hne => (h.waited c hcmd hne).imp id (Or.imp id hgone)
  · rw [hc]
    exact h.own
  · rw [pastDrain, hc, hst]
    exact h.drained

/-- The worker's careful steps. -/
theorem StatusLaw.worker (h : StatusLaw s) {o : Oracle} (ha : WorkerCareful s o)
    (hab : s.aborted = false) {w' : World L} {k' : Worker L}
    (hm : WorkerMove x o s.world s.worker w' k') :
    StatusLaw { s with world := w', worker := k' } := by
  have hstays := h.stays (fun o' ho => by cases ho; exact ha) (Move.worker hab hm)
  have hgone : ¬ workerGone s := by
    rintro (hw | hw)
    · rw [hab] at hw
      cases hw
    · rw [not_finished_of_move hm] at hw
      cases hw
  refine ⟨fun hc hs => ?_, fun hs => ?_, fun hk => ?_, fun exit report hpc => ?_,
    fun c hcmd hne => ?_, h.own, fun hd => hstays (h.drained hd)⟩
  · rcases worker_status hm with hsame | ⟨exit, hpc, -, -⟩ | ⟨-, hne⟩
    · exact h.checked hc (hsame.symm.trans hs)
    · exact ha.stop exit hpc hc
    · exact hne hs
  · rcases worker_status hm with hsame | ⟨exit, -, hpc, -⟩ | ⟨-, hne⟩
    · exact (h.ended (hsame.symm.trans hs)).imp (stopped_of_move hm) id
    · refine Or.inl ?_
      rw [hpc]
      rfl
    · exact absurd hs hne
  · rcases stored_of_move hm hk with hbefore | hs
    · exact hstays (h.stored hbefore)
    · exact hs
  · obtain ⟨hbefore, hst⟩ := report_of_move hm hpc
    exact hst.trans (h.stored hbefore)
  · exact (h.waited c hcmd hne).imp id (Or.imp id fun hw => absurd hw hgone)

/-- An operation of the command. -/
theorem StatusLaw.control (x : Exporter L) (h : StatusLaw s) (hb : BorrowLaw s) (hp' : ProgramLaw s)
    {op : ControlOp} {rest : List ControlOp} (hp : s.control.program = op :: rest)
    (hr : controlReady s op = true) :
    StatusLaw { s with
      world := (controlStep s.world s.control op).1
      control := { (controlStep s.world s.control op).2 with program := rest }
      abortRequested := s.abortRequested || decide (op = .abortWorker) } := by
  have hstays := h.stays (fun o ho => by cases ho) (Move.control (x := x) hp hr)
  have hcommand := control_command s.world s.control op
  have hstatus := control_status s.world s.control op
  have hcheck := hp'.check checksFirst (by decide +kernel)
  have hlate := hp'.check stopsLate (by decide +kernel)
  rw [hp] at hcheck hlate
  have hin : ∀ {op'}, op' ∈ s.control.program → op' ≠ op → op' ∈ rest := fun hm hne => by
    rw [hp] at hm
    exact (List.mem_cons.mp hm).resolve_left hne
  refine ⟨?_, fun hs => ?_, fun hk => hstays (h.stored hk), h.report, fun c hc hne => ?_,
    fun c hc => ?_, ?_⟩
  · -- the check is the operation before the store
    rintro ⟨hhead, hsaw⟩ hs
    obtain ⟨rest', rfl⟩ := List.head?_eq_some_iff.mp hhead
    cases of_decide_eq_true hcheck
    have hst : s.world.metrics.status = .stopped := hs
    simp only [controlStep, hst, decide_true, Bool.true_eq_false] at hsaw
  · rcases hstatus with hsame | ⟨rfl, -⟩ | ⟨-, -, hst⟩
    · refine (h.ended (hsame.symm.trans hs)).imp id (Or.imp id fun hd => ⟨hcommand.trans hd.1, ?_⟩)
      exact fun hm => hd.2 (by rw [hp]; exact List.mem_cons_of_mem _ hm)
    · simp only [stopsLate, Bool.and_eq_true, Bool.not_eq_true', List.contains_eq_mem,
        decide_eq_false_iff_not] at hlate
      cases hc : s.control.command with
      | none =>
        rw [hb.idle hc] at hp
        cases hp
      | some c =>
        by_cases hdrop : c = .drop
        · subst hdrop
          refine Or.inr (Or.inr ⟨hcommand.trans hc, ?_⟩)
          have honce := h.check hc stopsOnce (by decide +kernel)
          rw [hp] at honce
          simpa [stopsOnce] using honce
        · rcases h.waited c hc hdrop with hm | hm | hm
          · exact absurd (hin hm (by simp)) hlate.1
          · exact absurd (hin hm (by simp)) hlate.2
          · exact hm.elim (fun ha => Or.inr (Or.inl ha)) fun hk => Or.inl (stopped_of_finished hk)
    · rw [hst] at hs
      cases hs
  · rcases h.waited c (hcommand.symm.trans hc) hne with hm | hm | hm
    · by_cases hop : op = .awaitWorker
      · subst hop
        exact Or.inr (Or.inr (Or.inr hr))
      · exact Or.inl (hin hm fun he => hop he.symm)
    · by_cases hop : op = .joinWorker
      · subst hop
        exact Or.inr (Or.inr ((Bool.or_eq_true _ _).mp hr))
      · exact Or.inr (Or.inl (hin hm fun he => hop he.symm))
    · exact Or.inr (Or.inr hm)
  · obtain ⟨p, hmem, hs⟩ := h.own c (hcommand.symm.trans hc)
    rw [hp] at hs
    exact ⟨p, hmem, (List.suffix_cons op rest).trans hs⟩
  · rintro ⟨c, hc, hd⟩
    have hcmd : s.control.command = some c := hcommand.symm.trans hc
    have hleave := h.check hcmd (leavesDrain c) (by cases c <;> decide +kernel)
    rw [hp] at hleave
    simp only [leavesDrain, List.isSuffixOf_iff_suffix.mpr hd, Bool.not_true, Bool.false_or,
      Bool.or_eq_true, decide_eq_true_eq, List.isSuffixOf_iff_suffix] at hleave
    rcases hleave with (hin' | rfl) | rfl
    · exact hstays (h.drained ⟨c, hcmd, by rw [hp]; exact hin'⟩)
    · rfl
    · exact hstays (h.stored (stopped_of_finished hr))

/-- A careful step keeps the law. -/
theorem StatusLaw.step (h : StatusLaw s) (hb : BorrowLaw s) (hp' : ProgramLaw s)
    (ha : Careful s a) (hm : Move x s a s') : StatusLaw s' := by
  cases hm with
  | producer hi hm => exact h.other rfl (producer_frame hm).status rfl id
  | worker hab hm => exact h.worker (ha _ rfl) hab hm
  | cancelWorker hr hab hw => exact h.other rfl rfl rfl fun _ => rfl
  | flush hj hm =>
    rw [(flush_world hm).1]
    exact h.other rfl rfl rfl id
  | @command c hc hf =>
    have hwaits : c ≠ .drop → .awaitWorker ∈ c.program := by cases c <;> decide
    have hhead : c.program.head? ≠ some .storeShuttingDown := by cases c <;> decide
    have hlong : c.program.isSuffixOf (.notifyProgress :: behindDrain c) = false := by
      cases c <;> decide
    refine ⟨fun hck => absurd hck.1 hhead, fun hs => ?_, h.stored, h.report, fun c' hc' hne => ?_,
      fun c' hc' => ?_, ?_⟩
    · refine (h.ended hs).imp id (Or.imp id fun hd => ?_)
      rw [hd.1] at hc
      cases hc
    · cases hc'
      exact Or.inl (hwaits hne)
    · cases hc'
      exact ⟨c.program, by cases c <;> exact List.mem_cons_self, List.suffix_rfl⟩
    · rintro ⟨c', hc', hd⟩
      cases hc'
      rw [List.isSuffixOf_iff_suffix.mpr hd] at hlong
      cases hlong
  | control hp hr => exact h.control x hb hp' hp hr
  | @expireDeadline rest hp =>
    have hexpires : ∀ c, s.control.command = some c → deadlineExpired ++ rest ∈ ownPrograms c := by
      intro c hc
      have hexp := h.check hc (expiresWithin c) (by cases c <;> decide +kernel)
      rw [hp] at hexp
      exact List.contains_iff_mem.mp hexp
    refine ⟨fun hck => (by cases hck.1), fun hs => ?_, h.stored, h.report,
      fun c hc hne => Or.inr (Or.inl (List.mem_append_left _ (by decide))),
      fun c hc => ⟨_, hexpires c hc, List.suffix_rfl⟩, ?_⟩
    · refine (h.ended hs).imp id (Or.imp id fun hd => absurd (hexpires _ hd.1) fun hmem => ?_)
      have hhead := congrArg List.head? (List.mem_singleton.mp hmem)
      cases hhead
    · rintro ⟨c, hc, hd⟩
      have habort : .abortWorker ∈ .notifyProgress :: behindDrain c :=
        hd.subset (List.mem_append_left _ (by decide))
      cases c <;> exact absurd habort (by decide)
  | _ => exact h.other rfl rfl rfl id

/-- The law holds in every careful run. -/
theorem statusLaw (h : ReachWhile (step x) Careful (State.init L) s) : StatusLaw s :=
  invariant_of_moves_using (I := StatusLaw) (J := fun s => BorrowLaw s ∧ ProgramLaw s)
    (fun _ hr => ⟨borrowLaw hr, programLaw hr⟩)
    ⟨fun hc => absurd hc.1 (by simp [State.init]),
      by simp [State.init, World.new, ExporterMetrics.new],
      by simp [State.init, Worker.new, workerStopped], by simp [State.init, Worker.new],
      by simp [State.init], by simp [State.init], by simp [pastDrain, State.init]⟩
    (fun _ _ _ hj _ hi ha hm => hi.step hj.1 hj.2 ha hm) h

/-- In a careful run every report shows the status stopped, and so do the
metrics behind every drain. After acceptance was stopped no step turns the
status to `Running`, and none overwrites `Stopped`. -/
theorem status_monotone (h : ReachWhile (step x) Careful (State.init L) s) :
    (∀ exit report, s.worker.pc = .finished exit report → report.metrics.status = .stopped) ∧
    (pastDrain s → (metricsSnapshot s.world).status = .stopped) ∧
    ∀ (a : Action L) (s' : State L), Careful s a → step x s a = some s' →
      (s.world.accepting = false → s'.world.metrics.status = .running →
        s.world.metrics.status = .running) ∧
      (s.world.metrics.status = .stopped → s'.world.metrics.status = .stopped) := by
  have hlaw := statusLaw h
  refine ⟨hlaw.report, hlaw.drained, fun a s' ha hs => ?_⟩
  have hm := stepMove hs
  refine ⟨fun hacc hrun => ?_, hlaw.stays ha hm⟩
  rcases status_of_move hm with hsame | ⟨o, w', k', rfl, -, hw, hw'⟩ | ⟨op, rest, -, -, hw'⟩
  · exact hsame.symm.trans hrun
  · rw [hw'] at hrun
    rcases worker_running hw hrun with hbefore | ⟨hpc, hsd⟩ | ⟨e, hpc⟩
    · exact hbefore
    · rw [(ha o rfl).batch hpc hsd] at hacc
      cases hacc
    · rw [(ha o rfl).retry e hpc] at hacc
      cases hacc
  · rw [hw'] at hrun
    rcases control_status s.world s.control op with hsame | ⟨-, hst⟩ | ⟨-, -, hst⟩
    · exact hsame.symm.trans hrun
    · rw [hst] at hrun
      cases hrun
    · rw [hst] at hrun
      cases hrun

/-! ## Overtaken readings -/

/-- Whether a step is careful. -/
def isCareful (s : State L) : Action L → Bool
  | .worker o =>
    (match s.worker.pc with
      | .batchStatus => s.worker.shuttingDown || s.world.accepting
      | .retried _ true => s.world.accepting
      | .storeStopped _ => !(decide (s.control.program.head? = some .storeShuttingDown) &&
          !s.control.sawStopped)
      | _ => true) &&
    (!storesStatus o s.worker.pc || !(decide (s.control.command = some .drop) &&
      decide (.storeStopped ∉ s.control.program)))
  | _ => true

/-- A step that passes the check is careful. -/
theorem careful_of_check (s : State L) (a : Action L) (h : isCareful s a = true) : Careful s a := by
  rintro o rfl
  obtain ⟨hpc, hdrop⟩ := (Bool.and_eq_true _ _).mp h
  refine ⟨fun hb hsd => ?_, fun e he => ?_, fun exit he hc => ?_, fun hst hd => ?_⟩
  · simpa [hb, hsd] using hpc
  · simpa [he] using hpc
  · simp [he, hc.1, hc.2] at hpc
  · simp [hst, hd.1, hd.2] at hdrop

/-- A record that is exported, and a shutdown behind it. -/
def shutdownRun : List (Action ℕ) :=
  .spawn :: submitAlone 0 3 ++ lateSteps 40 ++ [.command .shutdown] ++ controlSteps 7 ++
    [.fence, .fence] ++ controlSteps 6 ++ lateSteps 11

/-- Whether the worker has returned. -/
def reported (s : State ℕ) : Bool := s.worker.pc.isFinished

/-- After a shutdown of an idle exporter the report shows it stopped. -/
theorem status_monotone_idle : ∃ (s : State ℕ) (exit : Exit) (report : ShutdownReport),
    ReachWhile (step sample) Careful (State.init ℕ) s ∧ s.worker.pc = .finished exit report ∧
    report.metrics.status = .stopped := by
  obtain ⟨s, hs, ht⟩ := exists_reach_of_replay (step sample) careful_of_check (State.init ℕ)
    shutdownRun reported (by decide +kernel)
  obtain ⟨exit, report, hpc⟩ : ∃ exit report, s.worker.pc = .finished exit report := by
    unfold reported WorkerPc.isFinished at ht
    split at ht
    · exact ⟨_, _, by assumption⟩
    · cases ht
  exact ⟨s, exit, report, hs, hpc, (status_monotone hs).1 exit report hpc⟩

/-- A shutdown while a batch is exported, until the batch is complete. -/
def exportingRun : List (Action ℕ) :=
  .spawn :: submitAlone 0 3 ++ lateSteps 19 ++ [.command .shutdown] ++ controlSteps 6 ++ lateSteps 4

/-- A shutdown whose second check is overtaken by the worker's end. -/
def overtakenRun : List (Action ℕ) :=
  [.command .shutdown] ++ controlSteps 7 ++ [.fence, .fence] ++ controlSteps 2 ++ lateSteps 12

/-- Whether the next step stores `Running` over `ShuttingDown`. -/
def runsAgain (s : State ℕ) : Bool :=
  !s.world.accepting && decide (s.world.metrics.status = .shuttingDown) &&
    (replay (step sample) noCheck s (lateSteps 1)).any fun s' =>
      decide (s'.world.metrics.status = .running)

/-- Whether the next step stores `ShuttingDown` over `Stopped`, and the report shows it. -/
def overwritten (s : State ℕ) : Bool :=
  decide (s.world.metrics.status = .stopped) &&
    (replay (step sample) noCheck s (controlSteps 1)).any fun s' =>
      decide (s'.world.metrics.status = .shuttingDown) &&
        (replay (step sample) noCheck s' (lateSteps 2)).any fun s'' =>
          match s''.worker.pc with
          | .finished _ report => decide (report.metrics.status = .shuttingDown)
          | _ => false

/-- The status turns back to `Running` after acceptance was stopped, and
`ShuttingDown` overwrites `Stopped` and is reported. -/
theorem status_turns_back :
    (∃ s s' : State ℕ, Reach (step sample) (State.init ℕ) s ∧ s.world.accepting = false ∧
      s.world.metrics.status = .shuttingDown ∧ Reach (step sample) s s' ∧
      s'.world.metrics.status = .running) ∧
    ∃ (s s' s'' : State ℕ) (exit : Exit) (report : ShutdownReport),
      Reach (step sample) (State.init ℕ) s ∧ s.world.metrics.status = .stopped ∧
      Reach (step sample) s s' ∧ s'.world.metrics.status = .shuttingDown ∧
      Reach (step sample) s' s'' ∧ s''.worker.pc = .finished exit report ∧
      report.metrics.status = .shuttingDown := by
  constructor
  · obtain ⟨s, hs, ht⟩ := exists_reach (step sample) (State.init ℕ) exportingRun runsAgain
      (by decide +kernel)
    obtain ⟨hb, hn⟩ := (Bool.and_eq_true _ _).mp ht
    obtain ⟨hacc, hst⟩ := (Bool.and_eq_true _ _).mp hb
    obtain ⟨s', hs', hst'⟩ := exists_reach (step sample) s (lateSteps 1) _ hn
    exact ⟨s, s', hs, by simpa using hacc, of_decide_eq_true hst, hs', of_decide_eq_true hst'⟩
  · obtain ⟨s, hs, ht⟩ := exists_reach (step sample) (State.init ℕ) overtakenRun overwritten
      (by decide +kernel)
    obtain ⟨hst, hn⟩ := (Bool.and_eq_true _ _).mp ht
    obtain ⟨s', hs', hb⟩ := exists_reach (step sample) s (controlSteps 1) _ hn
    obtain ⟨hst', hn'⟩ := (Bool.and_eq_true _ _).mp hb
    obtain ⟨s'', hs'', hr⟩ := exists_reach (step sample) s' (lateSteps 2) _ hn'
    obtain ⟨exit, report, hpc, hrep⟩ : ∃ exit report, s''.worker.pc = .finished exit report ∧
        report.metrics.status = .shuttingDown := by
      split at hr
      · exact ⟨_, _, by assumption, of_decide_eq_true hr⟩
      · cases hr
    exact ⟨s, s', s'', exit, report, hs, of_decide_eq_true hst, hs', of_decide_eq_true hst', hs'',
      hpc, hrep⟩

end EdenLogger.LifecycleStatus
