import EdenLogger.WorkerEffort
import EdenLogger.BatchClosing
import EdenLogger.HandleProgram

/-!
# Shutdown comes to an end

A stopped generation whose producers have closed gives its worker nothing to
wait for: every wait has a notification ahead. The worker's remaining steps
are then bounded by what it still holds and by the retries the collector asks
for, so under a fair scheduler and an answering collector it returns. A worker
that starts a batch whose deadline is no instant panics there instead; a run
of the generation does not go on behind that step, and what follows is about
the others.
-/

namespace EdenLogger.ShutdownProgress

open WakeUpPermit ExporterConfig ExporterLanes LogCollector GenerationState GenerationStep
open GenerationMoves GenerationFrames ListCells LaneTable LaneOwnership RecordFlow ReceiveSites
open ProducerWakeUps HandleProgram BatchLimits WorkerEffort RunRules RunCosts
open BatchClosing (CauseLaw causeLaw control_accepting)
open BatchExport (asksRetry)

variable {L : Type} {x : Exporter L} {s s' : State L} {a : Action L}

/-! ## What a command has performed -/

/-- The remainders of a command before it performs an operation for the first time. -/
def before (op : ControlOp) (c : Command) : List (List ControlOp) :=
  (List.range (c.program.idxOf op + 1)).map fun i => c.program.drop i

/-- The command has performed an operation. -/
def Performed (s : State L) (op : ControlOp) : Prop :=
  ∃ c, s.control.command = some c ∧ s.control.program ∉ before op c

/-- An operation the commands perform before they wait for the worker. -/
def isEarly (op : ControlOp) : Bool :=
  [Command.shutdown, .reconfigure, .drop].all fun c =>
    (before op c).all fun p => p.head? != some .awaitWorker

/-- A command performs the operation at the head of its program. -/
theorem performed_of_step {op op' : ControlOp} {c : Command} {rest : List ControlOp}
    (hp : op' :: rest ∈ before op c) (hrest : rest ∉ before op c) : op' = op := by
  simp only [before, List.mem_map, List.mem_range] at hp hrest
  obtain ⟨i, hi, hdrop⟩ := hp
  have hlt : i < c.program.length := by
    by_contra hge
    rw [List.drop_eq_nil_of_le (Nat.le_of_not_lt hge)] at hdrop
    cases hdrop
  rw [List.drop_eq_getElem_cons hlt] at hdrop
  obtain ⟨hhead, htail⟩ := List.cons.inj hdrop
  have hlast : i = c.program.idxOf op := by
    by_contra hne
    exact hrest ⟨i + 1, by omega, htail⟩
  subst hlast
  rw [← hhead]
  exact List.getElem_idxOf hlt

/-- Where the handle waits for the worker, an early operation lies behind it. -/
theorem awaiting_not_before {op : ControlOp} (hop : isEarly op = true) (c : Command)
    (rest : List ControlOp) : .awaitWorker :: rest ∉ before op c := fun hin => by
  have hall := List.all_eq_true.mp hop c (by cases c <;> simp)
  have hhead := List.all_eq_true.mp hall _ hin
  simp at hhead

/-- An early operation is performed by a step of the command. -/
theorem performed_of_move (op : ControlOp) (hop : isEarly op = true) (hm : Move x s a s')
    (h : Performed s' op) :
    Performed s op ∨ ∃ rest, a = .control ∧ s.control.program = op :: rest := by
  cases hm with
  | @command c hc hf =>
    obtain ⟨c', hc', hp⟩ := h
    cases hc'
    refine absurd ?_ hp
    simp only [before, List.mem_map, List.mem_range]
    exact ⟨0, Nat.succ_pos _, rfl⟩
  | @control op' rest hp hr =>
    obtain ⟨c, hc, hrest⟩ := h
    rw [control_command] at hc
    by_cases hin : s.control.program ∈ before op c
    · rw [hp] at hin
      rw [performed_of_step hin hrest] at hp
      exact Or.inr ⟨rest, rfl, hp⟩
    · exact Or.inl ⟨c, hc, hin⟩
  | @expireDeadline rest hp =>
    obtain ⟨c, hc, -⟩ := h
    refine Or.inl ⟨c, hc, ?_⟩
    rw [hp]
    exact awaiting_not_before hop c rest
  | _ => exact Or.inl h

/-- Acceptance is stopped before the shutdown notification is sent. -/
theorem performed_stop (h : Performed s .notifyShutdown) : Performed s .storeAccepting := by
  obtain ⟨c, hc, hp⟩ := h
  refine ⟨c, hc, fun hin => hp ?_⟩
  have hsub : ∀ c : Command, before .storeAccepting c ⊆ before .notifyShutdown c := by
    intro c
    cases c <;> decide
  exact hsub c hin

/-- A handle that waits for the worker has sent the shutdown notification. -/
theorem performed_of_awaiting (hb : BorrowLaw s) {rest : List ControlOp}
    (hp : s.control.program = .awaitWorker :: rest) : Performed s .notifyShutdown := by
  cases hc : s.control.command with
  | none =>
    have hnil := hb.idle hc
    rw [hp] at hnil
    cases hnil
  | some c =>
    refine ⟨c, hc, ?_⟩
    rw [hp]
    exact awaiting_not_before (by decide) c rest

/-! ## What the worker can still wait for -/

/-- Where the worker looks or waits for a record without having seen the shutdown. -/
def isOpen : WorkerPc L → Bool
  | .drain (.receiving site) | .take (.receiving site) _ _ | .pop site | .release site _ =>
    match site with
    | .receive | .nextPolled _ | .nextWoken _ => true
    | _ => false
  | .poll wait _ | .parked wait =>
    match wait with
    | .receive | .assembly _ => true
    | _ => false
  | _ => false

/-- A worker that has seen the shutdown looks for records without waiting. -/
def OpenLaw (k : Worker L) : Prop := isOpen k.pc = true → k.shuttingDown = false

/-- Entering `try_receive`. -/
theorem OpenLaw.receive {k : Worker L} {site : Site} (hpc : k.pc = tryReceive k.input site)
    (h : isOpen (.pop site : WorkerPc L) = true → k.shuttingDown = false) : OpenLaw k := by
  intro ho
  rw [hpc] at ho
  rcases tryReceive_cases k.input site with ht | ht <;> rw [ht] at ho <;> exact h ho

/-- The worker's steps keep the law. -/
theorem OpenLaw.move {o : Oracle} {w w' : World L} {k k' : Worker L} (h : OpenLaw k)
    (hm : WorkerMove x o w k w' k') : OpenLaw k' := by
  have hin : ∀ {pc}, k.pc = pc → isOpen pc = true → k.shuttingDown = false :=
    fun hpc ho => h (hpc ▸ ho)
  cases hm
  case drain d hpc => cases d <;> exact fun ho => hin hpc ho
  case take d i todo detached lane hl hpc => cases d <;> exact fun ho => hin hpc ho
  case detach d detached hpc => cases d <;> exact fun ho => hin hpc ho
  case popNone site hi hpc =>
    cases site with
    | firstDraining => exact OpenLaw.receive rfl fun ho => by cases ho
    | receive | nextPolled => exact fun _ => hin hpc rfl
    | _ => exact fun ho => by cases ho
  case pop site log input hi hpc => exact fun ho => hin hpc ho
  case release site log hpc => cases site <;> exact fun ho => by cases ho
  case chooseReceive site hp hs hpc =>
    refine OpenLaw.receive rfl fun ho => ?_
    rw [hs] at ho
    split at ho
    · cases ho
    · exact Bool.eq_false_of_not_eq_true ‹_›
  case assembleReceive a site hl hp hs hpc =>
    refine OpenLaw.receive rfl fun ho => ?_
    rw [hs] at ho
    split at ho
    · cases ho
    · exact Bool.eq_false_of_not_eq_true ‹_›
  case pollReady wait c cells hr hpc =>
    cases wait with
    | receive =>
      cases c with
      | shutdown => exact OpenLaw.receive rfl fun ho => by cases ho
      | _ => exact OpenLaw.receive rfl fun _ => hin hpc rfl
    | assembly b =>
      cases c with
      | records => exact OpenLaw.receive rfl fun _ => hin hpc rfl
      | _ => exact fun ho => by cases ho
    | _ => exact fun ho => by cases ho
  case pollNext wait c cells hr hpc => exact fun ho => hin hpc ho
  case suspend wait hpc => exact fun ho => hin hpc ho
  case wake wait hpc => exact fun ho => hin hpc ho
  case completed resume hpc => cases resume <;> exact fun ho => by cases ho
  all_goals exact fun ho => by cases ho

/-- The law holds in every run. -/
theorem openLaw {ok : State L → Action L → Prop}
    (h : ReachWhile (step x) ok (State.init L) s) : OpenLaw s.worker :=
  worker_invariant (I := OpenLaw) (fun ho => by cases ho) (fun hi hm => hi.move hm) h

/-- Where a failed worker waits for the shutdown. -/
def awaitsShutdown : WorkerPc L → Bool
  | .poll wait _ | .parked wait =>
    match wait with
    | .terminalShutdown _ => true
    | _ => false
  | _ => false

/-- Where the worker waits for the producers to close. -/
def awaitsClosing : WorkerPc L → Bool
  | .poll wait _ | .parked wait =>
    match wait with
    | .producersClosed | .terminalRecords _ => true
    | _ => false
  | _ => false

/-- The worker has the shutdown notification still ahead of it. -/
def ShutdownDue (k : Worker L) : Prop :=
  (k.shuttingDown = false ∧ hasFailed k.pc = false) ∨ awaitsShutdown k.pc = true

@[simp] theorem awaitsShutdown_tryReceive (input : LaneQueues L) (site : Site) :
    awaitsShutdown (tryReceive input site) = false := by
  rcases tryReceive_cases input site with h | h <;> rw [h] <;> rfl

@[simp] theorem awaitsClosing_tryReceive (input : LaneQueues L) (site : Site) :
    awaitsClosing (tryReceive input site) = false := by
  rcases tryReceive_cases input site with h | h <;> rw [h] <;> rfl

/-- The end of a wait is not a wait for the shutdown or for the producers. -/
@[simp] theorem awaits_waitReady (k : Worker L) (c : Cell) (wait : Wait) :
    awaitsShutdown (waitReady k c wait).pc = false ∧
      awaitsClosing (waitReady k c wait).pc = false := by
  cases wait <;> cases c <;>
    first
      | exact ⟨rfl, rfl⟩
      | exact ⟨awaitsShutdown_tryReceive _ _, awaitsClosing_tryReceive _ _⟩

/-- The worker never forgets the shutdown. -/
theorem shuttingDown_mono {o : Oracle} {w w' : World L} {k k' : Worker L}
    (hm : WorkerMove x o w k w' k') (h : k'.shuttingDown = false) : k.shuttingDown = false := by
  cases hm
  case pollReady wait c cells hr hpc => cases wait <;> cases c <;> first | exact h | cases h
  case release site log hpc => cases site <;> exact h
  all_goals exact h

/-- The worker begins to wait for the shutdown only while records are accepted,
and for the producers only while they may submit. -/
theorem awaits_of_move {o : Oracle} {w w' : World L} {k k' : Worker L}
    (hm : WorkerMove x o w k w' k') :
    (awaitsShutdown k'.pc = true → awaitsShutdown k.pc = true ∨ w.accepting = true) ∧
      (awaitsClosing k'.pc = true → awaitsClosing k.pc = true ∨ w.producersClosed = false) := by
  cases hm
  case detach d detached hpc =>
    cases d <;> exact ⟨(fun h => by cases h), fun h => by cases h⟩
  case popNone site hi hpc =>
    cases site with
    | firstDraining => simp [receivedNone]
    | _ => exact ⟨(fun h => by cases h), fun h => by cases h⟩
  case release site log hpc =>
    cases site <;> exact ⟨(fun h => by cases h), fun h => by cases h⟩
  case chooseReceive | assembleReceive => simp
  case pollReady => simp
  case pollNext hr hpc | suspend hpc | wake hpc =>
    exact ⟨fun h => Or.inl (by rw [hpc]; exact h), fun h => Or.inl (by rw [hpc]; exact h)⟩
  case closedWait hc hpc | terminalUnclosed hc hpc =>
    exact ⟨(fun h => by cases h), fun _ => Or.inr hc⟩
  case terminalWait ha hpc => exact ⟨fun _ => Or.inr ha, fun h => by cases h⟩
  case completed resume hpc =>
    cases resume <;> exact ⟨(fun h => by cases h), fun h => by cases h⟩
  all_goals exact ⟨(fun h => by cases h), fun h => by cases h⟩

/-- A notification that the worker takes is not due any more. -/
theorem not_due_of_taken {k : Worker L} {wait : Wait} (hc : .shutdown ∈ wait.cells) :
    ¬ ShutdownDue (waitReady k .shutdown wait) := by
  rintro (⟨hs, hf⟩ | hw)
  · cases wait with
    | receive | assembly => cases hs
    | terminalShutdown => cases hf
    | _ => simp [Wait.cells] at hc
  · simp at hw

/-- What stopping and closing guarantee the worker. -/
structure StopLaw (s : State L) : Prop where
  /-- Acceptance is stopped for good. -/
  accepting : Performed s .storeAccepting → s.world.accepting = false
  /-- The shutdown notification waits for the worker. -/
  asked : Performed s .notifyShutdown → ShutdownDue s.worker → s.world.shutdown.pending = true
  /-- The fence sets the flag first. -/
  closed : s.fence ≠ .armed → s.world.producersClosed = true
  /-- Its notification reaches a worker that waits for the producers. -/
  fenced : s.fence = .done → awaitsClosing s.worker.pc = true → s.world.records.pending = true

/-- What another party leaves of the worker's waits and notifications keeps the law. -/
theorem StopLaw.other (h : StopLaw s) (hc : s'.control = s.control) (hk : s'.worker = s.worker)
    (hf : s'.fence = s.fence) (ha : s'.world.accepting = s.world.accepting)
    (hp : s'.world.producersClosed = s.world.producersClosed)
    (hn : ∀ c, pendingAt s.world c = true → pendingAt s'.world c = true) : StopLaw s' := by
  refine ⟨fun hop => ?_, fun hop hd => ?_, fun hne => ?_, fun hdone hw => ?_⟩
  · rw [ha]
    exact h.accepting (by unfold Performed at hop ⊢; rwa [hc] at hop)
  · exact hn .shutdown
      (h.asked (by unfold Performed at hop ⊢; rwa [hc] at hop) (by rwa [hk] at hd))
  · rw [hp]
    exact h.closed (hf ▸ hne)
  · exact hn .records (h.fenced (hf ▸ hdone) (by rwa [hk] at hw))

/-- Only the worker takes notifications. -/
theorem pending_kept (hm : Move x s a s') (ha : ∀ o, a ≠ .worker o) {c : Cell}
    (hc : pendingAt s.world c = true) : pendingAt s'.world c = true := by
  cases hm with
  | producer hi hm =>
    have hf := producer_frame hm
    cases c with
    | shutdown => exact (congrArg Notify.pending hf.shutdown).trans hc
    | deadline => exact hc
    | flush => exact (congrArg Notify.pending hf.flush).trans hc
    | records => exact (producer_notify hm).1 hc
  | fenceNotify hf =>
    cases c with
    | records => exact Notify.pending_notifyOne _
    | _ => exact hc
  | worker hab hm => exact absurd rfl (ha _)
  | cancelWorker hr hab hw =>
    cases c <;> first | exact (Notify.pending_drop _).trans hc | exact hc
  | flush hj hm =>
    obtain ⟨hw, hflush⟩ := flush_world hm
    rw [hw]
    cases c with
    | flush =>
      rcases hflush with hsame | hone
      · exact (congrArg Notify.pending hsame).trans hc
      · exact (congrArg Notify.pending hone).trans (Notify.pending_notifyOne _)
    | _ => exact hc
  | @control op rest hp hr => exact control_pending s.world s.control op c hc
  | _ => exact hc

/-- The stop law is kept by every step. -/
theorem StopLaw.step (h : StopLaw s) (hpoll : PollLaw s.worker) (hm : Move x s a s') :
    StopLaw s' := by
  have hearly := performed_of_move .storeAccepting (by decide) hm
  have hsent := performed_of_move .notifyShutdown (by decide) hm
  cases hm with
  | @producer i p p' w' hi hm =>
    have hf := producer_frame hm
    exact h.other rfl rfl rfl hf.accepting hf.producersClosed fun c hc =>
      pending_kept (.producer hi hm) (by simp) hc
  | fenceClose hf hr ho =>
    exact ⟨h.accepting, h.asked, fun _ => rfl, fun hdone => by cases hdone⟩
  | fenceNotify hf =>
    refine ⟨h.accepting, h.asked, fun _ => h.closed ?_, fun _ _ => Notify.pending_notifyOne _⟩
    rw [hf]
    decide
  | @worker o w' k' hab hm =>
    have hf := worker_frame hm
    obtain ⟨hwait, hclosing⟩ := awaits_of_move hm
    refine ⟨fun hop => hf.accepting.trans (h.accepting hop), fun hop hd => ?_,
      fun hne => hf.producersClosed.trans (h.closed hne), fun hdone hw => ?_⟩
    · have hacc := h.accepting (performed_stop hop)
      have hdue : ShutdownDue s.worker := by
        rcases hd with ⟨hs, hfail⟩ | hw
        · exact Or.inl ⟨shuttingDown_mono hm hs, hasFailed_move hm hfail⟩
        · exact Or.inr ((hwait hw).resolve_right fun hc => by rw [hacc] at hc; cases hc)
      rcases worker_pending hm .shutdown with hsame | ⟨wait, cells, hpc, -, rfl⟩
      · exact hsame.trans (h.asked hop hdue)
      · unfold PollLaw at hpoll
        rw [hpc] at hpoll
        exact absurd hd (not_due_of_taken (hpoll List.mem_cons_self))
    · have hclosed := h.closed (by rw [show s.fence = .done from hdone]; decide)
      have hwaits := (hclosing hw).resolve_right fun hc => by rw [hclosed] at hc; cases hc
      rcases worker_pending hm .records with hsame | ⟨wait, cells, hpc, -, rfl⟩
      · exact hsame.trans (h.fenced hdone hwaits)
      · rw [(awaits_waitReady s.worker .records wait).2] at hw
        cases hw
  | cancelWorker hr hab hw =>
    exact h.other rfl rfl rfl rfl rfl fun c hc =>
      pending_kept (x := x) (.cancelWorker hr hab hw) (by simp) hc
  | @flush j c c' w' hj hm =>
    obtain ⟨hw, -⟩ := flush_world hm
    exact h.other rfl rfl rfl (by rw [hw]) (by rw [hw]) fun c hc =>
      pending_kept (x := x) (.flush hj hm) (by simp) hc
  | @control op rest hp hr =>
    have hf := controlStep_frame s.world s.control op
    have hkeep := control_accepting s.world s.control op
    refine ⟨fun hop => ?_, fun hop hd => ?_, fun hne => hf.producersClosed.trans (h.closed hne),
      fun hdone hw => control_pending s.world s.control op .records (h.fenced hdone hw)⟩
    · rcases hearly hop with hbefore | ⟨rest', -, hnow⟩
      · exact hkeep (h.accepting hbefore)
      · obtain ⟨rfl, -⟩ := List.cons.inj (hp.symm.trans hnow)
        rfl
    · rcases hsent hop with hbefore | ⟨rest', -, hnow⟩
      · exact control_pending s.world s.control op .shutdown (h.asked hbefore hd)
      · obtain ⟨rfl, -⟩ := List.cons.inj (hp.symm.trans hnow)
        exact Notify.pending_notifyOne _
  | command hc hf =>
    refine ⟨fun hop => ?_, fun hop hd => ?_, h.closed, h.fenced⟩
    · exact h.accepting ((hearly hop).resolve_right fun ⟨_, hne, _⟩ => by cases hne)
    · exact h.asked ((hsent hop).resolve_right fun ⟨_, hne, _⟩ => by cases hne) hd
  | expireDeadline hp =>
    refine ⟨fun hop => ?_, fun hop hd => ?_, h.closed, h.fenced⟩
    · exact h.accepting ((hearly hop).resolve_right fun ⟨_, hne, _⟩ => by cases hne)
    · exact h.asked ((hsent hop).resolve_right fun ⟨_, hne, _⟩ => by cases hne) hd
  | _ => exact ⟨h.accepting, h.asked, h.closed, h.fenced⟩

/-- The stop law holds in every run. -/
theorem stopLaw {ok : State L → Action L → Prop}
    (h : ReachWhile (step x) ok (State.init L) s) : StopLaw s :=
  invariant_of_moves_using (I := StopLaw) (J := fun s => PollLaw s.worker) (fun _ => pollLaw)
    ⟨(fun ⟨c, hc, _⟩ => by cases hc), (fun ⟨c, hc, _⟩ => by cases hc),
      fun hne => absurd rfl hne, fun hdone => by cases hdone⟩
    (fun _ _ _ hj _ hi _ hm => hi.step hj hm) h

/-! ## A stopped generation -/

/-- The shutdown notification was sent, and the producers have closed. -/
structure Stopped (s : State L) : Prop where
  asked : Performed s .notifyShutdown
  fence : s.fence = .done

/-- No remainder of a program goes back behind its shutdown notification. -/
def staysBehind (c : Command) (p : List ControlOp) : Bool :=
  (!(before .notifyShutdown c).contains p.tail || (before .notifyShutdown c).contains p) &&
    !(before .notifyShutdown c).contains (deadlineExpired ++ p.tail)

/-- A stopped generation stays stopped. -/
theorem Stopped.step (h : Stopped s) (hp' : ProgramLaw s) (hm : Move x s a s') : Stopped s' := by
  obtain ⟨⟨c, hc, hp⟩, hf⟩ := h
  have hcheck : staysBehind c s.control.program = true :=
    hp'.check (staysBehind c) (by cases c <;> decide +kernel)
  simp only [staysBehind, Bool.and_eq_true, Bool.or_eq_true, Bool.not_eq_true',
    List.contains_eq_mem, decide_eq_false_iff_not, decide_eq_true_eq] at hcheck
  cases hm with
  | fenceClose hf' => rw [hf] at hf'; cases hf'
  | fenceNotify hf' => rw [hf] at hf'; cases hf'
  | command hc' => rw [hc] at hc'; cases hc'
  | @control op rest hprog hr =>
    refine ⟨⟨c, (control_command _ _ _).trans hc, ?_⟩, hf⟩
    rw [hprog] at hcheck hp
    exact hcheck.1.resolve_right hp
  | @expireDeadline rest hprog =>
    refine ⟨⟨c, hc, ?_⟩, hf⟩
    rw [hprog] at hcheck
    exact hcheck.2
  | _ => exact ⟨⟨c, hc, hp⟩, hf⟩

/-- In a stopped generation no wait of the worker goes unheard. -/
theorem prompted (h : Reachable x s) (hs : Stopped s) :
    unprompted s.world s.worker = false := by
  have hlaw := stopLaw h
  have hopen := openLaw h
  unfold unprompted
  split
  · rename_i wait hpc
    rw [Bool.not_eq_false', List.any_eq_true]
    have hshutdown : .shutdown ∈ wait.cells → ShutdownDue s.worker →
        ∃ c ∈ wait.cells, pendingAt s.world c = true := fun hc hd =>
      ⟨.shutdown, hc, hlaw.asked hs.asked hd⟩
    unfold OpenLaw at hopen
    rw [hpc] at hopen
    cases wait with
    | receive | assembly =>
      refine hshutdown (by simp [Wait.cells]) (Or.inl ⟨hopen rfl, ?_⟩)
      rw [hpc]
      rfl
    | terminalShutdown =>
      refine hshutdown (by simp [Wait.cells]) (Or.inr ?_)
      rw [hpc]
      rfl
    | producersClosed | terminalRecords =>
      refine ⟨.records, by simp [Wait.cells], hlaw.fenced hs.fence ?_⟩
      rw [hpc]
      rfl
  · rfl

/-! ## What is left for the others -/

/-- Notifications a thread outside the callback may still send. -/
def closingLeft (p : Producer L) : ℕ :=
  match p.pc with
  | .idle => if p.lane.isSome then 1 else 0
  | .closing | .closed => 1
  | _ => 0

/-- Notifications the other parties may still send in a stopped generation. -/
def feedsLeft (s : State L) : ℕ :=
  (s.threads.map closingLeft).sum + (s.control.program.filter ControlOp.feeds).length

/-- A thread outside the callback changes no record and registers no lane. Its
notification is its last step. -/
theorem closing_of_move {i : ℕ} {w w' : World L} {p p' : Producer L}
    (hm : ProducerMove x i w p w' p') (hout : p.pc.outside = true) :
    closingLeft p' + (if ProducerPc.feeds p.pc then 1 else 0) ≤ closingLeft p ∧
      w'.lanes.length = w.lanes.length := by
  cases hm
  case close j lane hj hl hpc => simp [closingLeft, hpc, ProducerPc.feeds]
  case closed hpc => simp [closingLeft, hpc, ProducerPc.feeds, notifyRecords]
  all_goals
    rename_i hpc
    rw [hpc] at hout
    cases hout

/-- Each notification is one of those left, and no lane is registered any more. -/
theorem feedsLeft_step (hq : Quiescence s) (hb : BorrowLaw s) (hlaw : StopLaw s) (hs : Stopped s)
    (ho : LanesOwned s) (hm : Move x s a s') :
    feedsLeft s' + (if feeds s a then 1 else 0) ≤ feedsLeft s ∧
      s'.world.lanes.length = s.world.lanes.length := by
  have hclosed : s.world.producersClosed = true := hlaw.closed (by rw [hs.fence]; decide)
  have hcommand : s.control.command ≠ none := fun hn => by
    obtain ⟨c, hc, -⟩ := hs.asked
    rw [hn] at hc
    cases hc
  have hreturned : ∀ {j : ℕ} {c : FlushCall}, s.flushes[j]? = some c → c.returned = true :=
    fun hj => by
      by_contra hr
      exact hcommand (hb.alone _ (List.mem_of_getElem? hj) (Bool.eq_false_of_not_eq_true hr))
  cases hm with
  | spawn =>
    simp only [feedsLeft, feeds, List.map_append, List.map_cons, List.map_nil, List.sum_append,
      List.sum_cons, List.sum_nil, closingLeft]
    exact ⟨Nat.le_refl _, trivial⟩
  | enter hi hpc hr =>
    rw [hq.retired hclosed] at hr
    cases hr
  | @producer i p p' w' hi hm =>
    obtain ⟨hleft, hlen⟩ := closing_of_move hm (hq.outside hclosed p (List.mem_of_getElem? hi))
    obtain ⟨m, hsum, hset⟩ := sum_map_split closingLeft hi
    refine ⟨?_, hlen⟩
    simp only [feedsLeft, feeds, hi, Option.any_some, hsum, hset]
    omega
  | @exit i p hi hpc =>
    obtain ⟨m, hsum, hset⟩ := sum_map_split closingLeft hi
    refine ⟨?_, rfl⟩
    simp only [feedsLeft, feeds, hsum, hset, closingLeft, hpc]
    cases p.lane <;> simp
  | fenceClose hf =>
    rw [hs.fence] at hf
    cases hf
  | fenceNotify hf =>
    rw [hs.fence] at hf
    cases hf
  | worker hab hm => exact ⟨Nat.le_refl _, (worker_table hm ho.spare).length⟩
  | cancelWorker => exact ⟨Nat.le_refl _, rfl⟩
  | beginFlush hc => exact absurd hc hcommand
  | flush hj hm =>
    have hr := hreturned hj
    cases hm <;> simp_all [FlushCall.returned]
  | expireFlush hj hpc =>
    have hr := hreturned hj
    simp [FlushCall.returned, hpc] at hr
  | command hc hf => exact absurd hc hcommand
  | @control op rest hp hr =>
    refine ⟨?_, congrArg List.length (controlStep_frame s.world s.control op).lanes⟩
    simp only [feedsLeft, feeds, hp, List.head?_cons, Option.any_some, List.filter_cons]
    split
    · simp only [List.length_cons]
      omega
    · simp
  | @expireDeadline rest hp =>
    have hnone : deadlineExpired.filter ControlOp.feeds = [] := by decide
    have hawait : ControlOp.feeds .awaitWorker = false := rfl
    refine ⟨?_, rfl⟩
    simp only [feedsLeft, feeds, hp, List.filter_append, hnone, List.nil_append, List.filter_cons,
      hawait]
    exact Nat.le_refl _

/-! ## The worker can move -/

/-- The lanes a drain still has to swap out exist. -/
def TakeLaw (s : State L) : Prop :=
  ∀ d todo detached, s.worker.pc = .take d todo detached → ∀ i ∈ todo, i < s.world.lanes.length

/-- The take law is kept by every step. -/
theorem TakeLaw.step (h : TakeLaw s) (ho : LanesOwned s) (hm : Move x s a s') : TakeLaw s' := by
  have hmono := lanes_length_mono ho hm
  by_cases ha : ∀ o, a ≠ .worker o
  · have hk : s'.worker = s.worker := by
      cases hm with
      | worker hab hm => exact absurd rfl (ha _)
      | _ => rfl
    intro d todo detached hpc i hi
    exact (h d todo detached (hk ▸ hpc) i hi).trans_le hmono
  · cases hm with
    | worker hab hm =>
      intro d todo detached hpc i hi
      cases hm
      case drain d' hpc' =>
        cases hpc
        refine (ho.registry_range i ?_).trans_le hmono
        have hkept := mem_snapshot_order.mp hi
        rw [snapshot_lanes] at hkept
        exact (List.mem_filter.mp hkept).1
      case take hl hpc' =>
        cases hpc
        exact (h _ _ _ hpc' i (List.mem_cons_of_mem _ hi)).trans_le hmono
      case detach d' detached' hpc' => cases d' <;> cases hpc
      case popNone site hi' hpc' =>
        cases site with
        | firstDraining =>
          rcases tryReceive_cases s.worker.input .exitCheck with ht | ht <;>
            exact absurd (ht.symm.trans hpc) (by simp)
        | _ => cases hpc
      case release site log hpc' => cases site <;> cases hpc
      case chooseReceive site hp hs hpc' =>
        rcases tryReceive_cases s.worker.input site with ht | ht <;>
          exact absurd (ht.symm.trans hpc) (by simp)
      case assembleReceive site hl hp hs hpc' =>
        rcases tryReceive_cases s.worker.input site with ht | ht <;>
          exact absurd (ht.symm.trans hpc) (by simp)
      case pollReady wait c cells hr hpc' =>
        have htry : ∀ site, tryReceive s.worker.input site ≠ .take d todo detached := fun site => by
          rcases tryReceive_cases s.worker.input site with ht | ht <;> rw [ht] <;> simp
        cases wait <;> cases c <;> first | exact absurd hpc (htry _) | cases hpc
      case completed resume hpc' => cases resume <;> cases hpc
      all_goals cases hpc
    | _ => exact (ha fun o hc => by cases hc).elim

/-- The take law holds in every run. -/
theorem takeLaw {ok : State L → Action L → Prop}
    (h : ReachWhile (step x) ok (State.init L) s) : TakeLaw s :=
  invariant_of_moves_using (I := TakeLaw) (fun _ => lanesOwned)
    (fun _ _ _ hpc => by cases hpc) (fun _ _ _ hj _ hi _ hm => hi.step hj hm) h

/-- A worker that has not returned can take a step, if the lane it is to swap
out exists. -/
theorem workerStep_isSome (x : Exporter L) (o : Oracle) {w : World L} {k : Worker L}
    (htake : ∀ d i todo detached, k.pc = .take d (i :: todo) detached → i < w.lanes.length)
    (hf : k.pc.isFinished = false) : (workerStep x o w k).isSome = true := by
  cases hpc : k.pc with
  | take d todo detached =>
    cases todo with
    | nil => simp [workerStep, hpc]
    | cons i todo =>
      simp [workerStep, hpc, List.getElem?_eq_getElem (htake _ _ _ _ hpc)]
  | finished exit report =>
    rw [hpc] at hf
    cases hf
  | poll wait cells =>
    cases cells with
    | nil => simp [workerStep, hpc]
    | cons c cells =>
      simp only [workerStep, hpc]
      split <;> rfl
  | nextPart stack => cases stack <;> simp [workerStep, hpc]
  | completing resume settled => cases settled <;> simp [workerStep, hpc]
  | pop site =>
    simp only [workerStep, hpc]
    split <;> rfl
  | chooseFirst =>
    simp only [workerStep, hpc]
    split
    · rfl
    · split <;> rfl
  | first r =>
    simp only [workerStep, hpc]
    split <;> rfl
  | assemble a =>
    simp only [workerStep, hpc]
    split
    · split
      · rfl
      · split <;> rfl
    · rfl
  | offer a r =>
    simp only [workerStep, hpc]
    split
    · rfl
    · split <;> rfl
  | loadClosed =>
    simp only [workerStep, hpc]
    split <;> rfl
  | terminalAccepting retained =>
    simp only [workerStep, hpc]
    split <;> rfl
  | terminalClosed retained =>
    simp only [workerStep, hpc]
    split <;> rfl
  | _ => simp [workerStep, hpc]

/-- A worker that has neither returned nor been cancelled can take a step. -/
theorem worker_enabled (h : Reachable x s) (ha : s.aborted = false)
    (hf : s.worker.pc.isFinished = false) (o : Oracle) :
    (GenerationStep.step x s (.worker o)).isSome = true := by
  have htake := takeLaw h
  simp only [GenerationStep.step, ha, Bool.false_eq_true, if_false, Option.isSome_map]
  exact workerStep_isSome x o (fun d i todo detached hpc =>
    htake d (i :: todo) detached hpc i List.mem_cons_self) hf

/-! ## The end of a shutdown -/

/-- What the collector's answers add to the worker's work. -/
def retryCredit (s : State L) : Action L → ℕ
  | .worker o => if asksRetry s.worker o then 4 else 0
  | _ => 0

/-- Bound on the worker's steps in a stopped generation, besides retries. -/
def drainBound (s : State L) : ℕ :=
  effort s.world.lanes.length s.world s.worker +
    queuedEffort (drainEffort s.world.lanes.length) * feedsLeft s

/-- What every later state of a stopped generation satisfies. -/
structure Draining (x : Exporter L) (lanes : ℕ) (s : State L) : Prop where
  reachable : Reachable x s
  stopped : Stopped s
  lanes : s.world.lanes.length = lanes

/-- It stays so. -/
theorem Draining.step {lanes : ℕ} (h : Draining x lanes s)
    (hs : GenerationStep.step x s a = some s') : Draining x lanes s' := by
  have hm := stepMove hs
  refine ⟨h.reachable.next trivial hs, h.stopped.step (programLaw h.reachable) hm, ?_⟩
  exact (feedsLeft_step (quiescence h.reachable) (borrowLaw h.reachable) (stopLaw h.reachable)
    h.stopped (lanesOwned h.reachable) hm).2.trans h.lanes

/-- Every step of a stopped generation is paid for, by retries alone. -/
theorem Draining.paid {lanes : ℕ} (hv : x.config.validate = .ok ()) (h : Draining x lanes s)
    (hm : Move x s a s') :
    effort lanes s'.world s'.worker + queuedEffort (drainEffort lanes) * feedsLeft s' +
        workerCost s a ≤
      effort lanes s.world s.worker + queuedEffort (drainEffort lanes) * feedsLeft s +
        retryCredit s a := by
  have hr := h.reachable
  have hstep := effort_step (limitLaw hv hr) (pollLaw hr) (lanesOwned hr)
    h.lanes.le hm
  have hleft := (feedsLeft_step (quiescence hr) (borrowLaw hr) (stopLaw hr) h.stopped
    (lanesOwned hr) hm).1
  have hmul := Nat.mul_le_mul_left (queuedEffort (drainEffort lanes)) hleft
  rw [Nat.mul_add] at hmul
  have hcredit : workCredit lanes s a ≤
      retryCredit s a + queuedEffort (drainEffort lanes) * if feeds s a then 1 else 0 := by
    cases a with
    | worker o =>
      simp only [workCredit, workerCredit, prompted hr h.stopped, retryCredit]
      exact Nat.le_add_right _ _
    | _ =>
      simp only [workCredit, retryCredit]
      split <;> omega
  omega

/-- The worker's steps in a stopped generation are bounded. -/
theorem drain_run (hv : x.config.validate = .ok ()) (h : Reachable x s) (hs : Stopped s)
    {t : State L} {c : Account}
    (hr : Reach (booked (GenerationStep.step x) workerCost retryCredit) (s, .empty) (t, c)) :
    c.spent ≤ drainBound s + c.credited := by
  have hI : ∀ u, Reach (GenerationStep.step x) s u → Draining x s.world.lanes.length u :=
    fun u hu => hu.invariant (I := Draining x s.world.lanes.length) ⟨h, hs, rfl⟩
      fun _ _ _ hd _ hst => hd.step hst
  have hrun := amortised (I := Draining x s.world.lanes.length) (J := fun _ => True)
    (φ := fun u => effort s.world.lanes.length u.world u.worker +
      queuedEffort (drainEffort s.world.lanes.length) * feedsLeft u) hI
    (fun _ _ _ _ _ _ => trivial) (fun _ _ _ hd _ _ hst => hd.paid hv (stepMove hst)) hr trivial
  unfold drainBound
  omega

/-- A handle that waits, and a fence that is through, stop the generation. -/
theorem stopped_of_awaiting (h : Reachable x s) {rest : List ControlOp}
    (hp : s.control.program = .awaitWorker :: rest) (hf : s.fence = .done) : Stopped s :=
  ⟨performed_of_awaiting (borrowLaw h) hp, hf⟩

/-- Shutdown terminates. From any state in which the handle waits for the worker
and the producers have closed, the worker takes at most `drainBound` steps and
four more for every retry the collector asks for, in whatever order the
parties move; and until it returns or is cancelled it can always take one.
Left out is a worker that panics at the deadline of a batch. -/
theorem shutdown_terminates (hv : x.config.validate = .ok ()) (h : Reachable x s)
    {rest : List ControlOp} (hp : s.control.program = .awaitWorker :: rest)
    (hf : s.fence = .done) {t : State L} {c : Account}
    (hr : Reach (booked (GenerationStep.step x) workerCost retryCredit) (s, .empty) (t, c)) :
    c.spent ≤ drainBound s + c.credited ∧
      (t.aborted = true ∨ t.worker.pc.isFinished = true ∨
        ∀ o, (GenerationStep.step x t (.worker o)).isSome = true) := by
  refine ⟨drain_run hv h (stopped_of_awaiting h hp hf) hr, ?_⟩
  have ht : Reachable x t := h.trans (reach_of_booked hr)
  by_cases ha : t.aborted = true
  · exact Or.inl ha
  · by_cases hw : t.worker.pc.isFinished = true
    · exact Or.inr (Or.inl hw)
    · exact Or.inr (Or.inr fun o => worker_enabled ht (Bool.eq_false_of_not_eq_true ha)
        (Bool.eq_false_of_not_eq_true hw) o)

/-- One record is queued, the handle waits for the worker, and the fence is through. -/
def awaitingRun : List (Action ℕ) :=
  .spawn :: submitAlone 0 3 ++ .command .shutdown :: controlSteps 13 ++ [.fence, .fence]

/-- The state after it. -/
def awaiting : State ℕ :=
  (replay (step sample) noCheck (State.init ℕ) awaitingRun).getD (State.init ℕ)

/-- It is reachable. -/
theorem reachable_awaiting : Reachable sample awaiting := reach_getD (by decide +kernel)

/-- What the handle does behind the worker. -/
def behindAwaiting : List ControlOp :=
  stopAcceptance ++ ledger ++ [.storeStopped, .notifyProgress]

/-- The handle waits. -/
theorem program_awaiting : awaiting.control.program = .awaitWorker :: behindAwaiting := by
  decide +kernel

/-- Whether the worker has returned after so many steps. -/
def returnedAfter (steps : ℕ) (p : State ℕ × Account) : Bool :=
  p.1.worker.pc.isFinished && decide (p.2 = ⟨steps, 0⟩)

/-- From there the worker returns after thirty-nine steps. -/
theorem shutdown_terminates_queued : ∃ t : State ℕ, Reachable sample t ∧
    t.worker.pc.isFinished = true ∧ 39 ≤ drainBound awaiting := by
  obtain ⟨⟨t, c⟩, hr, hp⟩ := exists_reach (booked (step sample) workerCost retryCredit)
    (awaiting, .empty) (workerSteps 39 (.ok 1 0)) (returnedAfter 39) (by decide +kernel)
  obtain ⟨hfinished, hc⟩ := (Bool.and_eq_true _ _).mp hp
  have hbound := (shutdown_terminates (by decide +kernel) reachable_awaiting program_awaiting
    (by decide +kernel) hr).1
  obtain rfl : c = ⟨39, 0⟩ := of_decide_eq_true hc
  exact ⟨t, reachable_awaiting.trans (reach_of_booked hr), hfinished, hbound⟩

/-- The worker's own actions. -/
def isWorkerStep : Action L → Prop
  | .worker _ => True
  | _ => False

/-- Shutdown completes. In every infinite run from such a state that is weakly
fair to the worker and in which the collector asks for finitely many retries,
the worker returns or is cancelled. Left out are runs in which it panics at the
deadline of a batch. -/
theorem shutdown_completes (hv : x.config.validate = .ok ()) {state : ℕ → State L}
    {label : ℕ → Action L} (h : Reachable x (state 0)) {rest : List ControlOp}
    (hp : (state 0).control.program = .awaitWorker :: rest) (hf : (state 0).fence = .done)
    (hrun : Endless (GenerationStep.step x) state label)
    (hfair : WeaklyFair (GenerationStep.step x) state label isWorkerStep) {k : ℕ}
    (hretries : ∀ n, (accountOf workerCost retryCredit state label n).credited ≤ k) :
    ∃ n, (state n).aborted = true ∨ (state n).worker.pc.isFinished = true := by
  have hstopped := stopped_of_awaiting h hp hf
  have hbound : ∀ n, (accountOf workerCost retryCredit state label n).spent ≤
      drainBound (state 0) + k := fun n => by
    have hle := drain_run hv h hstopped (hrun.booked n)
    have hk := hretries n
    omega
  refine eventually_of_bounded (fun u => u.aborted = true ∨ u.worker.pc.isFinished = true)
    hbound (fun n hw => ?_) (fun n hg => ?_) hfair
  · cases hl : label n with
    | worker o => exact Nat.one_pos
    | _ => rw [hl] at hw; exact hw.elim
  · rw [not_or] at hg
    refine ⟨.worker ⟨[], 0, true, .fatal⟩, trivial, ?_⟩
    exact worker_enabled (h.trans (hrun.reach n)) (Bool.eq_false_of_not_eq_true hg.1)
      (Bool.eq_false_of_not_eq_true hg.2) _

/-- A script is followed, and threads appear for ever after. -/
def thenThreads (script : List (Action ℕ)) (n : ℕ) : Action ℕ := script.getD n .spawn

/-- The states of that run. -/
def scripted (s : State ℕ) (script : List (Action ℕ)) : ℕ → State ℕ :=
  follow (step sample) s (thenThreads script)

/-- Behind the script threads appear. -/
theorem thenThreads_behind {script : List (Action ℕ)} {n : ℕ} (hn : script.length ≤ n) :
    thenThreads script n = .spawn := by
  rw [thenThreads, List.getD_eq_getElem?_getD, List.getElem?_eq_none hn, Option.getD_none]

/-- Whoever moves follows the script, or is a new thread. -/
theorem thenThreads_cases (script : List (Action ℕ)) (n : ℕ) :
    thenThreads script n ∈ script ∨ thenThreads script n = .spawn := by
  rcases Nat.lt_or_ge n script.length with hn | hn
  · refine .inl ?_
    rw [thenThreads, List.getD_eq_getElem?_getD, List.getElem?_eq_getElem hn]
    exact List.getElem_mem hn
  · exact .inr (thenThreads_behind hn)

/-- The run is endless if the script can be followed. -/
theorem endless_scripted {s : State ℕ} {script : List (Action ℕ)}
    (h : ∀ m ∈ List.range script.length,
      (step sample (scripted s script m) (thenThreads script m)).isSome = true) :
    Endless (step sample) (scripted s script) (thenThreads script) := by
  refine endless_follow fun n => ?_
  by_cases hn : n < script.length
  · exact h n (List.mem_range.mpr hn)
  · rw [thenThreads_behind (Nat.le_of_not_lt hn)]
    rfl

/-- The threads that appear change nothing else. -/
theorem scripted_behind (s : State ℕ) (script : List (Action ℕ)) (steps : ℕ)
    (hsteps : script.length ≤ steps) (n : ℕ) :
    (scripted s script (steps + n)).world = (scripted s script steps).world ∧
      (scripted s script (steps + n)).worker = (scripted s script steps).worker ∧
      (scripted s script (steps + n)).flushes = (scripted s script steps).flushes := by
  induction n with
  | zero => exact ⟨rfl, rfl, rfl⟩
  | succ n ih =>
    have hnext : scripted s script (steps + (n + 1)) =
        { scripted s script (steps + n) with
          threads := (scripted s script (steps + n)).threads ++ [⟨.idle, none⟩] } := by
      rw [scripted, ← Nat.add_assoc, follow, thenThreads_behind (by omega)]
      rfl
    rw [hnext]
    exact ih

/-- The worker's steps up to its return. -/
def lastSteps : List (Action ℕ) := workerSteps 39 (.ok 1 0)

/-- Behind them the worker has returned. -/
theorem finished_awaiting (n : ℕ) :
    (scripted awaiting lastSteps (39 + n)).worker.pc.isFinished = true := by
  rw [(scripted_behind awaiting lastSteps 39 (by decide +kernel) n).2.1]
  decide +kernel

/-- In that run the worker returns. -/
theorem shutdown_completes_queued :
    ∃ n, (scripted awaiting lastSteps n).aborted = true ∨
      (scripted awaiting lastSteps n).worker.pc.isFinished = true := by
  refine shutdown_completes (x := sample) (k := 0) (by decide +kernel)
    reachable_awaiting program_awaiting (by decide +kernel)
    (endless_scripted (by decide +kernel)) (fun n hcan => ?_) (fun n => ?_)
  · obtain ⟨a, hw, hs⟩ := hcan (39 + n) (Nat.le_add_left n 39)
    have hf := finished_awaiting n
    cases a with
    | worker o =>
      simp only [step] at hs
      split at hs
      · cases hs
      · rw [Option.isSome_map] at hs
        unfold WorkerPc.isFinished at hf
        split at hf
        · rename_i hpc
          simp [workerStep, hpc] at hs
        · cases hf
    | _ => exact hw.elim
  · induction n with
    | zero => exact Nat.le_refl _
    | succ n ih =>
      have hcredit : retryCredit (scripted awaiting lastSteps n) (thenThreads lastSteps n) = 0 := by
        rcases thenThreads_cases lastSteps n with hl | hl
        · rw [List.eq_of_mem_replicate hl]
          cases hpc : (scripted awaiting lastSteps n).worker.pc <;>
            simp [retryCredit, asksRetry, hpc]
        · rw [hl]
          rfl
      simp only [accountOf, book, hcredit]
      exact ih

end EdenLogger.ShutdownProgress
