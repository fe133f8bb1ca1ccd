import EdenLogger.BatchExport
import EdenLogger.BatchLimits
import EdenLogger.Halving

/-!
# How often a record is sent

A record leaves the process more than once only when an answer makes the worker
send it again: the collector asks for a retry, or refuses a request in which
the record stood beside others. The second kind halves the record's part, so
it happens at most logarithmically often in the batch limit, and behind the
completion of its ticket a record is not sent at all.
-/

namespace EdenLogger.RecordCopies

open MachineWord ExporterConfig ExporterLanes GenerationState GenerationStep GenerationMoves
open GenerationFrames RecordFlow BatchLimits BatchExport Halving RunRules

variable {L : Type} {x : Exporter L} {s s' : State L} {a : Action L} {t : ℕ}

/-- Whether a record has the ticket. -/
def ofTicket (t : ℕ) (r : MappedLog) : Bool := decide (r.ticket = t)

/-- Copies of the record with the ticket that were handed to the client. -/
def copies (t : ℕ) (w : World L) : ℕ := w.history.requests.flatten.countP (ofTicket t)

/-- The parts that are to be sent. -/
def toSend : WorkerPc L → List (List MappedLog)
  | .awaitReply e => e.stack
  | .terminalInflight _ => []
  | pc => parts pc

/-- The parts that can still be halved. -/
def toHalve : WorkerPc L → List (List MappedLog)
  | .terminalInflight _ => []
  | pc => parts pc

/-- The records that were taken into an export or dropped as oversize, and are not completed. -/
def begun (pc : WorkerPc L) : List MappedLog := (held pc).parts ++ (held pc).settled

/-- How often the ticket was taken into an export or dropped as oversize. -/
def entered (t : ℕ) (w : World L) (k : Worker L) : ℕ :=
  (begun k.pc).countP (ofTicket t) + w.history.completed.count t

/-- Why a record was sent again. -/
structure Resent where
  /-- Retries asked for requests that held it. -/
  retried : ℕ
  /-- Refusals of requests that held it and others. -/
  refused : ℕ
  deriving DecidableEq

/-- Note an answer that makes the worker send the record again. -/
def Resent.note (t : ℕ) (n : Resent) (records : List MappedLog) : Reply → Resent
  | .retryable => if records.any (ofTicket t) then { n with retried := n.retried + 1 } else n
  | .invalidPayload =>
    if records.any (ofTicket t) && decide (records.length ≠ 1) then
      { n with refused := n.refused + 1 }
    else n
  | _ => n

/-- Note a step of the worker: only answers are noted. -/
def noteStep (t : ℕ) (k : Worker L) (o : Oracle) (n : Resent) : Resent :=
  match k.pc with
  | .awaitReply e => n.note t e.records o.reply
  | _ => n

/-- Note a step. -/
def resend (t : ℕ) (s : State L) (a : Action L) (_ : State L) (n : Resent) : Resent :=
  match a with
  | .worker o => noteStep t s.worker o n
  | _ => n

/-- The steps of a generation, with the reasons for sending one record again. -/
abbrev resendingStep (x : Exporter L) (t : ℕ) := monitored (GenerationStep.step x) (resend t)

/-! ## What a step of the worker does to a record's copies -/

/-- What a worker step does to the parts: nothing new, a batch begins, a part
is sent, its answer asks for it again, or its halves take its place. -/
inductive CopyMove (o : Oracle) (w : World L) (k : Worker L) (w' : World L) (k' : Worker L) :
    Prop where
  | keep (hq : w'.history.requests = w.history.requests) (hs : toSend k'.pc <:+ toSend k.pc)
      (hh : toHalve k'.pc <:+ toHalve k.pc)
      (he : ∀ t, entered t w k ≤ entered t w' k')
      (hr : ∀ e, k.pc = .awaitReply e → o.reply ≠ .retryable ∧
        (o.reply = .invalidPayload → e.records.length = 1))
  | begin {batch : List MappedLog} (hq : w'.history.requests = w.history.requests)
      (hpc' : k'.pc = .startExport batch) (hex : exporting k.pc = false)
      (he : ∀ t, entered t w k + batch.countP (ofTicket t) ≤ entered t w' k')
  | send {e : Attempt} (hq : w'.history.requests = w.history.requests ++ [e.records])
      (hpc : k.pc = .attempt e) (hpc' : k'.pc = .awaitReply e)
      (he : ∀ t, entered t w k ≤ entered t w' k')
  | again {e e' : Attempt} (hq : w'.history.requests = w.history.requests)
      (hr : o.reply = .retryable) (hpc : k.pc = .awaitReply e) (hpc' : k'.pc = .retrySleep e')
      (hparts : e'.records = e.records ∧ e'.stack = e.stack)
      (he : ∀ t, entered t w k ≤ entered t w' k')
  | halve {e : Attempt} (hq : w'.history.requests = w.history.requests)
      (hr : o.reply = .invalidPayload) (hl : e.records.length ≠ 1) (hpc : k.pc = .awaitReply e)
      (hpc' : k'.pc = .nextPart (splitRecords e.records ++ e.stack))
      (he : ∀ t, entered t w k ≤ entered t w' k')

/-- Outside an export no part is sent or halved. -/
theorem outside_export {pc : WorkerPc L} (h : exporting pc = false) :
    toSend pc = [] ∧ toHalve pc = [] := by
  cases pc
  case completing resume rest | notifyProgress resume rest =>
    cases resume with
    | nextPart stack => cases h
    | loopTop | assemble a => exact ⟨rfl, rfl⟩
  case startExport | nextPart | attempt | awaitReply | retrySleep | retried | countRejected =>
    cases h
  all_goals exact ⟨rfl, rfl⟩

theorem exporting_tryReceive (input : LaneQueues L) (site : Site) :
    exporting (tryReceive input site) = false := by
  unfold tryReceive
  split <;> rfl

theorem begun_tryReceive (input : LaneQueues L) (site : Site) :
    begun (tryReceive input site) = [] := by
  simp only [begun, held_tryReceive, List.append_nil]

/-- A step that stays outside an export begins nothing. -/
theorem CopyMove.quiet {o : Oracle} {w w' : World L} {k k' : Worker L}
    (hq : w'.history.requests = w.history.requests) (hex : exporting k'.pc = false)
    (he : ∀ t, entered t w k ≤ entered t w' k') (hpc : ∀ e, k.pc ≠ .awaitReply e) :
    CopyMove o w k w' k' := by
  obtain ⟨hs, hh⟩ := outside_export hex
  refine .keep hq ?_ ?_ he fun e h => absurd h (hpc e)
  · rw [hs]
    exact List.nil_suffix
  · rw [hh]
    exact List.nil_suffix

/-- Where the same records are begun, nothing is entered. -/
theorem entered_keep {w w' : World L} {k k' : Worker L} (hb : begun k'.pc = begun k.pc)
    (hc : w'.history.completed = w.history.completed) (t : ℕ) :
    entered t w k ≤ entered t w' k' := by
  unfold entered
  rw [hb, hc]

/-- A step that leaves the parts as they are. -/
theorem CopyMove.same {o : Oracle} {w w' : World L} {k k' : Worker L}
    (hq : w'.history.requests = w.history.requests)
    (hc : w'.history.completed = w.history.completed) (hs : toSend k'.pc = toSend k.pc)
    (hh : toHalve k'.pc = toHalve k.pc) (hb : begun k'.pc = begun k.pc)
    (hpc : ∀ e, k.pc ≠ .awaitReply e) : CopyMove o w k w' k' := by
  refine .keep hq ?_ ?_ (entered_keep hb hc) fun e h => absurd h (hpc e)
  · rw [hs]
  · rw [hh]

/-- Records that are begun besides are entered. -/
theorem entered_more {w w' : World L} {k k' : Worker L} {more : List MappedLog}
    (hb : begun k'.pc = more ++ begun k.pc) (hc : w'.history.completed = w.history.completed)
    (t : ℕ) : entered t w k + more.countP (ofTicket t) ≤ entered t w' k' := by
  unfold entered
  rw [hb, hc, List.countP_append]
  omega

/-- So it is where nothing was begun. -/
theorem entered_idle {w w' : World L} {k k' : Worker L} (hb : begun k.pc = [])
    (hc : w'.history.completed = w.history.completed) (t : ℕ) :
    entered t w k ≤ entered t w' k' := by
  unfold entered
  rw [hb, hc, List.countP_nil]
  omega

/-- An answer that settles a part ends its sending. -/
theorem settled_move {o : Oracle} {w w' : World L} {k k' : Worker L} {e : Attempt}
    (hq : w'.history.requests = w.history.requests)
    (hc : w'.history.completed = w.history.completed)
    (hpc' : k'.pc = .completing (.nextPart e.stack) e.records ∨
      ∃ rejected, k'.pc = .countRejected e rejected) (hpc : k.pc = .awaitReply e)
    (hr : o.reply ≠ .retryable ∧ (o.reply = .invalidPayload → e.records.length = 1)) :
    CopyMove o w k w' k' := by
  have hplace : toSend k'.pc = e.stack ∧ toHalve k'.pc = e.stack ∧
      begun k'.pc = e.stack.flatten ++ e.records := by
    rcases hpc' with hpc' | ⟨rejected, hpc'⟩ <;> rw [hpc'] <;> exact ⟨rfl, rfl, rfl⟩
  obtain ⟨hs, hh, hb⟩ := hplace
  refine .keep hq ?_ ?_ (fun t => ?_) fun e' he => ?_
  · rw [hpc, hs]
    exact List.suffix_refl _
  · rw [hpc, hh]
    exact List.suffix_cons _ _
  · have hbefore : begun k.pc = attemptParts e ++ [] := by
      rw [hpc]
      rfl
    simp only [entered, hb, hbefore, hc, attemptParts, List.countP_append, List.countP_nil]
    omega
  · rw [hpc] at he
    cases he
    exact hr

/-- Completing a ticket keeps its record entered. -/
theorem ticket_move {o : Oracle} {w w' : World L} {k k' : Worker L} {resume : Resume}
    {r : MappedLog} {rest : List MappedLog} (hq : w'.history.requests = w.history.requests)
    (hc : w'.history.completed = w.history.completed ++ [r.ticket])
    (hpc' : k'.pc = .completing resume rest ∨ k'.pc = .notifyProgress resume rest)
    (hpc : k.pc = .completing resume (r :: rest)) : CopyMove o w k w' k' := by
  refine .keep hq ?_ ?_ (fun t => ?_) (by simp [hpc])
  · rcases hpc' with hpc' | hpc' <;> rw [hpc, hpc'] <;> cases resume <;> exact List.suffix_refl _
  · rcases hpc' with hpc' | hpc' <;> rw [hpc, hpc'] <;> cases resume <;> exact List.suffix_refl _
  · have hbegun : begun k'.pc = (resumeHolding resume : Holding L).parts ++ rest := by
      rcases hpc' with hpc' | hpc' <;> rw [hpc'] <;> rfl
    have hbefore : begun k.pc = (resumeHolding resume : Holding L).parts ++ r :: rest := by
      rw [hpc]
      rfl
    simp only [entered, hbegun, hbefore, hc, List.countP_append, List.countP_cons,
      List.count_append, List.count_singleton, ofTicket, decide_eq_true_eq, beq_iff_eq]
    omega

/-- Every worker step is one of these. -/
theorem copyMove {o : Oracle} {w w' : World L} {k k' : Worker L} (hm : WorkerMove x o w k w' k') :
    CopyMove o w k w' k' := by
  cases hm
  case detach d detached hpc =>
    exact .quiet rfl (by cases d <;> rfl) (entered_idle (by rw [hpc]; rfl) rfl) (by simp [hpc])
  case popNone site hi hpc =>
    have hbegun : begun k.pc = [] := by rw [hpc]; rfl
    cases site
    case nextDraining a | nextWoken a =>
      refine .begin rfl rfl (by rw [hpc]; rfl) fun t => entered_more ?_ rfl t
      rw [hbegun]
      rfl
    case firstDraining =>
      exact .quiet rfl (exporting_tryReceive _ _) (entered_idle hbegun rfl) (by simp [hpc])
    all_goals exact .quiet rfl rfl (entered_idle hbegun rfl) (by simp [hpc])
  case release site log hpc =>
    exact .quiet rfl (by cases site <;> rfl) (entered_idle (by rw [hpc]; rfl) rfl) (by simp [hpc])
  case chooseReceive site hp hs hpc | assembleReceive a site hl hp hs hpc =>
    exact .quiet rfl (exporting_tryReceive _ _) (entered_idle (by rw [hpc]; rfl) rfl)
      (by simp [hpc])
  case pollReady wait c cells hr hpc =>
    have hq : (pollCell w o c).2.history = w.history := by cases c <;> rfl
    have hquiet : exporting (waitReady k c wait).pc = false →
        begun (waitReady k c wait).pc = begun k.pc →
        CopyMove o w k (dropWaits (pollCell w o c).2) (waitReady k c wait) := fun hex hb =>
      .quiet (congrArg History.requests hq) hex
        (entered_keep hb (congrArg History.completed hq)) (by simp [hpc])
    cases wait with
    | receive =>
      refine hquiet ?_ ?_
      · cases c <;> exact exporting_tryReceive _ _
      · rw [hpc]
        cases c <;> exact begun_tryReceive _ _
    | assembly a =>
      by_cases hc : c = .records
      · subst hc
        refine hquiet (exporting_tryReceive _ _) ?_
        rw [hpc]
        exact begun_tryReceive _ _
      · -- any other branch closes the batch
        have hpc' : (waitReady k c (.assembly a)).pc = .startExport a.batch := by
          cases c <;> first | rfl | exact absurd rfl hc
        refine .begin (congrArg History.requests hq) hpc' (by rw [hpc]; rfl) fun t =>
          entered_more ?_ (congrArg History.completed hq) t
        rw [hpc', hpc]
        rfl
    | _ => exact hquiet rfl (by rw [hpc]; rfl)
  case pollNext wait c cells hr hpc =>
    have hq : (pollCell w o c).2.history = w.history := by cases c <;> rfl
    refine .quiet (congrArg History.requests hq) rfl (entered_keep ?_ ?_) (by simp [hpc])
    · rw [hpc]
      rfl
    · rw [hq]
  case startExport batch hpc =>
    refine .same rfl rfl (by rw [hpc]; rfl) (by rw [hpc]; rfl) ?_ (by simp [hpc])
    rw [hpc]
    simp only [begun, held, List.flatten_cons, List.flatten_nil, List.append_nil]
  case attempt e hpc => exact .send rfl hpc rfl (entered_keep (by rw [hpc]; rfl) rfl)
  case acknowledged e accepted hr hpc => exact settled_move rfl rfl (Or.inl rfl) hpc (by simp [hr])
  case partialSuccess e accepted rejected hr hn hpc =>
    exact settled_move rfl rfl (Or.inr ⟨rejected, rfl⟩) hpc (by simp [hr])
  case rejectedAlone e hr hl hpc =>
    exact settled_move rfl rfl (Or.inl rfl) hpc ⟨by simp [hr], fun _ => hl⟩
  case backOff e hr hpc =>
    exact .again rfl hr hpc rfl ⟨rfl, rfl⟩ (entered_keep (by rw [hpc]; rfl) rfl)
  case split e hr hl hpc =>
    refine .halve rfl hr hl hpc rfl (entered_keep ?_ rfl)
    simp only [begun, hpc, held, attemptParts, List.flatten_append, splitRecords_flatten]
  case fatal e hr hpc =>
    refine .keep rfl List.nil_suffix List.nil_suffix (entered_keep ?_ rfl) fun e' _ => ?_
    · rw [hpc]
      rfl
    · rw [hr]
      exact ⟨by simp, by simp⟩
  case assembleFull a hl hpc =>
    exact .begin rfl rfl (by rw [hpc]; rfl) fun t => entered_more (by rw [hpc]; rfl) rfl t
  case offerCarry a r ho hf hpc =>
    exact .begin rfl rfl (by rw [hpc]; rfl) fun t => entered_more (by rw [hpc]; rfl) rfl t
  case completed resume hpc =>
    cases resume with
    | nextPart stack =>
      exact .same rfl rfl (by rw [hpc]; rfl) (by rw [hpc]; rfl) (by rw [hpc]; rfl) (by simp [hpc])
    | loopTop | assemble a =>
      exact .quiet rfl rfl (entered_keep (by rw [hpc]; rfl) rfl) (by simp [hpc])
  case ignored resume r rest hc hpc =>
    exact ticket_move rfl rfl (Or.inl rfl) hpc
  case complete resume r rest t hc hpc =>
    exact ticket_move rfl rfl (Or.inr rfl) hpc
  case notifyProgress resume rest hpc =>
    refine .same rfl rfl ?_ ?_ ?_ (by simp [hpc]) <;> rw [hpc] <;> cases resume <;> rfl
  case first | offerFits | firstOversize | offerOversize | drain | take | pop | chooseCarried
      | assembleCarried | partsDone | batchDone =>
    rename_i hpc
    exact .quiet rfl rfl (entered_idle (by rw [hpc]; rfl) rfl) (by simp [hpc])
  case nextPart | slept | retried | countRejected =>
    rename_i hpc
    exact .same rfl rfl (by rw [hpc]; rfl) (by rw [hpc]; rfl) (by rw [hpc]; rfl) (by simp [hpc])
  all_goals
    rename_i hpc
    exact .quiet rfl rfl (entered_keep (by rw [hpc]; rfl) rfl) (by simp [hpc])

/-- What was entered stays entered. -/
theorem CopyMove.entered_le {o : Oracle} {w w' : World L} {k k' : Worker L}
    (h : CopyMove o w k w' k') (t : ℕ) : entered t w k ≤ entered t w' k' := by
  cases h with
  | keep hq hs hh he hr => exact he t
  | begin hq hpc' hex he => exact (Nat.le_add_right _ _).trans (he t)
  | send hq hpc hpc' he => exact he t
  | again hq hr hpc hpc' hparts he => exact he t
  | halve hq hr hl hpc hpc' he => exact he t

/-! ## The account of a record's copies -/

/-- Copies that are to be sent if no answer asks for more. -/
def waiting (t : ℕ) (pc : WorkerPc L) : ℕ := (toSend pc).flatten.countP (ofTicket t)

/-- Every copy but the first is accounted for by an answer, and every refusal by a halving. -/
structure CopiesLaw (x : Exporter L) (t : ℕ) (w : World L) (k : Worker L) (n : Resent) :
    Prop where
  paid : copies t w + waiting t k.pc ≤ n.retried + n.refused + entered t w k
  halved : n.refused + halvingsLeft (ofTicket t) (toHalve k.pc) ≤
    Nat.clog 2 x.config.maxBatchRecords * entered t w k

/-- A ticket is entered at most once. -/
theorem entered_le_one (h : Conserved s) (t : ℕ) : entered t s.world s.worker ≤ 1 := by
  have hcount : (located s).count t ≤ 1 := List.nodup_iff_count_le_one.mp h.located_nodup t
  have hticket : ∀ l : List MappedLog,
      l.countP (ofTicket t) = (l.map MappedLog.ticket).count t := fun l => by
    rw [List.count, List.countP_map]
    exact List.countP_congr fun r _ => by simp [ofTicket]
  simp only [located, holdingTickets, List.map_append, List.count_append] at hcount
  rw [entered, begun, List.countP_append, hticket, hticket]
  omega

/-- Parts that are left hold fewer records. -/
theorem countP_flatten_of_suffix {p : MappedLog → Bool} {stack stack' : List (List MappedLog)}
    (h : stack' <:+ stack) : stack'.flatten.countP p ≤ stack.flatten.countP p := by
  obtain ⟨gone, rfl⟩ := h
  rw [List.flatten_append, List.countP_append]
  exact Nat.le_add_left _ _

/-- A copy is noted if and only if the part holds the record. -/
theorem note_retryable (t : ℕ) (n : Resent) (records : List MappedLog) :
    n.note t records .retryable =
      { n with retried := n.retried + if records.any (ofTicket t) then 1 else 0 } := by
  unfold Resent.note
  dsimp only
  split <;> rfl

theorem note_invalidPayload (t : ℕ) (n : Resent) {records : List MappedLog}
    (hl : records.length ≠ 1) :
    n.note t records .invalidPayload =
      { n with refused := n.refused + if records.any (ofTicket t) then 1 else 0 } := by
  unfold Resent.note
  dsimp only
  rw [decide_eq_true hl, Bool.and_true]
  split <;> rfl

/-- Other answers are not noted. -/
theorem note_other {t : ℕ} {n : Resent} {records : List MappedLog} {reply : Reply}
    (hr : reply ≠ .retryable ∧ (reply = .invalidPayload → records.length = 1)) :
    n.note t records reply = n := by
  cases reply with
  | retryable => exact absurd rfl hr.1
  | invalidPayload =>
    unfold Resent.note
    dsimp only
    rw [hr.2 rfl]
    simp
  | ok accepted rejected => rfl
  | fatal => rfl

/-- A part that holds the ticket once holds it at most once as its records say. -/
theorem countP_eq_any {p : MappedLog → Bool} {l : List MappedLog} (h : l.countP p ≤ 1) :
    (if l.any p then 1 else 0) = l.countP p := by
  split
  · rename_i hany
    have hpos : 0 < l.countP p := List.countP_pos_iff.mpr (List.any_eq_true.mp hany)
    omega
  · rename_i hany
    have hzero : l.countP p = 0 := List.countP_eq_zero.mpr fun r hr hp =>
      hany (List.any_eq_true.mpr ⟨r, hr, hp⟩)
    exact hzero.symm

/-- So does the part whose answer is awaited. -/
theorem any_awaited {k : Worker L} {e : Attempt} (hpc : k.pc = .awaitReply e)
    (hone : (begun k.pc).countP (ofTicket t) ≤ 1) :
    (if e.records.any (ofTicket t) then 1 else 0) = e.records.countP (ofTicket t) := by
  refine countP_eq_any ?_
  rw [hpc] at hone
  simp only [begun, held, attemptParts, List.countP_append] at hone
  omega

/-- Only an answer is noted. -/
theorem noteStep_of_ne {o : Oracle} {k : Worker L} (n : Resent) (h : ∀ e, k.pc ≠ .awaitReply e) :
    noteStep t k o n = n := by
  unfold noteStep
  split
  · rename_i e hpc
    exact absurd hpc (h e)
  · rfl

/-- A worker step keeps the account. -/
theorem CopiesLaw.worker {o : Oracle} {w w' : World L} {k k' : Worker L} {n : Resent}
    (h : CopiesLaw x t w k n) (hm : WorkerMove x o w k w' k') (hlim : pcLimits x k.pc)
    (hlim' : pcLimits x k'.pc) (hone : (begun k.pc).countP (ofTicket t) ≤ 1) :
    CopiesLaw x t w' k' (noteStep t k o n) := by
  obtain ⟨hpaid, hhalved⟩ := h
  have hmove : CopyMove o w k w' k' := copyMove hm
  have hentered := hmove.entered_le t
  have hmul := Nat.mul_le_mul_left (Nat.clog 2 x.config.maxBatchRecords) hentered
  cases hmove with
  | keep hq hs hh he hr =>
    have hn : noteStep t k o n = n := by
      unfold noteStep
      split
      · rename_i e hpc
        exact note_other (hr e hpc)
      · rfl
    have hwaiting : waiting t k'.pc ≤ waiting t k.pc := countP_flatten_of_suffix hs
    have hleft := halvingsLeft_of_suffix (p := ofTicket t) hh
    rw [hn]
    refine ⟨?_, by omega⟩
    simp only [copies, hq] at hpaid ⊢
    omega
  | @begin batch hq hpc' hex he =>
    have hn : noteStep t k o n = n := noteStep_of_ne n fun e hpc => by rw [hpc] at hex; cases hex
    have hentered := he t
    have hmul := Nat.mul_le_mul_left (Nat.clog 2 x.config.maxBatchRecords) hentered
    rw [hpc'] at hlim'
    have hleft : halvingsLeft (ofTicket t) [batch] ≤ _ := halvingsLeft_single hlim'.count
    rw [hn]
    refine ⟨?_, ?_⟩
    · simp only [copies, hq, hpc', waiting, toSend, parts, List.flatten_cons, List.flatten_nil,
        List.append_nil] at hpaid ⊢
      omega
    · rw [Nat.mul_add] at hmul
      rw [hpc']
      simp only [toHalve, parts]
      omega
  | @send e hq hpc hpc' he =>
    have hn : noteStep t k o n = n := noteStep_of_ne n fun e' he' => by rw [hpc] at he'; cases he'
    rw [hn]
    simp only [copies, hpc, waiting, toSend, toHalve, parts, List.flatten_cons,
      List.countP_append] at hpaid hhalved
    refine ⟨?_, ?_⟩
    · simp only [copies, hq, hpc', waiting, toSend, List.flatten_append, List.flatten_cons,
        List.flatten_nil, List.append_nil, List.countP_append]
      omega
    · simp only [hpc', toHalve, parts]
      omega
  | @again e e' hq hr hpc hpc' hparts he =>
    have hn : noteStep t k o n =
        { n with retried := n.retried + e.records.countP (ofTicket t) } := by
      simp only [noteStep, hpc, hr, note_retryable, any_awaited hpc hone]
    rw [hn]
    simp only [copies, hpc, waiting, toSend, toHalve, parts] at hpaid hhalved
    refine ⟨?_, ?_⟩
    · simp only [copies, hq, hpc', waiting, toSend, parts, hparts.1, hparts.2, List.flatten_cons,
        List.countP_append]
      omega
    · simp only [hpc', toHalve, parts, hparts.1, hparts.2]
      omega
  | @halve e hq hr hl hpc hpc' he =>
    have hn : noteStep t k o n =
        { n with refused := n.refused + e.records.countP (ofTicket t) } := by
      simp only [noteStep, hpc, hr, note_invalidPayload t n hl, any_awaited hpc hone]
    rw [hpc] at hlim
    have hpos : 1 ≤ e.records.length := (hlim e.records List.mem_cons_self).nonempty
    have hsplit : e.records.countP (ofTicket t) +
        halvingsLeft (ofTicket t) (splitRecords e.records ++ e.stack) ≤
          halvingsLeft (ofTicket t) (e.records :: e.stack) :=
      halvingsLeft_halves (by omega) e.stack
    rw [hn]
    simp only [copies, hpc, waiting, toSend, toHalve, parts] at hpaid hhalved
    refine ⟨?_, ?_⟩
    · simp only [copies, hq, hpc', waiting, toSend, parts, List.flatten_append,
        splitRecords_flatten, List.countP_append]
      omega
    · simp only [hpc', toHalve, parts]
      omega

/-- The account is kept by every step. -/
theorem CopiesLaw.step {n : Resent} (h : CopiesLaw x t s.world s.worker n) (hc : Conserved s)
    (hl : LimitLaw x s) (hl' : LimitLaw x s') (hm : Move x s a s') :
    CopiesLaw x t s'.world s'.worker (resend t s a s' n) := by
  by_cases ha : ∃ o, a = .worker o
  · obtain ⟨o, rfl⟩ := ha
    cases hm with
    | worker hab hmove =>
      have hone := entered_le_one hc t
      exact h.worker hmove hl.worker hl'.worker ((Nat.le_add_right _ _).trans hone)
  · have hsame := untouched_of_move hm fun o ho => ha ⟨o, ho⟩
    have hn : resend t s a s' n = n := by
      cases a with
      | worker o => exact absurd ⟨o, rfl⟩ ha
      | _ => rfl
    obtain ⟨hpaid, hhalved⟩ := h
    rw [hn, hsame.worker]
    refine ⟨?_, ?_⟩
    · simp only [copies, entered, hsame.requests, hsame.completed] at hpaid ⊢
      exact hpaid
    · simp only [entered, hsame.completed] at hhalved ⊢
      exact hhalved

/-- A run with its notes is a run of the generation. -/
theorem reachable_of_resending {p : State L × Resent}
    (h : Reach (resendingStep x t) (State.init L, ⟨0, 0⟩) p) : Reachable x p.1 :=
  ReachWhile.unmonitored (p := (State.init L, ⟨0, 0⟩)) (q := p) (fun _ _ _ => trivial) h

/-- The account of a record is right in every run. -/
theorem copiesLaw (hv : x.config.validate = .ok ()) {p : State L × Resent}
    (h : Reach (resendingStep x t) (State.init L, ⟨0, 0⟩) p) :
    CopiesLaw x t p.1.world p.1.worker p.2 := by
  have hinit : CopiesLaw x t (State.init L).world (State.init L).worker ⟨0, 0⟩ :=
    ⟨Nat.le_refl 0, Nat.le_refl _⟩
  refine h.invariant_using (I := fun q => CopiesLaw x t q.1.world q.1.worker q.2)
    (fun _ hq => reachable_of_resending hq) hinit ?_
  intro q q' a hreach hreach' hlaw _ hs
  obtain ⟨hstep, hnote⟩ := of_monitored hs
  rw [hnote]
  exact hlaw.step (conserved hreach) (limitLaw hv hreach) (limitLaw hv hreach') (stepMove hstep)

/-- A completed ticket's record is in no part that is to be sent. -/
theorem not_sent_of_completed (h : Conserved s) {e : Attempt} (hpc : s.worker.pc = .attempt e)
    (ht : t ∈ s.world.history.completed) : ∀ r ∈ e.records, r.ticket ≠ t := by
  have hone := entered_le_one h t
  have hpos : 0 < s.world.history.completed.count t := List.count_pos_iff.mpr ht
  intro r hr heq
  have hpart : 0 < (begun s.worker.pc).countP (ofTicket t) := by
    refine List.countP_pos_iff.mpr ⟨r, ?_, decide_eq_true heq⟩
    rw [hpc]
    exact List.mem_append_left _ (List.mem_append_left _ hr)
  unfold entered at hone
  omega

/-- Bounded duplication. In every run, under all interleavings and answers, the copies of a
record that are handed to the client number at most one, plus the retries asked for requests
that held it, plus the refusals of requests that held it beside others, and there are at most
logarithmically many of these in the batch limit; behind the completion of its ticket the record
is never sent again. -/
theorem copies_bounded (hv : x.config.validate = .ok ()) (t : ℕ) {n : Resent}
    (h : Reach (resendingStep x t) (State.init L, ⟨0, 0⟩) (s, n)) :
    copies t s.world ≤ 1 + n.retried + n.refused ∧
      n.refused ≤ Nat.clog 2 x.config.maxBatchRecords ∧
      (t ∈ s.world.history.completed → ∀ e, s.worker.pc = .attempt e →
        ∀ r ∈ e.records, r.ticket ≠ t) := by
  have hc : Conserved s := conserved (reachable_of_resending h)
  have hlaw : CopiesLaw x t s.world s.worker n := copiesLaw hv h
  obtain ⟨hpaid, hhalved⟩ := hlaw
  have hone := entered_le_one hc t
  have hmul := Nat.mul_le_mul_left (Nat.clog 2 x.config.maxBatchRecords) hone
  exact ⟨by omega, by omega, fun ht e hpc => not_sent_of_completed hc hpc ht⟩

/-- Three records of one batch: the batch is refused, its second half too, and the last record
is put off once before it is accepted. -/
def halvedRun : List (Action ℕ) :=
  .spawn :: submitAlone 0 3 ++ .enter 0 4 :: producerSteps 0 7 ++ .enter 0 5 :: producerSteps 0 7 ++
    lateSteps 22 ++ workerSteps 4 .invalidPayload ++ workerSteps 6 (.ok 1 0) ++
    workerSteps 9 .invalidPayload ++ workerSteps 3 .retryable ++ workerSteps 8 (.ok 1 0)

/-- Whether the third record was sent four times, for one retry and two refusals. -/
def sentFourTimes (p : State ℕ × Resent) : Bool :=
  decide (copies 3 p.1.world = 4) && decide (p.2 = ⟨1, 2⟩)

/-- The bounds are reached by the third record. -/
theorem copies_bounded_halved : ∃ (s : State ℕ) (n : Resent),
    Reach (resendingStep sample 3) (State.init ℕ, ⟨0, 0⟩) (s, n) ∧
      copies 3 s.world = 1 + n.retried + n.refused ∧
      n.refused = Nat.clog 2 sampleConfig.maxBatchRecords ∧
      (3 ∈ s.world.history.completed → ∀ e, s.worker.pc = .attempt e →
        ∀ r ∈ e.records, r.ticket ≠ 3) := by
  obtain ⟨⟨s, n⟩, hs, hp⟩ := exists_reach (resendingStep sample 3) (State.init ℕ, ⟨0, 0⟩) halvedRun
    sentFourTimes (by decide +kernel)
  obtain ⟨hcopies, hn⟩ := (Bool.and_eq_true _ _).mp hp
  have hfour : copies 3 s.world = 4 := of_decide_eq_true hcopies
  have hnotes : n = ⟨1, 2⟩ := of_decide_eq_true hn
  subst hnotes
  have hclog : Nat.clog 2 sampleConfig.maxBatchRecords = 2 := by decide +kernel
  obtain ⟨-, -, hnever⟩ := copies_bounded (by decide +kernel) 3 hs
  exact ⟨s, ⟨1, 2⟩, hs, hfour, hclog.symm, hnever⟩

end EdenLogger.RecordCopies
