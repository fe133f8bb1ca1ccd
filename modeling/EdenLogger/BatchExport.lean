import EdenLogger.FlushSoundness

/-!
# One export of a batch

The export keeps a stack of parts. A refused part of several records is replaced
by its halves, the left one on top, so what was resolved is a prefix of the
batch and the stack holds the rest in order. Each part costs at most one request
less than twice its records, besides the retries.
-/

namespace EdenLogger.BatchExport

open MachineWord ExporterLanes LogCollector GenerationState GenerationStep GenerationMoves
open GenerationFrames RecordFlow Completion RunRules

variable {L : Type} {x : Exporter L} {s s' s₀ : State L} {a : Action L}

/-! ## Places of an export -/

/-- Whether the worker is inside `export_batch`. -/
def exporting : WorkerPc L → Bool
  | .startExport _ | .nextPart _ | .attempt _ | .awaitReply _ | .retrySleep _ | .retried _ _
  | .countRejected _ _ | .completing (.nextPart _) _ | .notifyProgress (.nextPart _) _ => true
  | _ => false

/-- Whether it has just returned from there. -/
def exported : WorkerPc L → Bool
  | .batchDone | .terminalInflight _ => true
  | _ => false

/-- A completion inside an export goes on with the parts that are left. -/
theorem resume_of_exporting {pc : WorkerPc L} {resume : Resume} {rest : List MappedLog}
    (hex : exporting pc = true)
    (hpc : pc = .completing resume rest ∨ pc = .notifyProgress resume rest) :
    ∃ stack, resume = .nextPart stack := by
  cases resume with
  | nextPart stack => exact ⟨stack, rfl⟩
  | loopTop | assemble a => rcases hpc with rfl | rfl <;> cases hex

/-- The parts that are not resolved, in sending order. -/
def parts : WorkerPc L → List (List MappedLog)
  | .startExport batch => [batch]
  | .nextPart stack => stack
  | .attempt e | .awaitReply e | .retrySleep e | .retried e _ => e.records :: e.stack
  | .countRejected e _ => e.stack
  | .completing (.nextPart stack) _ | .notifyProgress (.nextPart stack) _ => stack
  | .terminalInflight retained => retained
  | _ => []

/-- Resolved records whose tickets are not completed yet. -/
def uncompleted : WorkerPc L → List MappedLog
  | .countRejected e _ => e.records
  | .completing (.nextPart _) rest | .notifyProgress (.nextPart _) rest => rest
  | _ => []

/-- Requests that parts cost if none is retried. -/
def requestCost (stack : List (List MappedLog)) : ℕ := (stack.map fun p => 2 * p.length - 1).sum

@[simp] theorem requestCost_cons (p : List MappedLog) (stack : List (List MappedLog)) :
    requestCost (p :: stack) = 2 * p.length - 1 + requestCost stack := by
  simp only [requestCost, List.map_cons, List.sum_cons]

@[simp] theorem requestCost_nil : requestCost [] = 0 := rfl

/-- Requests still to be sent, if none is retried. -/
def requestsLeft : WorkerPc L → ℕ
  | .awaitReply e => requestCost (e.records :: e.stack) - 1
  | .terminalInflight _ => 0
  | pc => requestCost (parts pc)

/-- Steps that parts cost if none is retried: seven for a record sent alone,
three more for every division. -/
def stepCost (stack : List (List MappedLog)) : ℕ := (stack.map fun p => 10 * p.length - 3).sum

@[simp] theorem stepCost_cons (p : List MappedLog) (stack : List (List MappedLog)) :
    stepCost (p :: stack) = 10 * p.length - 3 + stepCost stack := by
  simp only [stepCost, List.map_cons, List.sum_cons]

@[simp] theorem stepCost_nil : stepCost [] = 0 := rfl

/-- Steps the export still takes, if no answer asks for a retry. -/
def stepsLeft : WorkerPc L → ℕ
  | .startExport batch => stepCost [batch] + 4
  | .nextPart stack => stepCost stack + 3
  | .attempt e => stepCost (e.records :: e.stack) + 2
  | .awaitReply e => stepCost (e.records :: e.stack) + 1
  | .retrySleep e => stepCost (e.records :: e.stack) + 4
  | .retried e _ => stepCost (e.records :: e.stack) + 3
  | .countRejected e _ => stepCost e.stack + 2 * e.records.length + 5
  | .completing (.nextPart stack) rest => stepCost stack + 2 * rest.length + 4
  | .notifyProgress (.nextPart stack) rest => stepCost stack + 2 * rest.length + 5
  | _ => 0

/-- A part of several records has two halves that are not empty. -/
theorem halves_nonempty {records : List MappedLog} (h0 : records ≠ []) (h1 : records.length ≠ 1) :
    ∀ p ∈ splitRecords records, p ≠ [] := by
  have hlen : 0 < records.length := List.length_pos_iff.mpr h0
  intro p hp
  have hpos : 0 < p.length := by
    rcases List.mem_cons.mp hp with rfl | hp
    · rw [List.length_take]
      omega
    · rw [List.mem_singleton.mp hp, List.length_drop]
      omega
  exact List.length_pos_iff.mp hpos

/-- Splitting a part pays for the request it was refused in. -/
theorem requestCost_split {records : List MappedLog} (h0 : records ≠ []) (h1 : records.length ≠ 1)
    (stack : List (List MappedLog)) :
    requestCost (splitRecords records ++ stack) + 1 = requestCost (records :: stack) := by
  have hlen : 0 < records.length := List.length_pos_iff.mpr h0
  simp only [splitRecords, List.cons_append, List.nil_append, requestCost_cons, List.length_take,
    List.length_drop]
  omega

/-- Splitting a part pays for the steps of its refusal. -/
theorem stepCost_split {records : List MappedLog} (h0 : records ≠ []) (h1 : records.length ≠ 1)
    (stack : List (List MappedLog)) :
    stepCost (splitRecords records ++ stack) + 3 = stepCost (records :: stack) := by
  have hlen : 0 < records.length := List.length_pos_iff.mpr h0
  simp only [splitRecords, List.cons_append, List.nil_append, stepCost_cons, List.length_take,
    List.length_drop]
  omega

/-! ## What an export has done -/

/-- What an export of a batch has done since its beginning. -/
structure ExportLaw (s₀ : State L) (batch : List MappedLog) (s : State L)
    (done : List MappedLog) (sent : List (List MappedLog)) : Prop where
  /-- Completed, resolved and remaining records are the batch, in order. -/
  split : done ++ uncompleted s.worker.pc ++ (parts s.worker.pc).flatten = batch
  /-- The tickets completed. -/
  completed : s.world.history.completed = s₀.world.history.completed ++ done.map MappedLog.ticket
  /-- The records resolved. -/
  resolved : s.world.history.resolved.map Prod.fst =
    s₀.world.history.resolved.map Prod.fst ++ (done ++ uncompleted s.worker.pc)
  /-- They are counted. -/
  counted : resolvedCount s.world s.worker =
    counted s₀.world + (done.length + (uncompleted s.worker.pc).length)
  /-- No part is empty. -/
  nonempty : ∀ p ∈ parts s.worker.pc, p ≠ []
  /-- The requests sent. -/
  requests : s.world.history.requests = s₀.world.history.requests ++ sent
  /-- None was empty. -/
  filled : ∀ r ∈ sent, r ≠ []
  /-- Each is an attempt. -/
  attempts : s.world.metrics.exportAttempts = s₀.world.metrics.exportAttempts + sent.length
  /-- Retries are counted. -/
  retries : s₀.world.metrics.retries ≤ s.world.metrics.retries
  /-- Requests sent and to be sent are paid for. -/
  paid : sent.length + requestsLeft s.worker.pc + s₀.world.metrics.retries ≤
    2 * batch.length - 1 + s.world.metrics.retries

/-- What the law says of the place where the worker stands. -/
theorem ExportLaw.standing {batch done : List MappedLog} {sent : List (List MappedLog)}
    (h : ExportLaw s₀ batch s done sent) {pc : WorkerPc L} (hpc : s.worker.pc = pc) :
    done ++ uncompleted pc ++ (parts pc).flatten = batch ∧
      s.world.history.resolved.map Prod.fst =
        s₀.world.history.resolved.map Prod.fst ++ (done ++ uncompleted pc) ∧
      Completion.counted s.world + (held pc).uncounted =
        Completion.counted s₀.world + (done.length + (uncompleted pc).length) ∧
      (∀ p ∈ parts pc, p ≠ []) ∧
      sent.length + requestsLeft pc + s₀.world.metrics.retries ≤
        2 * batch.length - 1 + s.world.metrics.retries := by
  subst hpc
  exact ⟨h.split, h.resolved, h.counted, h.nonempty, h.paid⟩

/-- The beginning of an export. -/
theorem ExportLaw.start {batch : List MappedLog} (hpc : s₀.worker.pc = .startExport batch)
    (hne : batch ≠ []) : ExportLaw s₀ batch s₀ [] [] where
  split := by simp [hpc, uncompleted, parts]
  completed := by simp
  resolved := by simp [hpc, uncompleted]
  counted := by simp [resolvedCount, hpc, uncompleted, held]
  nonempty := by simpa [hpc, parts] using hne
  requests := by simp
  filled := by simp
  attempts := by simp
  retries := Nat.le_refl _
  paid := by
    simp only [hpc, requestsLeft, parts, requestCost_cons, requestCost_nil, List.length_nil]
    omega

/-- What a step keeps that neither sends nor settles nor completes. -/
structure Kept (s s' : State L) : Prop where
  parts : parts s'.worker.pc = parts s.worker.pc
  uncompleted : uncompleted s'.worker.pc = uncompleted s.worker.pc
  completed : s'.world.history.completed = s.world.history.completed
  resolved : s'.world.history.resolved = s.world.history.resolved
  counted : resolvedCount s'.world s'.worker = resolvedCount s.world s.worker
  requests : s'.world.history.requests = s.world.history.requests
  attempts : s'.world.metrics.exportAttempts = s.world.metrics.exportAttempts
  retries : s'.world.metrics.retries = s.world.metrics.retries
  left : requestsLeft s'.worker.pc ≤ requestsLeft s.worker.pc

/-- Such a step keeps the law. -/
theorem ExportLaw.keep {batch done : List MappedLog} {sent : List (List MappedLog)}
    (h : ExportLaw s₀ batch s done sent) (hk : Kept s s') : ExportLaw s₀ batch s' done sent where
  split := by rw [hk.parts, hk.uncompleted, h.split]
  completed := hk.completed.trans h.completed
  resolved := by rw [hk.resolved, hk.uncompleted, h.resolved]
  counted := by rw [hk.counted, hk.uncompleted, h.counted]
  nonempty := by rw [hk.parts]; exact h.nonempty
  requests := hk.requests.trans h.requests
  filled := h.filled
  attempts := hk.attempts.trans h.attempts
  retries := hk.retries ▸ h.retries
  paid := by
    have hpaid := h.paid
    have hleft := hk.left
    rw [hk.retries]
    omega

/-- Such a step of the worker keeps the law, from where it stands. -/
theorem ExportLaw.goesOn {batch done : List MappedLog} {sent : List (List MappedLog)}
    (h : ExportLaw s₀ batch s done sent) {pc : WorkerPc L} (hpc : s.worker.pc = pc) {w' : World L}
    {k' : Worker L} (hparts : parts k'.pc = parts pc)
    (huncompleted : uncompleted k'.pc = uncompleted pc)
    (hcounted : Completion.counted w' + (held k'.pc).uncounted =
      Completion.counted s.world + (held pc).uncounted)
    (hleft : requestsLeft k'.pc ≤ requestsLeft pc)
    (hcompleted : w'.history.completed = s.world.history.completed)
    (hresolved : w'.history.resolved = s.world.history.resolved)
    (hrequests : w'.history.requests = s.world.history.requests)
    (hattempts : w'.metrics.exportAttempts = s.world.metrics.exportAttempts)
    (hretries : w'.metrics.retries = s.world.metrics.retries) :
    ExportLaw s₀ batch { s with world := w', worker := k' } done sent := by
  subst hpc
  exact h.keep ⟨hparts, huncompleted, hcompleted, hresolved, hcounted, hrequests, hattempts,
    hretries, hleft⟩

/-- A request is sent. -/
theorem ExportLaw.send {batch done : List MappedLog} {sent : List (List MappedLog)}
    (h : ExportLaw s₀ batch s done sent) {e : Attempt} (hpc : s.worker.pc = .attempt e) :
    ExportLaw s₀ batch { s with
      world := sendRequest s.world e.records
      worker := { s.worker with pc := .awaitReply e } } done (sent ++ [e.records]) := by
  obtain ⟨hsplit, hresolved, hcounted, hnonempty, hpaid⟩ := h.standing hpc
  have hrecords : e.records ≠ [] := hnonempty _ List.mem_cons_self
  have hlen : 0 < e.records.length := List.length_pos_iff.mpr hrecords
  refine {
    split := hsplit
    completed := h.completed
    resolved := hresolved
    counted := hcounted
    nonempty := hnonempty
    requests := ?_
    filled := List.forall_mem_append.mpr ⟨h.filled, fun r hr => ?_⟩
    attempts := ?_
    retries := h.retries
    paid := ?_ }
  · simp only [sendRequest, h.requests, List.append_assoc]
  · rw [List.mem_singleton.mp hr]
    exact hrecords
  · simp only [sendRequest, h.attempts, List.length_append, List.length_singleton]
    omega
  · simp only [requestsLeft, parts, requestCost_cons] at hpaid
    simp only [requestsLeft, requestCost_cons, List.length_append, List.length_singleton,
      sendRequest]
    omega

/-- A part is settled. -/
theorem ExportLaw.settle {batch done : List MappedLog} {sent : List (List MappedLog)}
    (h : ExportLaw s₀ batch s done sent) {e : Attempt} (hpc : s.worker.pc = .awaitReply e)
    {w' : World L} {pc' : WorkerPc L} {outcome : Outcome}
    (hk : pc' = .completing (.nextPart e.stack) e.records ∨
      ∃ rejected, pc' = .countRejected e rejected)
    (hc : w'.history.completed = s.world.history.completed)
    (hr : w'.history.resolved =
      s.world.history.resolved ++ e.records.map fun r => (r, outcome))
    (hn : Completion.counted w' + (held pc').uncounted =
      Completion.counted s.world + e.records.length)
    (hq : w'.history.requests = s.world.history.requests)
    (ha : w'.metrics.exportAttempts = s.world.metrics.exportAttempts)
    (ht : w'.metrics.retries = s.world.metrics.retries) :
    ExportLaw s₀ batch { s with world := w', worker := { s.worker with pc := pc' } } done sent := by
  have hplace : parts pc' = e.stack ∧ uncompleted pc' = e.records ∧
      requestsLeft pc' = requestCost e.stack := by
    rcases hk with rfl | ⟨rejected, rfl⟩ <;> exact ⟨rfl, rfl, rfl⟩
  obtain ⟨hparts, hrest, hleft⟩ := hplace
  obtain ⟨hsplit, hresolved, hcounted, hnonempty, hpaid⟩ := h.standing hpc
  simp only [parts, uncompleted, held, requestsLeft, requestCost_cons, List.flatten_cons,
    List.append_nil, List.length_nil] at hsplit hresolved hcounted hnonempty hpaid
  have hlen : 0 < e.records.length :=
    List.length_pos_iff.mpr (hnonempty _ List.mem_cons_self)
  refine {
    split := ?_
    completed := hc.trans h.completed
    resolved := ?_
    counted := ?_
    nonempty := fun p hp => hnonempty p (List.mem_cons_of_mem _ (hparts ▸ hp))
    requests := hq.trans h.requests
    filled := h.filled
    attempts := ha.trans h.attempts
    retries := ht ▸ h.retries
    paid := ?_ }
  · simpa only [hparts, hrest, List.append_assoc] using hsplit
  · simp only [hrest, hr, List.map_append, hresolved, List.map_map, List.append_assoc]
    congr 2
    exact List.map_id _
  · simp only [resolvedCount, hrest, hn]
    omega
  · simp only [hleft, ht]
    omega

/-- A refused part is replaced by its halves. -/
theorem ExportLaw.divide {batch done : List MappedLog} {sent : List (List MappedLog)}
    (h : ExportLaw s₀ batch s done sent) {e : Attempt} (hpc : s.worker.pc = .awaitReply e)
    (hl : e.records.length ≠ 1) :
    ExportLaw s₀ batch { s with
      worker := { s.worker with pc := .nextPart (splitRecords e.records ++ e.stack) } }
      done sent := by
  obtain ⟨hsplit, hresolved, hcounted, hnonempty, hpaid⟩ := h.standing hpc
  obtain ⟨hhead, htail⟩ := List.forall_mem_cons.mp hnonempty
  have hcost := requestCost_split hhead hl e.stack
  refine {
    split := ?_
    completed := h.completed
    resolved := hresolved
    counted := hcounted
    nonempty := List.forall_mem_append.mpr ⟨halves_nonempty hhead hl, htail⟩
    requests := h.requests
    filled := h.filled
    attempts := h.attempts
    retries := h.retries
    paid := ?_ }
  · simpa only [parts, uncompleted, List.flatten_append, splitRecords_flatten, List.flatten_cons]
      using hsplit
  · simp only [requestsLeft, parts] at hpaid ⊢
    omega

/-- A request is to be sent again. -/
theorem ExportLaw.retry {batch done : List MappedLog} {sent : List (List MappedLog)}
    (h : ExportLaw s₀ batch s done sent) {e e' : Attempt} (hpc : s.worker.pc = .awaitReply e)
    (hrecords : e'.records = e.records) (hstack : e'.stack = e.stack) :
    ExportLaw s₀ batch { s with
      world := setStatus { s.world with metrics.retries := s.world.metrics.retries + 1 } .backingOff
      worker := { s.worker with pc := .retrySleep e' } } done sent := by
  obtain ⟨hsplit, hresolved, hcounted, hnonempty, hpaid⟩ := h.standing hpc
  refine {
    split := by simpa only [parts, uncompleted, hrecords, hstack] using hsplit
    completed := h.completed
    resolved := hresolved
    counted := hcounted
    nonempty := by simpa only [parts, hrecords, hstack] using hnonempty
    requests := h.requests
    filled := h.filled
    attempts := h.attempts
    retries := h.retries.trans (Nat.le_add_right _ _)
    paid := ?_ }
  simp only [requestsLeft, parts, hrecords, hstack, setStatus] at hpaid ⊢
  omega

/-- A ticket is completed. -/
theorem ExportLaw.complete {batch done rest : List MappedLog} {sent : List (List MappedLog)}
    {r : MappedLog} {stack : List (List MappedLog)} (h : ExportLaw s₀ batch s done sent)
    (hpc : s.worker.pc = .completing (.nextPart stack) (r :: rest)) {k' : Worker L} {w' : World L}
    (hk : k'.pc = .completing (.nextPart stack) rest ∨
      k'.pc = .notifyProgress (.nextPart stack) rest)
    (hc : w'.history.completed = s.world.history.completed ++ [r.ticket])
    (hr : w'.history.resolved = s.world.history.resolved)
    (hq : w'.history.requests = s.world.history.requests) (hm : w'.metrics = s.world.metrics) :
    ExportLaw s₀ batch { s with world := w', worker := k' } (done ++ [r]) sent := by
  have hplace : parts k'.pc = stack ∧ uncompleted k'.pc = rest ∧
      requestsLeft k'.pc = requestCost stack ∧ (held k'.pc).uncounted = 0 := by
    rcases hk with hk | hk <;> rw [hk] <;> exact ⟨rfl, rfl, rfl, rfl⟩
  obtain ⟨hparts, hrest, hleft, hall⟩ := hplace
  obtain ⟨hsplit, hresolved, hcounted, hnonempty, hpaid⟩ := h.standing hpc
  simp only [parts, uncompleted, held, resumeHolding, List.length_cons] at hsplit hresolved hcounted
  refine {
    split := ?_
    completed := ?_
    resolved := ?_
    counted := ?_
    nonempty := hparts ▸ hnonempty
    requests := hq.trans h.requests
    filled := h.filled
    attempts := hm ▸ h.attempts
    retries := hm ▸ h.retries
    paid := ?_ }
  · simpa only [hparts, hrest, List.append_assoc, List.cons_append, List.nil_append] using hsplit
  · simp only [hc, h.completed, List.map_append, List.map_cons, List.map_nil, List.append_assoc]
  · simpa only [hr, hrest, List.append_assoc, List.cons_append, List.nil_append] using hresolved
  · simp only [hrest, List.length_append, List.length_singleton]
    have hsame : Completion.counted w' = Completion.counted s.world := by
      simp only [Completion.counted, hm]
    simp only [resolvedCount, hall]
    omega
  · simp only [hleft, hm]
    exact hpaid

/-- A partial success accounts for every record. -/
def HonestPartial (k : Worker L) (o : Oracle) : Prop :=
  ∀ e accepted rejected, k.pc = .awaitReply e → o.reply = .ok accepted rejected →
    rejected ≠ 0 → accepted + rejected = e.records.length

/-- A step of the worker inside the export. -/
theorem ExportLaw.worker {batch done : List MappedLog} {sent : List (List MappedLog)}
    (h : ExportLaw s₀ batch s done sent) (hex : exporting s.worker.pc = true) {o : Oracle}
    (hon : HonestPartial s.worker o) {w' : World L} {k' : Worker L}
    (hm : WorkerMove x o s.world s.worker w' k') :
    ∃ done' sent', ExportLaw s₀ batch { s with world := w', worker := k' } done' sent' := by
  cases hm
  case attempt e hpc => exact ⟨_, _, h.send hpc⟩
  case acknowledged e accepted hr hpc =>
    refine ⟨_, _, h.settle hpc (Or.inl rfl) rfl rfl ?_ rfl rfl rfl⟩
    simp only [Completion.counted, countBatch, GenerationStep.settle, held, resumeHolding]
    omega
  case partialSuccess e accepted rejected hr hn hpc =>
    refine ⟨_, _, h.settle hpc (Or.inr ⟨rejected, rfl⟩) rfl rfl ?_ rfl rfl rfl⟩
    have hall := hon e accepted rejected hpc hr hn
    simp only [Completion.counted, GenerationStep.settle, held]
    omega
  case countRejected e rejected hpc =>
    refine ⟨_, _, h.goesOn hpc rfl rfl ?_ (Nat.le_refl _) rfl rfl rfl rfl rfl⟩
    simp only [Completion.counted, countRejected, countBatch, held, resumeHolding]
    omega
  case rejectedAlone e hr hl hpc =>
    refine ⟨_, _, h.settle hpc (Or.inl rfl) rfl rfl ?_ rfl rfl rfl⟩
    simp only [Completion.counted, GenerationStep.settle, hl, held, resumeHolding]
    omega
  case split e hr hl hpc => exact ⟨_, _, h.divide hpc hl⟩
  case backOff e hr hpc => exact ⟨_, _, h.retry hpc rfl rfl⟩
  case ignored resume r rest hc hpc =>
    obtain ⟨stack, rfl⟩ := resume_of_exporting hex (Or.inl hpc)
    exact ⟨_, _, h.complete hpc (Or.inl rfl) rfl rfl rfl rfl⟩
  case complete resume r rest t hc hpc =>
    obtain ⟨stack, rfl⟩ := resume_of_exporting hex (Or.inl hpc)
    exact ⟨_, _, h.complete hpc (Or.inr rfl) rfl rfl rfl rfl⟩
  case completed resume hpc =>
    obtain ⟨stack, rfl⟩ := resume_of_exporting hex (Or.inl hpc)
    exact ⟨_, _, h.goesOn hpc rfl rfl rfl (Nat.le_refl _) rfl rfl rfl rfl rfl⟩
  case notifyProgress resume rest hpc =>
    obtain ⟨stack, rfl⟩ := resume_of_exporting hex (Or.inr hpc)
    exact ⟨_, _, h.goesOn hpc rfl rfl rfl (Nat.le_refl _) rfl rfl rfl rfl rfl⟩
  case startExport hpc | partsDone hpc | nextPart hpc | fatal hpc | slept hpc | retried hpc =>
    refine ⟨_, _, h.goesOn hpc rfl rfl rfl ?_ rfl rfl rfl rfl rfl⟩
    first | exact Nat.le_refl _ | exact Nat.zero_le _
  all_goals
    rename_i hpc
    rw [hpc] at hex
    cases hex

/-- What the other parties leave as it is. -/
structure Untouched (s s' : State L) : Prop where
  worker : s'.worker = s.worker
  completed : s'.world.history.completed = s.world.history.completed
  resolved : s'.world.history.resolved = s.world.history.resolved
  requests : s'.world.history.requests = s.world.history.requests
  exported : s'.world.metrics.exported = s.world.metrics.exported
  rejected : s'.world.metrics.rejected = s.world.metrics.rejected
  attempts : s'.world.metrics.exportAttempts = s.world.metrics.exportAttempts
  retries : s'.world.metrics.retries = s.world.metrics.retries

/-- Only the worker sends requests, and settles and completes records. -/
theorem untouched_of_move (hm : Move x s a s') (ha : ∀ o, a ≠ .worker o) : Untouched s s' := by
  cases hm with
  | @producer i p p' w' hi hm =>
    have hf := producer_frame hm
    have hcounters : w'.metrics.exportAttempts = s.world.metrics.exportAttempts ∧
        w'.metrics.retries = s.world.metrics.retries := by
      cases hm
      case refused failure hpc => cases failure <;> exact ⟨rfl, rfl⟩
      all_goals exact ⟨rfl, rfl⟩
    refine ⟨rfl, ?_, ?_, ?_, hf.exported, hf.rejected, hcounters.1, hcounters.2⟩
    · exact (congrArg History.completed hf.history).trans rfl
    · exact (congrArg History.resolved hf.history).trans rfl
    · exact (congrArg History.requests hf.history).trans rfl
  | worker hab hm => exact absurd rfl (ha _)
  | flush hj hm =>
    rw [(flush_world hm).1]
    exact ⟨rfl, rfl, rfl, rfl, rfl, rfl, rfl, rfl⟩
  | @control op rest hp hr =>
    have hf := controlStep_frame s.world s.control op
    obtain ⟨dropped, reset, hhistory⟩ := hf.history
    have hcounters : (controlStep s.world s.control op).1.metrics.exportAttempts =
          s.world.metrics.exportAttempts ∧
        (controlStep s.world s.control op).1.metrics.retries = s.world.metrics.retries := by
      cases op with
      | storeShuttingDown =>
        simp only [controlStep]
        split <;> exact ⟨rfl, rfl⟩
      | _ => exact ⟨rfl, rfl⟩
    refine ⟨rfl, ?_, ?_, ?_, hf.exported, hf.rejected, hcounters.1, hcounters.2⟩
    · exact (congrArg History.completed hhistory).trans rfl
    · exact (congrArg History.resolved hhistory).trans rfl
    · exact (congrArg History.requests hhistory).trans rfl
  | _ => exact ⟨rfl, rfl, rfl, rfl, rfl, rfl, rfl, rfl⟩

/-- The law of an export looks at nothing else. -/
theorem Untouched.kept (h : Untouched s s') : Kept s s' where
  parts := by rw [h.worker]
  uncompleted := by rw [h.worker]
  completed := h.completed
  resolved := h.resolved
  counted := by simp only [resolvedCount, Completion.counted, h.worker, h.exported, h.rejected]
  requests := h.requests
  attempts := h.attempts
  retries := h.retries
  left := by rw [h.worker]

/-- Steps within one export, with honest answers. -/
def exportStep (s : State L) (a : Action L) : Prop := exporting s.worker.pc = true ∧ honest s a

/-- Steps within one export, with answers that account for every record. -/
def countable (s : State L) (a : Action L) : Prop :=
  exporting s.worker.pc = true ∧ ∀ o, a = .worker o → HonestPartial s.worker o

/-- Honest answers do. -/
theorem countable_of_exportStep {s : State L} {a : Action L} (h : exportStep s a) :
    countable s a :=
  ⟨h.1, fun o ha e accepted rejected hpc hr _ => h.2 o ha e accepted rejected hpc hr⟩

/-- Every step keeps the law. -/
theorem ExportLaw.step {batch done : List MappedLog} {sent : List (List MappedLog)}
    (h : ExportLaw s₀ batch s done sent) (hok : countable s a) (hm : Move x s a s') :
    ∃ done' sent', ExportLaw s₀ batch s' done' sent' := by
  by_cases ha : ∀ o, a ≠ .worker o
  · exact ⟨done, sent, h.keep (untouched_of_move hm ha).kept⟩
  · cases hm with
    | worker hab hm => exact h.worker hok.1 (hok.2 _ rfl) hm
    | _ => exact (ha fun o hc => by cases hc).elim

/-! ## The export ends -/

/-- A step of the worker gets closer to the end, unless the collector asks for a retry. -/
theorem ExportLaw.progress {batch done : List MappedLog} {sent : List (List MappedLog)}
    (h : ExportLaw s₀ batch s done sent) (hex : exporting s.worker.pc = true) {o : Oracle}
    {w' : World L} {k' : Worker L} (hm : WorkerMove x o s.world s.worker w' k') :
    (exporting k'.pc = true ∨ exported k'.pc = true) ∧
      (stepsLeft k'.pc < stepsLeft s.worker.pc ∨
        ((∃ e, s.worker.pc = .awaitReply e) ∧ o.reply = .retryable)) := by
  have hpart : ∀ {e : Attempt}, s.worker.pc = .awaitReply e → 0 < e.records.length := fun hpc =>
    List.length_pos_iff.mpr (h.nonempty _ (by rw [hpc]; exact List.mem_cons_self))
  cases hm
  case backOff e hr hpc => exact ⟨Or.inl rfl, Or.inr ⟨⟨e, hpc⟩, hr⟩⟩
  case acknowledged e accepted hr hpc | partialSuccess e accepted rejected hr hn hpc
      | rejectedAlone e hr hl hpc =>
    have hlen := hpart hpc
    refine ⟨Or.inl rfl, Or.inl ?_⟩
    simp only [hpc, stepsLeft, stepCost_cons]
    omega
  case countRejected e rejected hpc =>
    refine ⟨Or.inl rfl, Or.inl ?_⟩
    simp only [hpc, stepsLeft]
    omega
  case split e hr hl hpc =>
    have hcost := stepCost_split (List.length_pos_iff.mp (hpart hpc)) hl e.stack
    refine ⟨Or.inl rfl, Or.inl ?_⟩
    simp only [hpc, stepsLeft]
    omega
  case ignored resume r rest hc hpc | complete resume r rest t hc hpc =>
    obtain ⟨stack, rfl⟩ := resume_of_exporting hex (Or.inl hpc)
    refine ⟨Or.inl rfl, Or.inl ?_⟩
    simp only [hpc, stepsLeft, List.length_cons]
    omega
  case completed resume hpc =>
    obtain ⟨stack, rfl⟩ := resume_of_exporting hex (Or.inl hpc)
    refine ⟨Or.inl rfl, Or.inl ?_⟩
    simp only [hpc, resumePc, stepsLeft, List.length_nil]
    omega
  case notifyProgress resume rest hpc =>
    obtain ⟨stack, rfl⟩ := resume_of_exporting hex (Or.inr hpc)
    refine ⟨Or.inl rfl, Or.inl ?_⟩
    simp only [hpc, stepsLeft]
    omega
  case partsDone hpc | fatal hpc =>
    refine ⟨Or.inr rfl, Or.inl ?_⟩
    simp only [hpc, stepsLeft]
    omega
  case startExport hpc | nextPart hpc | attempt hpc | slept hpc | retried hpc =>
    refine ⟨Or.inl rfl, Or.inl ?_⟩
    simp only [hpc, stepsLeft]
    omega
  all_goals
    rename_i hpc
    rw [hpc] at hex
    cases hex

/-! ## Every export -/

/-- What an export has used. -/
structure Tally where
  /-- Steps of the worker. -/
  steps : ℕ
  /-- Answers that asked for a retry. -/
  retryable : ℕ
  deriving DecidableEq

/-- Whether a worker step takes an answer that asks for a retry. -/
def asksRetry (k : Worker L) (o : Oracle) : Bool :=
  match k.pc with
  | .awaitReply _ => decide (o.reply = .retryable)
  | _ => false

/-- Count a step. -/
def tally (s : State L) (a : Action L) (_ : State L) (t : Tally) : Tally :=
  match a with
  | .worker o => ⟨t.steps + 1, t.retryable + if asksRetry s.worker o then 1 else 0⟩
  | _ => t

/-- The steps of an export, counted. -/
abbrev countedStep (x : Exporter L) := monitored (GenerationStep.step x) tally

/-- A retry is asked for exactly when it is counted. -/
theorem retries_of_worker {o : Oracle} {w w' : World L} {k k' : Worker L}
    (hex : exporting k.pc = true) (hm : WorkerMove x o w k w' k') :
    w'.metrics.retries = w.metrics.retries + if asksRetry k o then 1 else 0 := by
  cases hm
  case backOff hr hpc => simp only [asksRetry, hpc, hr, decide_true, if_true, setStatus]
  case acknowledged hr hpc | partialSuccess hr hn hpc | rejectedAlone hr hl hpc | split hr hl hpc
      | fatal hr hpc =>
    simp only [asksRetry, hpc, hr, reduceCtorEq, decide_false, Bool.false_eq_true, if_false]
    rfl
  case pollReady hr hpc | pollNext hr hpc =>
    rw [hpc] at hex
    cases hex
  all_goals
    rename_i hpc
    simp only [asksRetry, hpc]
    rfl

/-- Where an export stands after a counted run. -/
structure CountedExport (s₀ : State L) (batch : List MappedLog) (s : State L) (t : Tally) :
    Prop where
  /-- What it has done. -/
  law : ∃ done sent, ExportLaw s₀ batch s done sent
  /-- It goes on or has returned. -/
  place : exporting s.worker.pc = true ∨ exported s.worker.pc = true
  /-- The answers that asked for a retry. -/
  retries : s.world.metrics.retries = s₀.world.metrics.retries + t.retryable
  /-- The worker's steps are paid for. -/
  steps : t.steps + stepsLeft s.worker.pc ≤ stepsLeft s₀.worker.pc + 4 * t.retryable

/-- A step that asks for a retry puts the end off by three. -/
theorem stepsLeft_asked {o : Oracle} {w w' : World L} {k k' : Worker L} {e : Attempt}
    (hpc : k.pc = .awaitReply e) (hr : o.reply = .retryable) (hm : WorkerMove x o w k w' k') :
    stepsLeft k'.pc = stepsLeft k.pc + 3 := by
  cases hm
  case backOff e' hr' hpc' => simp only [hpc', stepsLeft]
  case acknowledged hr' hpc' | partialSuccess hr' hn hpc' | rejectedAlone hr' hl hpc'
      | split hr' hl hpc' | fatal hr' hpc' =>
    rw [hr'] at hr
    cases hr
  all_goals
    rename_i hpc'
    rw [hpc'] at hpc
    cases hpc

/-- Every step of an export is counted and paid for. -/
theorem CountedExport.step {batch : List MappedLog} {t : Tally} (h : CountedExport s₀ batch s t)
    (hok : countable s a) (hm : Move x s a s') :
    CountedExport s₀ batch s' (tally s a s' t) := by
  obtain ⟨done, sent, hlaw⟩ := h.law
  have hnext := hlaw.step hok hm
  by_cases ha : ∀ o, a ≠ .worker o
  · have hkeep := untouched_of_move hm ha
    have htally : tally s a s' t = t := by
      cases a with
      | worker o => exact absurd rfl (ha o)
      | _ => rfl
    rw [htally]
    refine ⟨hnext, ?_, hkeep.retries.trans h.retries, ?_⟩
    · rw [hkeep.worker]
      exact h.place
    · rw [hkeep.worker]
      exact h.steps
  · cases hm with
    | @worker o w' k' hab hm =>
      have hsteps := h.steps
      obtain ⟨hplace, hfall⟩ := hlaw.progress hok.1 hm
      have hretries := retries_of_worker hok.1 hm
      refine ⟨hnext, hplace, ?_, ?_⟩
      · simp only [tally, hretries, h.retries]
        omega
      · simp only [tally]
        rcases hfall with hfall | ⟨⟨e, hpc⟩, hr⟩
        · split_ifs <;> omega
        · have hasked : asksRetry s.worker o = true := by
            simp only [asksRetry, hpc, hr, decide_true]
          have hmore := stepsLeft_asked hpc hr hm
          rw [if_pos hasked]
          omega
    | _ => exact (ha fun o hc => by cases hc).elim

/-- Every run within an export is counted and paid for. -/
theorem countedExport {batch : List MappedLog} (hpc : s₀.worker.pc = .startExport batch)
    (hne : batch ≠ []) {t : Tally}
    (h : ReachWhile (countedStep x) (fun p => countable p.1) (s₀, ⟨0, 0⟩) (s, t)) :
    CountedExport s₀ batch s t := by
  have hstart : CountedExport s₀ batch s₀ ⟨0, 0⟩ :=
    ⟨⟨[], [], .start hpc hne⟩, Or.inl (by rw [hpc]; rfl), rfl, Nat.le_of_eq (Nat.zero_add _)⟩
  exact h.invariant (I := fun p => CountedExport s₀ batch p.1 p.2) hstart
    fun p q _ hp hok hs => by
      obtain ⟨hstep, htally⟩ := of_monitored hs
      rw [htally]
      exact hp.step hok (stepMove hstep)

/-- Inside an export the worker can always go on. -/
theorem worker_enabled (hex : exporting s.worker.pc = true) (hab : s.aborted = false)
    (o : Oracle) : (GenerationStep.step x s (.worker o)).isSome = true := by
  have hsome : (workerStep x o s.world s.worker).isSome = true := by
    cases hpc : s.worker.pc
    case nextPart stack => cases stack <;> simp only [workerStep, hpc, Option.isSome_some]
    case completing resume rest => cases rest <;> simp only [workerStep, hpc, Option.isSome_some]
    case startExport | attempt | awaitReply | retrySleep | retried | countRejected |
        notifyProgress =>
      simp only [workerStep, hpc, Option.isSome_some]
    all_goals
      rw [hpc] at hex
      cases hex
  simp only [GenerationStep.step, hab, Bool.false_eq_true, if_false, Option.isSome_map, hsome]

/-- What is resolved and what is about to be sent are disjoint. -/
theorem ExportLaw.unsent {batch done : List MappedLog} {sent : List (List MappedLog)}
    (h : ExportLaw s₀ batch s done sent) {e : Attempt} (hpc : s.worker.pc = .attempt e)
    (hnodup : (batch.map MappedLog.ticket).Nodup) :
    ∀ r ∈ e.records, r.ticket ∉ done.map MappedLog.ticket := by
  have hsplit := h.split
  simp only [hpc, uncompleted, parts, List.append_nil, List.flatten_cons] at hsplit
  rw [← hsplit, List.map_append, List.map_append] at hnodup
  have hdisjoint := (List.nodup_append.mp hnodup).2.2
  intro r hr hmem
  exact hdisjoint _ hmem _ (List.mem_append_left _ (List.mem_map_of_mem hr)) rfl

/-- However the collector answers, an export sends no empty request and no
resolved record, takes at most the stated number of requests and steps, and
returns with every ticket of its batch completed or retained, in order. -/
theorem export_batch_conserves {batch : List MappedLog} (hpc : s₀.worker.pc = .startExport batch)
    (hne : batch ≠ []) {t : Tally}
    (h : ReachWhile (countedStep x) (fun p => exportStep p.1) (s₀, ⟨0, 0⟩) (s, t)) :
    (∃ sent, s.world.history.requests = s₀.world.history.requests ++ sent ∧
      (∀ r ∈ sent, r ≠ []) ∧
      s.world.metrics.exportAttempts = s₀.world.metrics.exportAttempts + sent.length ∧
      sent.length ≤ 2 * batch.length - 1 + t.retryable) ∧
    (∀ e, s.worker.pc = .attempt e → ∃ resolved rest,
      s.world.history.resolved.map Prod.fst =
        s₀.world.history.resolved.map Prod.fst ++ resolved ∧
      batch = resolved ++ e.records ++ rest ∧
      ((batch.map MappedLog.ticket).Nodup →
        ∀ r ∈ e.records, r.ticket ∉ resolved.map MappedLog.ticket)) ∧
    (exported s.worker.pc = true → ∃ acknowledged,
      acknowledged ++ (parts s.worker.pc).flatten = batch ∧
      s.world.history.completed =
        s₀.world.history.completed ++ acknowledged.map MappedLog.ticket ∧
      counted s.world = counted s₀.world + acknowledged.length) ∧
    (exporting s.worker.pc = true ∨ exported s.worker.pc = true) ∧
    t.steps ≤ 12 * batch.length + 4 * t.retryable ∧
    (exporting s.worker.pc = true → s.aborted = false →
      ∀ o, (GenerationStep.step x s (.worker o)).isSome = true) := by
  have hcounted := countedExport hpc hne (h.mono fun _ _ => countable_of_exportStep)
  obtain ⟨done, sent, hlaw⟩ := hcounted.law
  refine ⟨⟨sent, hlaw.requests, hlaw.filled, hlaw.attempts, ?_⟩, fun e he => ?_, fun hexit => ?_,
    hcounted.place, ?_, fun hex hab => worker_enabled hex hab⟩
  · have hpaid := hlaw.paid
    have hretries := hcounted.retries
    omega
  · have hsplit := hlaw.split
    have hresolved := hlaw.resolved
    simp only [he, uncompleted, parts, List.append_nil, List.flatten_cons] at hsplit hresolved
    refine ⟨done, e.stack.flatten, hresolved, ?_, hlaw.unsent he⟩
    rw [← hsplit, List.append_assoc]
  · have hrest : uncompleted s.worker.pc = [] ∧ (held s.worker.pc).uncounted = 0 := by
      cases hpc' : s.worker.pc
      case batchDone | terminalInflight => exact ⟨rfl, rfl⟩
      all_goals
        rw [hpc'] at hexit
        cases hexit
    have hsplit := hlaw.split
    have hcount := hlaw.counted
    rw [hrest.1, List.append_nil] at hsplit
    rw [resolvedCount, hrest.1, hrest.2, List.length_nil, Nat.add_zero, Nat.add_zero] at hcount
    exact ⟨done, hsplit, hlaw.completed, hcount⟩
  · have hsteps := hcounted.steps
    have hlen : 0 < batch.length := List.length_pos_iff.mpr hne
    simp only [hpc, stepsLeft, stepCost_cons, stepCost_nil] at hsteps
    omega

/-- A check for steps within an export with honest answers. -/
def exportCheck (p : State L × Tally) (a : Action L) : Bool :=
  exporting p.1.worker.pc && honestCheck p.1 a

/-- Steps that pass it are such steps. -/
theorem exportStep_of_check (p : State L × Tally) (a : Action L) (h : exportCheck p a = true) :
    exportStep p.1 a := by
  obtain ⟨hex, hon⟩ := (Bool.and_eq_true _ _).mp h
  exact ⟨hex, honest_of_check _ _ hon⟩

/-- A worker that has taken two records and begins to export them. -/
def exportBegun : State ℕ :=
  (replay (step sample) noCheck (State.init ℕ)
    (.spawn :: submitAlone 0 3 ++ .enter 0 4 :: producerSteps 0 7 ++ lateSteps 18)).getD
    (State.init ℕ)

/-- The batch of an export that begins. -/
def begunBatch : WorkerPc L → List MappedLog
  | .startExport batch => batch
  | _ => []

/-- Only there is a batch. -/
theorem startExport_of_begunBatch {pc : WorkerPc L} (h : begunBatch pc ≠ []) :
    pc = .startExport (begunBatch pc) := by
  cases pc with
  | startExport batch => rfl
  | _ => exact absurd rfl h

/-- The first answer asks for a retry and the second refuses the batch. Of the
halves one is accepted and the other rejected. -/
def dividedOnce : List (Action ℕ) :=
  lateSteps 3 ++ workerSteps 1 .retryable ++ lateSteps 3 ++ workerSteps 1 .invalidPayload ++
    lateSteps 6 ++ workerSteps 8 (.ok 0 1)

/-- Whether an export has returned after that run, with four requests. -/
def returnedDivided (p : State ℕ × Tally) : Bool :=
  exported p.1.worker.pc &&
    decide (p.2 = ⟨22, 1⟩ ∧ p.1.world.metrics.exportAttempts = 4 ∧
      (parts p.1.worker.pc).flatten = [])

/-- A batch of two that is retried and then divided sends as many requests as
the bound allows, and completes both tickets. -/
theorem export_batch_conserves_divided :
    ∃ (s : State ℕ) (sent : List (List MappedLog)),
      Reach (GenerationStep.step sample) exportBegun s ∧
      (begunBatch exportBegun.worker.pc).map MappedLog.ticket = [1, 2] ∧
      s.world.history.requests = exportBegun.world.history.requests ++ sent ∧
      sent.length = 2 * 2 - 1 + 1 ∧
      s.world.history.completed = exportBegun.world.history.completed ++ [1, 2] := by
  have hbatch : (begunBatch exportBegun.worker.pc).map MappedLog.ticket = [1, 2] := by
    decide +kernel
  have hattempts : exportBegun.world.metrics.exportAttempts = 0 := by decide +kernel
  have hne : begunBatch exportBegun.worker.pc ≠ [] := fun h => by
    rw [h] at hbatch
    cases hbatch
  obtain ⟨⟨s, t⟩, hs, hp⟩ := exists_reach_of_replay (countedStep sample) exportStep_of_check
    (exportBegun, ⟨0, 0⟩) dividedOnce returnedDivided (by decide +kernel)
  obtain ⟨hex, hp⟩ := (Bool.and_eq_true _ _).mp hp
  obtain ⟨-, hfour, hflat⟩ := of_decide_eq_true hp
  obtain ⟨⟨sent, hrequests, -, hsent, -⟩, -, hexit, -⟩ :=
    export_batch_conserves (startExport_of_begunBatch hne) hne hs
  obtain ⟨acknowledged, hsplit, hcompleted, -⟩ := hexit hex
  rw [hattempts, Nat.zero_add] at hsent
  refine ⟨s, sent, (hs.unmonitored fun _ _ h => h).reach, hbatch, hrequests, hsent.symm.trans hfour,
    ?_⟩
  rw [hcompleted, ← hbatch, ← hsplit, hflat, List.append_nil]

end EdenLogger.BatchExport
