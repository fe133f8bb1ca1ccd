import EdenLogger.GenerationStep

/-!
# What a step can do

One inversion for each party. A move names the branch of the step function
that was taken, with the guards that selected it and the state it leads to, so
that invariants are proved by cases on moves and the step functions are not
unfolded again.
-/

namespace EdenLogger.GenerationMoves

open MachineWord WakeUpPermit RequestSizer ExporterConfig ExporterLanes LogCollector
open CompletionTracking GenerationState GenerationStep RunRules

variable {L : Type}

/-- A step's result, component by component. -/
theorem pair_of_some {α β : Type*} {a c : α} {b d : β} (h : some (a, b) = some (c, d)) :
    a = c ∧ b = d := by
  simpa only [Option.some.injEq, Prod.mk.injEq] using h

/-! ## Producing threads -/

/-- What thread `i` can do inside the callback or at its exit. -/
inductive ProducerMove (x : Exporter L) (i : ℕ) (w : World L) (p : Producer L) :
    World L → Producer L → Prop where
  | stopped {log : L} (ha : w.accepting = false) (hpc : p.pc = .entered log) :
      ProducerMove x i w p
        { w with metrics.droppedStopped := w.metrics.droppedStopped + 1 } { p with pc := .leaving }
  | filtered {log : L} (ha : w.accepting = true) (hf : isFiltered x log = true)
      (hpc : p.pc = .entered log) :
      ProducerMove x i w p
        { w with metrics.filtered := w.metrics.filtered + 1 } { p with pc := .leaving }
  | submit {log : L} (ha : w.accepting = true) (hf : isFiltered x log = false)
      (hpc : p.pc = .entered log) :
      ProducerMove x i w p w { p with pc := .resolve (submission x log) }
  | found {r : Submission L} {j : ℕ} (hl : p.lane = some j) (hpc : p.pc = .resolve r) :
      ProducerMove x i w p w { p with pc := .claimBytes r .normal }
  | register {r : Submission L} (hl : p.lane = none) (hpc : p.pc = .resolve r) :
      ProducerMove x i w p (registerLane w) ⟨.claimBytes r .normal, some w.lanes.length⟩
  | bytesRefused {r : Submission L} {q : QueueKind}
      (hc : claimAmount (w.metrics.queueBytes.get q) (byteCapacity x q) r.bytes = .refused)
      (hpc : p.pc = .claimBytes r q) :
      ProducerMove x i w p w { p with pc := refuse r .bytes q }
  | bytesGranted {r : Submission L} {q : QueueKind} {n : ℕ}
      (hc : claimAmount (w.metrics.queueBytes.get q) (byteCapacity x q) r.bytes = .granted n)
      (hpc : p.pc = .claimBytes r q) :
      ProducerMove x i w p (setBytes w q n) { p with pc := .claimDepth r q }
  | bytesOvershot {r : Submission L} {q : QueueKind} {n : ℕ}
      (hc : claimAmount (w.metrics.queueBytes.get q) (byteCapacity x q) r.bytes = .overshot n)
      (hpc : p.pc = .claimBytes r q) :
      ProducerMove x i w p (setBytes w q n) { p with pc := .undoBytes r q }
  | undoBytes {r : Submission L} {q : QueueKind} (hpc : p.pc = .undoBytes r q) :
      ProducerMove x i w p (subBytes w q r.bytes) { p with pc := refuse r .bytes q }
  | depthRefused {r : Submission L} {q : QueueKind}
      (hc : claimAmount (w.metrics.queueDepth.get q) (capacity x q) 1 = .refused)
      (hpc : p.pc = .claimDepth r q) :
      ProducerMove x i w p w { p with pc := .returnBytes r q }
  | depthGranted {r : Submission L} {q : QueueKind} {n : ℕ}
      (hc : claimAmount (w.metrics.queueDepth.get q) (capacity x q) 1 = .granted n)
      (hpc : p.pc = .claimDepth r q) :
      ProducerMove x i w p (setDepth w q n) { p with pc := .takeTicket r q }
  | depthOvershot {r : Submission L} {q : QueueKind} {n : ℕ}
      (hc : claimAmount (w.metrics.queueDepth.get q) (capacity x q) 1 = .overshot n)
      (hpc : p.pc = .claimDepth r q) :
      ProducerMove x i w p (setDepth w q n) { p with pc := .undoDepth r q }
  | undoDepth {r : Submission L} {q : QueueKind} (hpc : p.pc = .undoDepth r q) :
      ProducerMove x i w p (subDepth w q) { p with pc := .returnBytes r q }
  | returnBytes {r : Submission L} {q : QueueKind} (hpc : p.pc = .returnBytes r q) :
      ProducerMove x i w p (subBytes w q r.bytes) { p with pc := refuse r .records q }
  | takeTicket {r : Submission L} {q : QueueKind} (hn : w.nextTicket < wordMax)
      (hpc : p.pc = .takeTicket r q) :
      ProducerMove x i w p { w with nextTicket := w.nextTicket + 1 }
        { p with pc := .push r q (w.nextTicket + 1) }
  | push {r : Submission L} {q : QueueKind} {ticket j : ℕ} {lane : ProducerLane L}
      (hj : p.lane = some j) (hl : w.lanes[j]? = some lane) (hpc : p.pc = .push r q ticket) :
      ProducerMove x i w p (pushLane w j lane ⟨r.log, q, r.bytes, ticket, i⟩)
        { p with pc := if lane.queues.isEmpty then .notify else .leaving }
  | notify (hpc : p.pc = .notify) :
      ProducerMove x i w p (notifyRecords w) { p with pc := .leaving }
  | refused {failure : ClaimFailure} (hpc : p.pc = .refused failure) :
      ProducerMove x i w p (countRefused w failure) { p with pc := .leaving }
  | leave (hpc : p.pc = .leaving) : ProducerMove x i w p w { p with pc := .idle }
  | close {j : ℕ} {lane : ProducerLane L} (hj : p.lane = some j) (hl : w.lanes[j]? = some lane)
      (hpc : p.pc = .closing) :
      ProducerMove x i w p { w with lanes := w.lanes.set j { lane with closed := true } }
        { p with pc := .closed }
  | closed (hpc : p.pc = .closed) :
      ProducerMove x i w p (notifyRecords w) { p with pc := .gone }

/-- Every step of a thread is one of its moves. -/
theorem producerMove {x : Exporter L} {i : ℕ} {w w' : World L} {p p' : Producer L}
    (h : producerStep x i w p = some (w', p')) : ProducerMove x i w p w' p' := by
  unfold producerStep at h
  split at h
  case h_1 => exact absurd h (by simp)
  case h_2 log hpc =>
    split_ifs at h with ha hf
    · cases h
      exact .stopped ha hpc
    · cases h
      exact .filtered (by simpa using ha) hf hpc
    · cases h
      exact .submit (by simpa using ha) (by simpa using hf) hpc
  case h_3 r hpc =>
    split at h
    · cases h
      exact .found ‹_› hpc
    · cases h
      exact .register ‹_› hpc
  case h_4 r q hpc =>
    split at h
    · cases h
      exact .bytesRefused ‹_› hpc
    · cases h
      exact .bytesGranted ‹_› hpc
    · cases h
      exact .bytesOvershot ‹_› hpc
  case h_5 r q hpc =>
    cases h
    exact .undoBytes hpc
  case h_6 r q hpc =>
    split at h
    · cases h
      exact .depthRefused ‹_› hpc
    · cases h
      exact .depthGranted ‹_› hpc
    · cases h
      exact .depthOvershot ‹_› hpc
  case h_7 r q hpc =>
    cases h
    exact .undoDepth hpc
  case h_8 r q hpc =>
    cases h
    exact .returnBytes hpc
  case h_9 r q hpc =>
    split_ifs at h with hn
    cases h
    exact .takeTicket hn hpc
  case h_10 r q ticket hpc =>
    simp only [Option.bind_eq_some_iff, Option.map_eq_some_iff, Prod.mk.injEq] at h
    obtain ⟨j, hj, lane, hl, rfl, rfl⟩ := h
    exact .push hj hl hpc
  case h_11 hpc =>
    cases h
    exact .notify hpc
  case h_12 failure hpc =>
    cases h
    exact .refused hpc
  case h_13 hpc =>
    cases h
    exact .leave hpc
  case h_14 hpc =>
    simp only [Option.bind_eq_some_iff, Option.map_eq_some_iff, Prod.mk.injEq] at h
    obtain ⟨j, hj, lane, hl, rfl, rfl⟩ := h
    exact .close hj hl hpc
  case h_15 hpc =>
    cases h
    exact .closed hpc
  case h_16 => exact absurd h (by simp)

/-! ## The worker -/

/-- What the worker can do. -/
inductive WorkerMove (x : Exporter L) (o : Oracle) (w : World L) (k : Worker L) :
    World L → Worker L → Prop where
  | drain {d : Drain} (hpc : k.pc = .drain d) :
      WorkerMove x o w k (pruneLanes w o) { k with pc := .take d (drainOrder w o) [] }
  | take {d : Drain} {i : ℕ} {todo : List ℕ} {detached : List (ℕ × LaneQueues L)}
      {lane : ProducerLane L} (hl : w.lanes[i]? = some lane)
      (hpc : k.pc = .take d (i :: todo) detached) :
      WorkerMove x o w k { w with lanes := w.lanes.set i lane.take.2 }
        { k with pc := .take d todo (detached ++ [(i, lane.take.1)]) }
  | detach {d : Drain} {detached : List (ℕ × LaneQueues L)} (hpc : k.pc = .take d [] detached) :
      WorkerMove x o w k { w with lanes := recycleLanes w.lanes (emptied detached k.input) }
        { k with pc := drainNext d, input := moveDetached detached k.input }
  | popNone {site : Site} (hi : k.input.records = []) (hpc : k.pc = .pop site) :
      WorkerMove x o w k w { k with pc := receivedNone k.input site }
  | pop {site : Site} {log : QueuedLog L} {input : LaneQueues L}
      (hi : k.input.popFront = some (log, input)) (hpc : k.pc = .pop site) :
      WorkerMove x o w k
        (subDepth { w with history.popped := w.history.popped ++ [log.tag] } log.queue)
        { k with pc := .release site log, input := input }
  | release {site : Site} {log : QueuedLog L} (hpc : k.pc = .release site log) :
      WorkerMove x o w k (subBytes w log.queue log.bytes) (received k (mapLog x o.now log) site)
  | chooseCarried {r : MappedLog} {pending : List MappedLog} (hp : k.pending = r :: pending)
      (hpc : k.pc = .chooseFirst) :
      WorkerMove x o w k w { k with pc := .first r, pending := pending }
  | chooseReceive {site : Site} (hp : k.pending = [])
      (hs : site = if k.shuttingDown then .firstDraining else .receive)
      (hpc : k.pc = .chooseFirst) :
      WorkerMove x o w k w { k with pc := tryReceive k.input site }
  | firstOversize {r : MappedLog} (ho : isOversize x r = true) (hpc : k.pc = .first r) :
      WorkerMove x o w k (rejectOversize w r) { k with pc := .completing .loopTop [r] }
  | first {r : MappedLog} (ho : isOversize x r = false) (hpc : k.pc = .first r) :
      WorkerMove x o w k w { k with pc := .assemble ⟨[r], recordFieldLen r⟩ }
  | assembleCarried {a : Assembly} {r : MappedLog} {pending : List MappedLog}
      (hl : a.batch.length < x.config.maxBatchRecords) (hp : k.pending = r :: pending)
      (hpc : k.pc = .assemble a) :
      WorkerMove x o w k w { k with pc := .offer a r, pending := pending }
  | assembleReceive {a : Assembly} {site : Site} (hl : a.batch.length < x.config.maxBatchRecords)
      (hp : k.pending = [])
      (hs : site = if k.shuttingDown then .nextDraining a else .nextPolled a)
      (hpc : k.pc = .assemble a) :
      WorkerMove x o w k w { k with pc := tryReceive k.input site }
  | assembleFull {a : Assembly} (hl : ¬ a.batch.length < x.config.maxBatchRecords)
      (hpc : k.pc = .assemble a) :
      WorkerMove x o w k w { k with pc := .startExport a.batch }
  | offerOversize {a : Assembly} {r : MappedLog} (ho : isOversize x r = true)
      (hpc : k.pc = .offer a r) :
      WorkerMove x o w k (rejectOversize w r) { k with pc := .completing (.assemble a) [r] }
  | offerFits {a : Assembly} {r : MappedLog} (ho : isOversize x r = false)
      (hf : fitsRecord x a r = true) (hpc : k.pc = .offer a r) :
      WorkerMove x o w k w { k with pc := .assemble (addRecord a r) }
  | offerCarry {a : Assembly} {r : MappedLog} (ho : isOversize x r = false)
      (hf : fitsRecord x a r = false) (hpc : k.pc = .offer a r) :
      WorkerMove x o w k w { k with pc := .startExport a.batch, pending := r :: k.pending }
  | pollReady {wait : Wait} {c : Cell} {cells : List Cell} (hr : (pollCell w o c).1 = true)
      (hpc : k.pc = .poll wait (c :: cells)) :
      WorkerMove x o w k (dropWaits (pollCell w o c).2) (waitReady k c wait)
  | pollNext {wait : Wait} {c : Cell} {cells : List Cell} (hr : (pollCell w o c).1 = false)
      (hpc : k.pc = .poll wait (c :: cells)) :
      WorkerMove x o w k (pollCell w o c).2 { k with pc := .poll wait cells }
  | suspend {wait : Wait} (hpc : k.pc = .poll wait []) :
      WorkerMove x o w k w { k with pc := .parked wait }
  | wake {wait : Wait} (hpc : k.pc = .parked wait) :
      WorkerMove x o w k w { k with pc := .poll wait wait.cells }
  | closedSeen (hc : w.producersClosed = true) (hpc : k.pc = .loadClosed) :
      WorkerMove x o w k w { k with pc := .storeStopped .drained }
  | closedWait (hc : w.producersClosed = false) (hpc : k.pc = .loadClosed) :
      WorkerMove x o w k w { k with pc := startWait .producersClosed }
  | startExport {batch : List MappedLog} (hpc : k.pc = .startExport batch) :
      WorkerMove x o w k
        { setInflight w batch.length with history.exportStart := w.history.completed.length }
        { k with pc := .nextPart [batch] }
  | partsDone (hpc : k.pc = .nextPart []) : WorkerMove x o w k w { k with pc := .batchDone }
  | nextPart {records : List MappedLog} {stack : List (List MappedLog)}
      (hpc : k.pc = .nextPart (records :: stack)) :
      WorkerMove x o w k w { k with pc := .attempt ⟨records, 0, stack⟩ }
  | attempt {e : Attempt} (hpc : k.pc = .attempt e) :
      WorkerMove x o w k (sendRequest w e.records) { k with pc := .awaitReply e }
  | acknowledged {e : Attempt} {accepted : ℕ} (hr : o.reply = .ok accepted 0)
      (hpc : k.pc = .awaitReply e) :
      WorkerMove x o w k (countBatch (settle w e.records.length 0 e.records .acknowledged))
        { k with pc := .completing (.nextPart e.stack) e.records }
  | partialSuccess {e : Attempt} {accepted rejected : ℕ} (hr : o.reply = .ok accepted rejected)
      (hn : rejected ≠ 0) (hpc : k.pc = .awaitReply e) :
      WorkerMove x o w k
        (settle { w with metrics.partialRejections := w.metrics.partialRejections + 1 }
          accepted 0 e.records .partialSuccess)
        { k with pc := .countRejected e rejected }
  | countRejected {e : Attempt} {rejected : ℕ} (hpc : k.pc = .countRejected e rejected) :
      WorkerMove x o w k (countRejected w rejected)
        { k with pc := .completing (.nextPart e.stack) e.records }
  | rejectedAlone {e : Attempt} (hr : o.reply = .invalidPayload) (hl : e.records.length = 1)
      (hpc : k.pc = .awaitReply e) :
      WorkerMove x o w k (settle w 0 1 e.records .invalidPayload)
        { k with pc := .completing (.nextPart e.stack) e.records }
  | split {e : Attempt} (hr : o.reply = .invalidPayload) (hl : e.records.length ≠ 1)
      (hpc : k.pc = .awaitReply e) :
      WorkerMove x o w k w { k with pc := .nextPart (splitRecords e.records ++ e.stack) }
  | backOff {e : Attempt} (hr : o.reply = .retryable) (hpc : k.pc = .awaitReply e) :
      WorkerMove x o w k
        (setStatus { w with metrics.retries := w.metrics.retries + 1 } .backingOff)
        { k with pc := .retrySleep { e with failures := min (e.failures + 1) u32Max } }
  | fatal {e : Attempt} (hr : o.reply = .fatal) (hpc : k.pc = .awaitReply e) :
      WorkerMove x o w k (setStatus w .terminalFailure)
        { k with pc := .terminalInflight (e.records :: e.stack) }
  | slept {e : Attempt} (hpc : k.pc = .retrySleep e) :
      WorkerMove x o w k w { k with pc := .retried e w.accepting }
  | retried {e : Attempt} {accepting : Bool} (hpc : k.pc = .retried e accepting) :
      WorkerMove x o w k (setStatus w (if accepting then .running else .shuttingDown))
        { k with pc := .attempt e }
  | completed {resume : Resume} (hpc : k.pc = .completing resume []) :
      WorkerMove x o w k w { k with pc := resumePc resume }
  | ignored {resume : Resume} {r : MappedLog} {rest : List MappedLog}
      (hc : k.completions.complete r.ticket = none) (hpc : k.pc = .completing resume (r :: rest)) :
      WorkerMove x o w k { w with history.completed := w.history.completed ++ [r.ticket] }
        { k with pc := .completing resume rest }
  | complete {resume : Resume} {r : MappedLog} {rest : List MappedLog} {t : CompletionTracker}
      (hc : k.completions.complete r.ticket = some t)
      (hpc : k.pc = .completing resume (r :: rest)) :
      WorkerMove x o w k
        { w with
          completedTicket := t.watermark
          history.completed := w.history.completed ++ [r.ticket] }
        { k with pc := .notifyProgress resume rest, completions := t }
  | notifyProgress {resume : Resume} {rest : List MappedLog}
      (hpc : k.pc = .notifyProgress resume rest) :
      WorkerMove x o w k { w with progress := w.progress.notifyWaiters }
        { k with pc := .completing resume rest }
  | batchDone (hpc : k.pc = .batchDone) :
      WorkerMove x o w k (setInflight w 0) { k with pc := .batchStatus }
  | batchStatus (hpc : k.pc = .batchStatus) :
      WorkerMove x o w k (setStatus w (if k.shuttingDown then .shuttingDown else .running))
        { k with pc := .drain .boundary }
  | terminalInflight {retained : List (List MappedLog)} (hpc : k.pc = .terminalInflight retained) :
      WorkerMove x o w k (setInflight w (retainedCount retained))
        { k with pc := .terminalAccepting retained }
  | terminalWait {retained : List (List MappedLog)} (ha : w.accepting = true)
      (hpc : k.pc = .terminalAccepting retained) :
      WorkerMove x o w k w { k with pc := startWait (.terminalShutdown retained) }
  | terminalProceed {retained : List (List MappedLog)} (ha : w.accepting = false)
      (hpc : k.pc = .terminalAccepting retained) :
      WorkerMove x o w k w { k with pc := .terminalClosed retained }
  | terminalSeen {retained : List (List MappedLog)} (hc : w.producersClosed = true)
      (hpc : k.pc = .terminalClosed retained) :
      WorkerMove x o w k w { k with pc := .ledgerNormal retained }
  | terminalUnclosed {retained : List (List MappedLog)} (hc : w.producersClosed = false)
      (hpc : k.pc = .terminalClosed retained) :
      WorkerMove x o w k w { k with pc := startWait (.terminalRecords retained) }
  | ledgerNormal {retained : List (List MappedLog)} (hpc : k.pc = .ledgerNormal retained) :
      WorkerMove x o w k w { k with pc := .ledgerReserved retained w.metrics.queueDepth.normal }
  | ledgerReserved {retained : List (List MappedLog)} {normal : ℕ}
      (hpc : k.pc = .ledgerReserved retained normal) :
      WorkerMove x o w k w
        { k with pc := .ledgerAdd retained (saturatingAdd (retainedCount retained)
            (saturatingAdd normal w.metrics.queueDepth.reserved)) }
  | ledgerAdd {retained : List (List MappedLog)} {remaining : ℕ}
      (hpc : k.pc = .ledgerAdd retained remaining) :
      WorkerMove x o w k
        { w with metrics.droppedShutdown := w.metrics.droppedShutdown + remaining }
        { k with pc := .ledgerClear retained remaining }
  | ledgerClear {retained : List (List MappedLog)} {remaining : ℕ}
      (hpc : k.pc = .ledgerClear retained remaining) :
      WorkerMove x o w k (clearQueues w k)
        { k with pc := .storeStopped (.terminal retained remaining), input := LaneQueues.new }
  | storeStopped {exit : Exit} (hpc : k.pc = .storeStopped exit) :
      WorkerMove x o w k (setStatus w .stopped) { k with pc := .notifyStopped exit }
  | notifyStopped {exit : Exit} (hpc : k.pc = .notifyStopped exit) :
      WorkerMove x o w k { w with progress := w.progress.notifyWaiters }
        { k with pc := .reporting exit }
  | report {exit : Exit} (hpc : k.pc = .reporting exit) :
      WorkerMove x o w k w
        { k with pc := .finished exit ⟨false, exit.remaining, metricsSnapshot w⟩ }

/-- Every answer is one of the worker's moves. -/
theorem answerMove {x : Exporter L} {o : Oracle} {w : World L} {k : Worker L} {e : Attempt}
    (hpc : k.pc = .awaitReply e) :
    WorkerMove x o w k (answer w e o.reply).1 { k with pc := (answer w e o.reply).2 } := by
  cases hr : o.reply with
  | ok accepted rejected =>
    unfold answer
    dsimp only
    split
    · rename_i h0
      exact .acknowledged (h0 ▸ hr) hpc
    · exact .partialSuccess hr ‹_› hpc
  | invalidPayload =>
    unfold answer
    dsimp only
    split
    · exact .rejectedAlone hr ‹_› hpc
    · exact .split hr ‹_› hpc
  | retryable => exact .backOff hr hpc
  | fatal => exact .fatal hr hpc

/-- Every step of the worker is one of its moves. -/
theorem workerMove {x : Exporter L} {o : Oracle} {w w' : World L} {k k' : Worker L}
    (h : workerStep x o w k = some (w', k')) : WorkerMove x o w k w' k' := by
  unfold workerStep at h
  split at h
  case h_1 d hpc =>
    obtain ⟨rfl, rfl⟩ := pair_of_some h
    exact .drain hpc
  case h_2 d i todo detached hpc =>
    simp only [Option.map_eq_some_iff, Prod.mk.injEq] at h
    obtain ⟨lane, hl, rfl, rfl⟩ := h
    exact .take hl hpc
  case h_3 d detached hpc =>
    obtain ⟨rfl, rfl⟩ := pair_of_some h
    exact .detach hpc
  case h_4 site hpc =>
    split at h
    · rename_i hi
      obtain ⟨rfl, rfl⟩ := pair_of_some h
      exact .popNone ((LaneQueues.popFront_eq_none_iff _).mp hi) hpc
    · rename_i hi
      obtain ⟨rfl, rfl⟩ := pair_of_some h
      exact .pop hi hpc
  case h_5 site log hpc =>
    obtain ⟨rfl, rfl⟩ := pair_of_some h
    exact .release hpc
  case h_6 hpc =>
    split at h
    · rename_i hp
      obtain ⟨rfl, rfl⟩ := pair_of_some h
      exact .chooseCarried hp hpc
    · rename_i hp
      split at h
      · rename_i hs
        obtain ⟨rfl, rfl⟩ := pair_of_some h
        exact .chooseReceive hp (by rw [if_pos hs]) hpc
      · rename_i hs
        obtain ⟨rfl, rfl⟩ := pair_of_some h
        exact .chooseReceive hp (by rw [if_neg hs]) hpc
  case h_7 r hpc =>
    split at h
    · rename_i ho
      obtain ⟨rfl, rfl⟩ := pair_of_some h
      exact .firstOversize ho hpc
    · rename_i ho
      obtain ⟨rfl, rfl⟩ := pair_of_some h
      exact .first (Bool.eq_false_of_not_eq_true ho) hpc
  case h_8 a hpc =>
    split at h
    · rename_i hl
      split at h
      · rename_i hp
        obtain ⟨rfl, rfl⟩ := pair_of_some h
        exact .assembleCarried hl hp hpc
      · rename_i hp
        split at h
        · rename_i hs
          obtain ⟨rfl, rfl⟩ := pair_of_some h
          exact .assembleReceive hl hp (by rw [if_pos hs]) hpc
        · rename_i hs
          obtain ⟨rfl, rfl⟩ := pair_of_some h
          exact .assembleReceive hl hp (by rw [if_neg hs]) hpc
    · rename_i hl
      obtain ⟨rfl, rfl⟩ := pair_of_some h
      exact .assembleFull hl hpc
  case h_9 a r hpc =>
    split at h
    · rename_i ho
      obtain ⟨rfl, rfl⟩ := pair_of_some h
      exact .offerOversize ho hpc
    · rename_i ho
      split at h
      · rename_i hf
        obtain ⟨rfl, rfl⟩ := pair_of_some h
        exact .offerFits (Bool.eq_false_of_not_eq_true ho) hf hpc
      · rename_i hf
        obtain ⟨rfl, rfl⟩ := pair_of_some h
        exact .offerCarry (Bool.eq_false_of_not_eq_true ho) (Bool.eq_false_of_not_eq_true hf) hpc
  case h_10 wait c cells hpc =>
    split at h
    · rename_i hr
      obtain ⟨rfl, rfl⟩ := pair_of_some h
      exact .pollReady hr hpc
    · rename_i hr
      obtain ⟨rfl, rfl⟩ := pair_of_some h
      exact .pollNext (Bool.eq_false_of_not_eq_true hr) hpc
  case h_11 wait hpc =>
    obtain ⟨rfl, rfl⟩ := pair_of_some h
    exact .suspend hpc
  case h_12 wait hpc =>
    obtain ⟨rfl, rfl⟩ := pair_of_some h
    exact .wake hpc
  case h_13 hpc =>
    split at h
    · rename_i hc
      obtain ⟨rfl, rfl⟩ := pair_of_some h
      exact .closedSeen hc hpc
    · rename_i hc
      obtain ⟨rfl, rfl⟩ := pair_of_some h
      exact .closedWait (Bool.eq_false_of_not_eq_true hc) hpc
  case h_14 batch hpc =>
    obtain ⟨rfl, rfl⟩ := pair_of_some h
    exact .startExport hpc
  case h_15 hpc =>
    obtain ⟨rfl, rfl⟩ := pair_of_some h
    exact .partsDone hpc
  case h_16 records stack hpc =>
    obtain ⟨rfl, rfl⟩ := pair_of_some h
    exact .nextPart hpc
  case h_17 e hpc =>
    obtain ⟨rfl, rfl⟩ := pair_of_some h
    exact .attempt hpc
  case h_18 e hpc =>
    obtain ⟨rfl, rfl⟩ := pair_of_some h
    exact answerMove hpc
  case h_19 e hpc =>
    obtain ⟨rfl, rfl⟩ := pair_of_some h
    exact .slept hpc
  case h_20 e accepting hpc =>
    obtain ⟨rfl, rfl⟩ := pair_of_some h
    exact .retried hpc
  case h_21 e rejected hpc =>
    obtain ⟨rfl, rfl⟩ := pair_of_some h
    exact .countRejected hpc
  case h_22 resume hpc =>
    obtain ⟨rfl, rfl⟩ := pair_of_some h
    exact .completed hpc
  case h_23 resume r rest hpc =>
    unfold completeTicket at h
    dsimp only at h
    split at h
    · rename_i hc
      obtain ⟨rfl, rfl⟩ := pair_of_some h
      exact .ignored hc hpc
    · rename_i hc
      obtain ⟨rfl, rfl⟩ := pair_of_some h
      exact .complete hc hpc
  case h_24 resume rest hpc =>
    obtain ⟨rfl, rfl⟩ := pair_of_some h
    exact .notifyProgress hpc
  case h_25 hpc =>
    obtain ⟨rfl, rfl⟩ := pair_of_some h
    exact .batchDone hpc
  case h_26 hpc =>
    obtain ⟨rfl, rfl⟩ := pair_of_some h
    exact .batchStatus hpc
  case h_27 retained hpc =>
    obtain ⟨rfl, rfl⟩ := pair_of_some h
    exact .terminalInflight hpc
  case h_28 retained hpc =>
    split at h
    · rename_i hc
      obtain ⟨rfl, rfl⟩ := pair_of_some h
      exact .terminalWait hc hpc
    · rename_i hc
      obtain ⟨rfl, rfl⟩ := pair_of_some h
      exact .terminalProceed (Bool.eq_false_of_not_eq_true hc) hpc
  case h_29 retained hpc =>
    split at h
    · rename_i hc
      obtain ⟨rfl, rfl⟩ := pair_of_some h
      exact .terminalSeen hc hpc
    · rename_i hc
      obtain ⟨rfl, rfl⟩ := pair_of_some h
      exact .terminalUnclosed (Bool.eq_false_of_not_eq_true hc) hpc
  case h_30 retained hpc =>
    obtain ⟨rfl, rfl⟩ := pair_of_some h
    exact .ledgerNormal hpc
  case h_31 retained normal hpc =>
    obtain ⟨rfl, rfl⟩ := pair_of_some h
    exact .ledgerReserved hpc
  case h_32 retained remaining hpc =>
    obtain ⟨rfl, rfl⟩ := pair_of_some h
    exact .ledgerAdd hpc
  case h_33 retained remaining hpc =>
    obtain ⟨rfl, rfl⟩ := pair_of_some h
    exact .ledgerClear hpc
  case h_34 exit hpc =>
    obtain ⟨rfl, rfl⟩ := pair_of_some h
    exact .storeStopped hpc
  case h_35 exit hpc =>
    obtain ⟨rfl, rfl⟩ := pair_of_some h
    exact .notifyStopped hpc
  case h_36 exit hpc =>
    obtain ⟨rfl, rfl⟩ := pair_of_some h
    exact .report hpc
  case h_37 => exact absurd h (by simp)

/-! ## Flush calls -/

/-- What a flush call can do. -/
inductive FlushMove (w : World L) (c : FlushCall) : World L → FlushCall → Prop where
  | notify (hpc : c.pc = .notify) :
      FlushMove w c { w with flush := w.flush.notifyOne } { c with pc := .enable }
  | enable (hpc : c.pc = .enable) :
      FlushMove w c w { c with pc := .loadCompleted w.progress.enable }
  | flushed {e : ℕ} (ht : c.target ≤ w.completedTicket) (hpc : c.pc = .loadCompleted e) :
      FlushMove w c w { c with pc := .done ⟨.flushed, c.target, w.completedTicket⟩ }
  | behind {e : ℕ} (ht : w.completedTicket < c.target) (hpc : c.pc = .loadCompleted e) :
      FlushMove w c w { c with pc := .loadStatus e w.completedTicket }
  | failed {e n : ℕ} (hs : w.metrics.status = .terminalFailure) (hpc : c.pc = .loadStatus e n) :
      FlushMove w c w { c with pc := .done ⟨.terminalFailure, c.target, n⟩ }
  | stopped {e n : ℕ} (hs : w.metrics.status = .stopped) (hpc : c.pc = .loadStatus e n) :
      FlushMove w c w { c with pc := .done ⟨.stopped, c.target, n⟩ }
  | park {e n : ℕ} (hf : w.metrics.status ≠ .terminalFailure) (hs : w.metrics.status ≠ .stopped)
      (hpc : c.pc = .loadStatus e n) : FlushMove w c w { c with pc := .parked e }
  | woken {e : ℕ} (hw : w.progress.woken e = true) (hpc : c.pc = .parked e) :
      FlushMove w c w { c with pc := .enable }

/-- Every step of a flush call is one of its moves. -/
theorem flushMove {w w' : World L} {c c' : FlushCall} (h : flushStep w c = some (w', c')) :
    FlushMove w c w' c' := by
  unfold flushStep at h
  split at h
  case h_1 hpc =>
    obtain ⟨rfl, rfl⟩ := pair_of_some h
    exact .notify hpc
  case h_2 hpc =>
    obtain ⟨rfl, rfl⟩ := pair_of_some h
    exact .enable hpc
  case h_3 e hpc =>
    split_ifs at h with ht
    · obtain ⟨rfl, rfl⟩ := pair_of_some h
      exact .flushed ht hpc
    · obtain ⟨rfl, rfl⟩ := pair_of_some h
      exact .behind (Nat.lt_of_not_le ht) hpc
  case h_4 e n hpc =>
    split_ifs at h with hf hs
    · obtain ⟨rfl, rfl⟩ := pair_of_some h
      exact .failed hf hpc
    · obtain ⟨rfl, rfl⟩ := pair_of_some h
      exact .stopped hs hpc
    · obtain ⟨rfl, rfl⟩ := pair_of_some h
      exact .park hf hs hpc
  case h_5 e hpc =>
    split_ifs at h with hw
    obtain ⟨rfl, rfl⟩ := pair_of_some h
    exact .woken hw hpc
  case h_6 => exact absurd h (by simp)

/-! ## The generation -/

/-- What the generation can do under an action. -/
inductive Move (x : Exporter L) (s : State L) : Action L → State L → Prop where
  | spawn : Move x s .spawn { s with threads := s.threads ++ [⟨.idle, none⟩] }
  | enter {i : ℕ} {log : L} {p : Producer L} (hi : s.threads[i]? = some p) (hpc : p.pc = .idle)
      (hr : s.world.retired = false) :
      Move x s (.enter i log)
        { s with threads := s.threads.set i { p with pc := .entered log } }
  | producer {i : ℕ} {p p' : Producer L} {w' : World L} (hi : s.threads[i]? = some p)
      (hm : ProducerMove x i s.world p w' p') :
      Move x s (.producer i) { s with world := w', threads := s.threads.set i p' }
  | exit {i : ℕ} {p : Producer L} (hi : s.threads[i]? = some p) (hpc : p.pc = .idle) :
      Move x s (.exit i)
        { s with
          threads := s.threads.set i { p with pc := if p.lane.isSome then .closing else .gone } }
  | fenceClose (hf : s.fence = .armed) (hr : s.world.retired = true)
      (ho : ∀ p ∈ s.threads, p.pc.outside = true) :
      Move x s .fence
        { s with world := { s.world with producersClosed := true }, fence := .closing }
  | fenceNotify (hf : s.fence = .closing) :
      Move x s .fence { s with world := notifyRecords s.world, fence := .done }
  | worker {o : Oracle} {w' : World L} {k' : Worker L} (ha : s.aborted = false)
      (hm : WorkerMove x o s.world s.worker w' k') :
      Move x s (.worker o) { s with world := w', worker := k' }
  | cancelWorker (hr : s.abortRequested = true) (ha : s.aborted = false)
      (hw : s.worker.pc.awaits = true) :
      Move x s .cancelWorker { s with world := dropWaits s.world, aborted := true }
  | beginFlush (hc : s.control.command = none) :
      Move x s .beginFlush
        { s with
          flushes := s.flushes ++
            [⟨.notify, s.world.nextTicket, s.world.history.pushed.map Tag.ticket⟩] }
  | flush {j : ℕ} {c c' : FlushCall} {w' : World L} (hj : s.flushes[j]? = some c)
      (hm : FlushMove s.world c w' c') :
      Move x s (.flush j) { s with world := w', flushes := s.flushes.set j c' }
  | expireFlush {j : ℕ} {c : FlushCall} {e : ℕ} (hj : s.flushes[j]? = some c)
      (hpc : c.pc = .parked e) :
      Move x s (.expireFlush j)
        { s with
          flushes := s.flushes.set j
            { c with pc := .done ⟨.timedOut, c.target, s.world.completedTicket⟩ } }
  | command {c : Command} (hc : s.control.command = none)
      (hf : ∀ f ∈ s.flushes, f.returned = true) :
      Move x s (.command c)
        { s with control := { s.control with command := some c, program := c.program } }
  | control {op : ControlOp} {rest : List ControlOp} (hp : s.control.program = op :: rest)
      (hr : controlReady s op = true) :
      Move x s .control
        { s with
          world := (controlStep s.world s.control op).1
          control := { (controlStep s.world s.control op).2 with program := rest }
          abortRequested := s.abortRequested || decide (op = .abortWorker) }
  | expireDeadline {rest : List ControlOp} (hp : s.control.program = .awaitWorker :: rest) :
      Move x s .expireDeadline
        { s with control := { s.control with program := deadlineExpired ++ rest } }

/-- Every step of the generation is one of its moves. -/
theorem stepMove {x : Exporter L} {s s' : State L} {a : Action L} (h : step x s a = some s') :
    Move x s a s' := by
  cases a with
  | spawn =>
    cases h
    exact .spawn
  | enter i log =>
    simp only [step, Option.bind_eq_some_iff] at h
    obtain ⟨p, hi, h⟩ := h
    split at h
    · split_ifs at h with hr
      cases h
      exact .enter hi ‹_› (Bool.eq_false_of_not_eq_true hr)
    · exact absurd h (by simp)
  | producer i =>
    simp only [step, Option.bind_eq_some_iff, Option.map_eq_some_iff] at h
    obtain ⟨p, hi, ⟨w', p'⟩, hs, rfl⟩ := h
    exact .producer hi (producerMove hs)
  | exit i =>
    simp only [step, Option.bind_eq_some_iff] at h
    obtain ⟨p, hi, h⟩ := h
    split at h
    · cases h
      exact .exit hi ‹_›
    · exact absurd h (by simp)
  | fence =>
    simp only [step, fenceStep] at h
    split at h
    · split_ifs at h with hg
      cases h
      rw [Bool.and_eq_true, List.all_eq_true] at hg
      exact .fenceClose ‹_› hg.1 hg.2
    · cases h
      exact .fenceNotify ‹_›
    · exact absurd h (by simp)
  | worker o =>
    simp only [step] at h
    split_ifs at h with ha
    simp only [Option.map_eq_some_iff] at h
    obtain ⟨⟨w', k'⟩, hs, rfl⟩ := h
    exact .worker (Bool.eq_false_of_not_eq_true ha) (workerMove hs)
  | cancelWorker =>
    simp only [step] at h
    split_ifs at h with hg
    cases h
    simp only [Bool.and_eq_true, Bool.not_eq_true'] at hg
    exact .cancelWorker hg.1.1 hg.1.2 hg.2
  | beginFlush =>
    simp only [step] at h
    split_ifs at h with hc
    cases h
    exact .beginFlush (Option.isNone_iff_eq_none.mp hc)
  | flush j =>
    simp only [step, Option.bind_eq_some_iff, Option.map_eq_some_iff] at h
    obtain ⟨c, hj, ⟨w', c'⟩, hs, rfl⟩ := h
    exact .flush hj (flushMove hs)
  | expireFlush j =>
    simp only [step, Option.bind_eq_some_iff, Option.map_eq_some_iff] at h
    obtain ⟨c, hj, c', hs, rfl⟩ := h
    unfold expireFlush at hs
    split at hs
    · cases hs
      exact .expireFlush hj ‹_›
    · exact absurd hs (by simp)
  | command c =>
    simp only [step] at h
    split_ifs at h with hg
    cases h
    rw [Bool.and_eq_true, List.all_eq_true] at hg
    exact .command (Option.isNone_iff_eq_none.mp hg.1) hg.2
  | control =>
    simp only [step] at h
    split at h
    · exact absurd h (by simp)
    · split_ifs at h with hr
      cases h
      exact .control ‹_› hr
  | expireDeadline =>
    simp only [step] at h
    split at h
    · cases h
      exact .expireDeadline ‹_›
    · exact absurd h (by simp)

/-- What holds of a prepared generation and is kept by every move of a run
holds in every state of the run. -/
theorem invariant_of_moves {x : Exporter L} {ok : State L → Action L → Prop} {s : State L}
    {I : State L → Prop} (h0 : I (State.init L))
    (hstep : ∀ t u a, I t → ok t a → Move x t a u → I u)
    (h : ReachWhile (step x) ok (State.init L) s) : I s :=
  h.invariant h0 fun t u a ht ha hs => hstep t u a ht ha (stepMove hs)

/-- An invariant of a run that rests on another one. -/
theorem invariant_of_moves_using {x : Exporter L} {ok : State L → Action L → Prop} {s : State L}
    {I J : State L → Prop} (hJ : ∀ t, ReachWhile (step x) ok (State.init L) t → J t)
    (h0 : I (State.init L)) (hstep : ∀ t u a, J t → J u → I t → ok t a → Move x t a u → I u)
    (h : ReachWhile (step x) ok (State.init L) s) : I s :=
  h.invariant_using hJ h0 fun t u a hjt hju ht ha hs => hstep t u a hjt hju ht ha (stepMove hs)

end EdenLogger.GenerationMoves
