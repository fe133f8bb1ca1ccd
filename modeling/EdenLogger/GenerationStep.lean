import EdenLogger.GenerationState
import EdenLogger.RunRules

/-!
# Steps of one exporter generation

Each party's step function executes one atomic operation on shared state, with
the party's local work up to the next one. An action names the party that
moves, and a run is any sequence of enabled actions. The handle's borrow rules
are part of the model: a command takes the handle, so it begins only when no
flush call is running, and none begins after it.
-/

namespace EdenLogger.GenerationStep

open MachineWord WakeUpPermit RequestSizer ExporterConfig ExporterLanes LogCollector
open CompletionTracking GenerationState RunRules

variable {L : Type}

/-! ## Producing threads -/

/-- Record capacity of a queue as a word. -/
def capacity (x : Exporter L) : QueueKind → ℕ
  | .normal => min x.config.normalQueueCapacity wordMax
  | .reserved => min x.config.reservedQueueCapacity wordMax

/-- Byte capacity of a queue as a word. -/
def byteCapacity (x : Exporter L) : QueueKind → ℕ
  | .normal => min x.config.normalQueueBytes wordMax
  | .reserved => min x.config.reservedQueueBytes wordMax

/-- Where a submission goes on when a queue refuses it. -/
def refuse (r : Submission L) (failure : ClaimFailure) : QueueKind → ProducerPc L
  | .normal =>
    if r.priority then .claimBytes { r with failed := some failure } .reserved
    else .refused failure
  | .reserved => .refused ((r.failed.map fun f => f.combine failure).getD failure)

/-- The local part of the callback up to its submission. -/
def submission (x : Exporter L) (log : L) : Submission L where
  log := log
  bytes := min (x.estimatedSizeBytes log) wordMax
  priority := decide (x.config.priorityThreshold.rank ≤ (x.level log).rank)
  failed := none

/-- Whether the exporter's severity and audience policy drops a record. -/
def isFiltered (x : Exporter L) (log : L) : Bool :=
  decide ((x.level log).rank < x.config.minLevel.rank) ||
    !x.config.audiences.allows (x.audience log)

/-- Replace one queue's depth gauge. -/
def setDepth (w : World L) (q : QueueKind) (n : ℕ) : World L :=
  { w with metrics.queueDepth := w.metrics.queueDepth.set q n }

/-- Replace one queue's byte gauge. -/
def setBytes (w : World L) (q : QueueKind) (n : ℕ) : World L :=
  { w with metrics.queueBytes := w.metrics.queueBytes.set q n }

/-- Take an amount off a queue's depth gauge. -/
def subDepth (w : World L) (q : QueueKind) : World L :=
  setDepth w q (wrappingSub (w.metrics.queueDepth.get q) 1)

/-- Take an amount off a queue's byte gauge. -/
def subBytes (w : World L) (q : QueueKind) (n : ℕ) : World L :=
  setBytes w q (wrappingSub (w.metrics.queueBytes.get q) n)

/-- Register a fresh lane. -/
def registerLane (w : World L) : World L :=
  { w with
    lanes := w.lanes ++ [.new]
    registry := { w.registry with lanes := w.registry.lanes ++ [w.lanes.length] }
    metrics.producerLanes := wrappingAdd w.metrics.producerLanes 1 }

/-- Append a record to a lane. -/
def pushLane (w : World L) (j : ℕ) (lane : ProducerLane L) (log : QueuedLog L) : World L :=
  { w with
    lanes := w.lanes.set j (lane.push log).2
    history.pushed := w.history.pushed ++ [log.tag] }

/-- Wake the worker for records. -/
def notifyRecords (w : World L) : World L := { w with records := w.records.notifyOne }

/-- Count a refused record. -/
def countRefused (w : World L) : ClaimFailure → World L
  | .records => { w with metrics.droppedQueueFull := w.metrics.droppedQueueFull + 1 }
  | .bytes => { w with metrics.droppedQueueBytesFull := w.metrics.droppedQueueBytesFull + 1 }

/-- One step of thread `i` inside the callback or at its exit. Tickets are
words, so the counter's last value is never passed. -/
def producerStep (x : Exporter L) (i : ℕ) (w : World L) (p : Producer L) :
    Option (World L × Producer L) :=
  match p.pc with
  | .idle => none
  | .entered log =>
    if w.accepting = false then
      some ({ w with metrics.droppedStopped := w.metrics.droppedStopped + 1 },
        { p with pc := .leaving })
    else if isFiltered x log = true then
      some ({ w with metrics.filtered := w.metrics.filtered + 1 }, { p with pc := .leaving })
    else some (w, { p with pc := .resolve (submission x log) })
  | .resolve r =>
    match p.lane with
    | some _ => some (w, { p with pc := .claimBytes r .normal })
    | none => some (registerLane w, ⟨.claimBytes r .normal, some w.lanes.length⟩)
  | .claimBytes r q =>
    match claimAmount (w.metrics.queueBytes.get q) (byteCapacity x q) r.bytes with
    | .refused => some (w, { p with pc := refuse r .bytes q })
    | .granted n => some (setBytes w q n, { p with pc := .claimDepth r q })
    | .overshot n => some (setBytes w q n, { p with pc := .undoBytes r q })
  | .undoBytes r q => some (subBytes w q r.bytes, { p with pc := refuse r .bytes q })
  | .claimDepth r q =>
    match claimAmount (w.metrics.queueDepth.get q) (capacity x q) 1 with
    | .refused => some (w, { p with pc := .returnBytes r q })
    | .granted n => some (setDepth w q n, { p with pc := .takeTicket r q })
    | .overshot n => some (setDepth w q n, { p with pc := .undoDepth r q })
  | .undoDepth r q => some (subDepth w q, { p with pc := .returnBytes r q })
  | .returnBytes r q => some (subBytes w q r.bytes, { p with pc := refuse r .records q })
  | .takeTicket r q =>
    if w.nextTicket < wordMax then
      some ({ w with nextTicket := w.nextTicket + 1 },
        { p with pc := .push r q (w.nextTicket + 1) })
    else none
  | .push r q ticket =>
    p.lane.bind fun j => (w.lanes[j]?).map fun lane =>
      (pushLane w j lane ⟨r.log, q, r.bytes, ticket, i⟩,
        { p with pc := if lane.queues.isEmpty then .notify else .leaving })
  | .notify => some (notifyRecords w, { p with pc := .leaving })
  | .refused failure => some (countRefused w failure, { p with pc := .leaving })
  | .leaving => some (w, { p with pc := .idle })
  | .closing =>
    p.lane.bind fun j => (w.lanes[j]?).map fun lane =>
      ({ w with lanes := w.lanes.set j { lane with closed := true } }, { p with pc := .closed })
  | .closed => some (notifyRecords w, { p with pc := .gone })
  | .gone => none

/-! ## The worker -/

/-- The collector's answer to a request. -/
inductive Reply where
  | ok (accepted rejected : ℕ)
  | invalidPayload
  | retryable
  | fatal
  deriving DecidableEq

/-- What a worker step takes from outside: the lanes whose `closed` flag was
read before it was set, the clock, whether the deadline has passed, and the
collector's answer. -/
structure Oracle where
  /-- Lanes the registry check saw open. -/
  seenOpen : List ℕ
  /-- Clock reading of a mapping. -/
  now : ℕ
  /-- Whether the batch deadline has passed. -/
  fired : Bool
  /-- Answer of the collector. -/
  reply : Reply

/-- Whether a lane stays registered. -/
def keepLane (w : World L) (o : Oracle) (i : ℕ) : Bool :=
  o.seenOpen.contains i || (w.lanes[i]?).all fun lane => !lane.isClosedAndEmpty

/-- The locked section of `drain_into`. -/
def pruneLanes (w : World L) (o : Oracle) : World L :=
  let registry := (w.registry.snapshot (keepLane w o)).1
  { w with
    registry := registry
    metrics.producerLanes :=
      wrappingSub w.metrics.producerLanes (w.registry.lanes.length - registry.lanes.length) }

/-- The lanes a drain swaps out, in order. -/
def drainOrder (w : World L) (o : Oracle) : List ℕ := (w.registry.snapshot (keepLane w o)).2

/-- The inbox after the two passes over the detached pairs. -/
def moveDetached (detached : List (ℕ × LaneQueues L)) (input : LaneQueues L) : LaneQueues L :=
  let batches := detached.map Prod.snd
  let reserved := drainBatches .reserved batches input.reserved
  let normal := drainBatches .normal reserved.1 input.normal
  ⟨normal.2, reserved.2⟩

/-- The detached pairs after the two passes, with their lanes. -/
def emptied (detached : List (ℕ × LaneQueues L)) (input : LaneQueues L) :
    List (ℕ × LaneQueues L) :=
  let reserved := drainBatches .reserved (detached.map Prod.snd) input.reserved
  (detached.map Prod.fst).zip (drainBatches .normal reserved.1 input.normal).1

/-- Return emptied pairs to their lanes. -/
def recycleLanes (lanes : List (ProducerLane L)) :
    List (ℕ × LaneQueues L) → List (ProducerLane L)
  | [] => lanes
  | (i, queues) :: rest => recycleLanes (lanes.modify i fun lane => lane.recycle queues) rest

/-- Where a drain goes on. -/
def drainNext : Drain → WorkerPc L
  | .boundary => .chooseFirst
  | .receiving site => .pop site

/-- Enter `try_receive`: drain only when the inbox is empty. -/
def tryReceive (input : LaneQueues L) (site : Site) : WorkerPc L :=
  if input.isEmpty then .drain (.receiving site) else .pop site

/-- Start polling a wait. -/
def startWait (wait : Wait) : WorkerPc L := .poll wait wait.cells

/-- Where the worker goes on when `try_receive` found nothing. -/
def receivedNone (input : LaneQueues L) : Site → WorkerPc L
  | .firstDraining => tryReceive input .exitCheck
  | .receive => startWait .receive
  | .exitCheck => .loadClosed
  | .nextDraining a => .startExport a.batch
  | .nextPolled a => startWait (.assembly a)
  | .nextWoken a => .startExport a.batch

/-- Where the worker goes on with a received record. -/
def received (k : Worker L) (r : MappedLog) : Site → Worker L
  | .firstDraining => { k with pc := .first r }
  | .receive => { k with pc := .first r }
  | .exitCheck => { k with pc := .drain .boundary, pending := k.pending ++ [r] }
  | .nextDraining a => { k with pc := .offer a r }
  | .nextPolled a => { k with pc := .offer a r }
  | .nextWoken a => { k with pc := .offer a r }

/-- Map a popped record. -/
def mapLog (x : Exporter L) (now : ℕ) (log : QueuedLog L) : MappedLog :=
  ⟨log.ticket, x.map log.log now, log.queue, log.producer, x.map_length log.log now⟩

/-- The sizer of the generation's requests. -/
def requestSizer (x : Exporter L) : ExportRequestSizer := .new x.resource x.config.scopeName

/-- Length of a record's field. -/
def recordFieldLen (r : MappedLog) : ℕ := lengthDelimitedFieldLen r.record.length

/-- Whether a record is too large for any request. -/
def isOversize (x : Exporter L) (r : MappedLog) : Bool :=
  decide ((requestSizer x).encodedLen (recordFieldLen r) > x.config.maxBatchBytes)

/-- Count an oversize record. -/
def rejectOversize (w : World L) (r : MappedLog) : World L :=
  { w with
    metrics.droppedOversize := w.metrics.droppedOversize + 1
    metrics.rejected := w.metrics.rejected + 1
    history.resolved := w.history.resolved ++ [(r, .oversize)] }

/-- A batch with one more record. -/
def addRecord (a : Assembly) (r : MappedLog) : Assembly :=
  ⟨a.batch ++ [r], saturatingAdd a.recordsEncodedLen (recordFieldLen r)⟩

/-- Whether a batch has room for one more record. -/
def fitsRecord (x : Exporter L) (a : Assembly) (r : MappedLog) : Bool :=
  decide ((requestSizer x).encodedLen (addRecord a r).recordsEncodedLen ≤ x.config.maxBatchBytes)

/-- Where the worker goes on after completing tickets. -/
def resumePc : Resume → WorkerPc L
  | .loopTop => .drain .boundary
  | .assemble a => .assemble a
  | .nextPart stack => .nextPart stack

/-- Poll one branch of a wait: whether it is ready, and the cell polled. -/
def pollCell (w : World L) (o : Oracle) : Cell → Bool × World L
  | .shutdown => (w.shutdown.poll.1, { w with shutdown := w.shutdown.poll.2 })
  | .deadline => (o.fired, w)
  | .flush => (w.flush.poll.1, { w with flush := w.flush.poll.2 })
  | .records => (w.records.poll.1, { w with records := w.records.poll.2 })

/-- The worker's registrations end with the wait. -/
def dropWaits (w : World L) : World L :=
  { w with shutdown := w.shutdown.drop, flush := w.flush.drop, records := w.records.drop }

/-- Where the worker goes on when a branch of a wait was ready. -/
def waitReady (k : Worker L) (c : Cell) : Wait → Worker L
  | .receive =>
    match c with
    | .shutdown => { k with pc := tryReceive k.input .exitCheck, shuttingDown := true }
    | _ => { k with pc := tryReceive k.input .receive }
  | .assembly a =>
    match c with
    | .shutdown => { k with pc := .startExport a.batch, shuttingDown := true }
    | .records => { k with pc := tryReceive k.input (.nextWoken a) }
    | _ => { k with pc := .startExport a.batch }
  | .producersClosed => { k with pc := .drain .boundary }
  | .terminalShutdown retained => { k with pc := .terminalClosed retained }
  | .terminalRecords retained => { k with pc := .terminalClosed retained }

/-- Store the status. -/
def setStatus (w : World L) (status : ExporterStatus) : World L :=
  { w with metrics.status := status }

/-- Send a request. -/
def sendRequest (w : World L) (records : List MappedLog) : World L :=
  { w with
    metrics.exportAttempts := w.metrics.exportAttempts + 1
    history.requests := w.history.requests ++ [records]
    history.sent := w.history.sent ++
      (records.map MappedLog.tag).filter fun t => decide (t ∉ w.history.sent) }

/-- The two halves of a refused part, the left one to be sent first. -/
def splitRecords (records : List MappedLog) : List (List MappedLog) :=
  [records.take (records.length / 2), records.drop (records.length / 2)]

/-- Count resolved records. -/
def settle (w : World L) (accepted rejected : ℕ) (records : List MappedLog) (outcome : Outcome) :
    World L :=
  { w with
    metrics.exported := w.metrics.exported + accepted
    metrics.rejected := w.metrics.rejected + rejected
    history.resolved := w.history.resolved ++ records.map fun r => (r, outcome) }

/-- Count an acknowledged request. -/
def countBatch (w : World L) : World L := { w with metrics.batches := w.metrics.batches + 1 }

/-- Count the rejected part of an answer, the second of its two additions. -/
def countRejected (w : World L) (rejected : ℕ) : World L :=
  countBatch { w with metrics.rejected := w.metrics.rejected + rejected }

/-- The largest 32-bit word. -/
def u32Max : ℕ := 4294967295

/-- Handle the answer to a request. A partial success counts its accepted part
here and its rejected part in a step of its own. -/
def answer (w : World L) (e : Attempt) : Reply → World L × WorkerPc L
  | .ok accepted rejected =>
    if rejected = 0 then
      (countBatch (settle w e.records.length 0 e.records .acknowledged),
        .completing (.nextPart e.stack) e.records)
    else
      (settle { w with metrics.partialRejections := w.metrics.partialRejections + 1 }
          accepted 0 e.records .partialSuccess,
        .countRejected e rejected)
  | .invalidPayload =>
    if e.records.length = 1 then
      (settle w 0 1 e.records .invalidPayload, .completing (.nextPart e.stack) e.records)
    else (w, .nextPart (splitRecords e.records ++ e.stack))
  | .retryable =>
    (setStatus { w with metrics.retries := w.metrics.retries + 1 } .backingOff,
      .retrySleep { e with failures := min (e.failures + 1) u32Max })
  | .fatal => (setStatus w .terminalFailure, .terminalInflight (e.records :: e.stack))

/-- Complete a ticket, and publish the watermark unless the tracker ignores it. -/
def completeTicket (w : World L) (k : Worker L) (resume : Resume) (r : MappedLog)
    (rest : List MappedLog) : World L × Worker L :=
  let w := { w with history.completed := w.history.completed ++ [r.ticket] }
  match k.completions.complete r.ticket with
  | none => (w, { k with pc := .completing resume rest })
  | some t =>
    ({ w with completedTicket := t.watermark },
      { k with pc := .notifyProgress resume rest, completions := t })

/-- Store the in-flight gauge. -/
def setInflight (w : World L) (n : ℕ) : World L := { w with metrics.inflight := n }

/-- Number of records in a stack of parts. -/
def retainedCount (stack : List (List MappedLog)) : ℕ := (stack.map List.length).sum

/-- Clear both queues of a lane, and of its spare. -/
def clearLane (lane : ProducerLane L) : ProducerLane L :=
  { lane with
    queues := LaneQueues.new
    workerSpare := lane.workerSpare.map fun _ => LaneQueues.new }

/-- Clear registered lanes: the lanes afterwards, and what was cleared. -/
def clearLanes (lanes : List (ProducerLane L)) : List ℕ → List (ProducerLane L) × List Tag
  | [] => (lanes, [])
  | i :: rest =>
    match lanes[i]? with
    | none => clearLanes lanes rest
    | some lane =>
      let r := clearLanes (lanes.set i (clearLane lane)) rest
      (r.1, lane.queues.records.map QueuedLog.tag ++ r.2)

/-- The gauges after the terminal ledger. -/
def zeroGauges (m : ExporterMetrics) : ExporterMetrics :=
  { m with queueDepth := ⟨0, 0⟩, queueBytes := ⟨0, 0⟩, inflight := 0, producerLanes := 0 }

/-- `collector.clear()`, `input.clear()` and the reset of the gauges. -/
def clearQueues (w : World L) (k : Worker L) : World L :=
  let cleared := clearLanes w.lanes w.registry.lanes
  { w with
    lanes := cleared.1
    registry := ⟨[], 0⟩
    metrics := zeroGauges w.metrics
    history.discarded := w.history.discarded ++ (cleared.2 ++ k.input.records.map QueuedLog.tag)
    history.gaugesReset := true }

/-- A snapshot of the metrics. -/
def metricsSnapshot (w : World L) : ExporterMetricsSnapshot := ⟨w.metrics, w.nextTicket⟩

/-- One step of the worker. -/
def workerStep (x : Exporter L) (o : Oracle) (w : World L) (k : Worker L) :
    Option (World L × Worker L) :=
  match k.pc with
  | .drain d => some (pruneLanes w o, { k with pc := .take d (drainOrder w o) [] })
  | .take d (i :: todo) detached =>
    (w.lanes[i]?).map fun lane =>
      ({ w with lanes := w.lanes.set i lane.take.2 },
        { k with pc := .take d todo (detached ++ [(i, lane.take.1)]) })
  | .take d [] detached =>
    some ({ w with lanes := recycleLanes w.lanes (emptied detached k.input) },
      { k with pc := drainNext d, input := moveDetached detached k.input })
  | .pop site =>
    match k.input.popFront with
    | none => some (w, { k with pc := receivedNone k.input site })
    | some (log, input) =>
      some (subDepth { w with history.popped := w.history.popped ++ [log.tag] } log.queue,
        { k with pc := .release site log, input := input })
  | .release site log =>
    some (subBytes w log.queue log.bytes, received k (mapLog x o.now log) site)
  | .chooseFirst =>
    match k.pending with
    | r :: pending => some (w, { k with pc := .first r, pending := pending })
    | [] =>
      if k.shuttingDown then some (w, { k with pc := tryReceive k.input .firstDraining })
      else some (w, { k with pc := tryReceive k.input .receive })
  | .first r =>
    if isOversize x r then some (rejectOversize w r, { k with pc := .completing .loopTop [r] })
    else some (w, { k with pc := .assemble ⟨[r], recordFieldLen r⟩ })
  | .assemble a =>
    if a.batch.length < x.config.maxBatchRecords then
      match k.pending with
      | r :: pending => some (w, { k with pc := .offer a r, pending := pending })
      | [] =>
        if k.shuttingDown then some (w, { k with pc := tryReceive k.input (.nextDraining a) })
        else some (w, { k with pc := tryReceive k.input (.nextPolled a) })
    else some (w, { k with pc := .startExport a.batch })
  | .offer a r =>
    if isOversize x r then
      some (rejectOversize w r, { k with pc := .completing (.assemble a) [r] })
    else if fitsRecord x a r then some (w, { k with pc := .assemble (addRecord a r) })
    else some (w, { k with pc := .startExport a.batch, pending := r :: k.pending })
  | .poll wait (c :: cells) =>
    if (pollCell w o c).1 then some (dropWaits (pollCell w o c).2, waitReady k c wait)
    else some ((pollCell w o c).2, { k with pc := .poll wait cells })
  | .poll wait [] => some (w, { k with pc := .parked wait })
  | .parked wait => some (w, { k with pc := startWait wait })
  | .loadClosed =>
    if w.producersClosed then some (w, { k with pc := .storeStopped .drained })
    else some (w, { k with pc := startWait .producersClosed })
  | .startExport batch =>
    some ({ setInflight w batch.length with history.exportStart := w.history.completed.length },
      { k with pc := .nextPart [batch] })
  | .nextPart [] => some (w, { k with pc := .batchDone })
  | .nextPart (records :: stack) => some (w, { k with pc := .attempt ⟨records, 0, stack⟩ })
  | .attempt e => some (sendRequest w e.records, { k with pc := .awaitReply e })
  | .awaitReply e => some ((answer w e o.reply).1, { k with pc := (answer w e o.reply).2 })
  | .retrySleep e => some (w, { k with pc := .retried e w.accepting })
  | .retried e accepting =>
    some (setStatus w (if accepting then .running else .shuttingDown), { k with pc := .attempt e })
  | .countRejected e rejected =>
    some (countRejected w rejected, { k with pc := .completing (.nextPart e.stack) e.records })
  | .completing resume [] => some (w, { k with pc := resumePc resume })
  | .completing resume (r :: rest) => some (completeTicket w k resume r rest)
  | .notifyProgress resume rest =>
    some ({ w with progress := w.progress.notifyWaiters }, { k with pc := .completing resume rest })
  | .batchDone => some (setInflight w 0, { k with pc := .batchStatus })
  | .batchStatus =>
    some (setStatus w (if k.shuttingDown then .shuttingDown else .running),
      { k with pc := .drain .boundary })
  | .terminalInflight retained =>
    some (setInflight w (retainedCount retained), { k with pc := .terminalAccepting retained })
  | .terminalAccepting retained =>
    if w.accepting then some (w, { k with pc := startWait (.terminalShutdown retained) })
    else some (w, { k with pc := .terminalClosed retained })
  | .terminalClosed retained =>
    if w.producersClosed then some (w, { k with pc := .ledgerNormal retained })
    else some (w, { k with pc := startWait (.terminalRecords retained) })
  | .ledgerNormal retained =>
    some (w, { k with pc := .ledgerReserved retained w.metrics.queueDepth.normal })
  | .ledgerReserved retained normal =>
    some (w, { k with pc := .ledgerAdd retained (saturatingAdd (retainedCount retained)
      (saturatingAdd normal w.metrics.queueDepth.reserved)) })
  | .ledgerAdd retained remaining =>
    some ({ w with metrics.droppedShutdown := w.metrics.droppedShutdown + remaining },
      { k with pc := .ledgerClear retained remaining })
  | .ledgerClear retained remaining =>
    some (clearQueues w k,
      { k with pc := .storeStopped (.terminal retained remaining), input := LaneQueues.new })
  | .storeStopped exit => some (setStatus w .stopped, { k with pc := .notifyStopped exit })
  | .notifyStopped exit =>
    some ({ w with progress := w.progress.notifyWaiters }, { k with pc := .reporting exit })
  | .reporting exit =>
    some (w, { k with pc := .finished exit ⟨false, exit.remaining, metricsSnapshot w⟩ })
  | .finished _ _ => none

/-! ## Flush calls -/

/-- One step of a flush call. -/
def flushStep (w : World L) (c : FlushCall) : Option (World L × FlushCall) :=
  match c.pc with
  | .notify => some ({ w with flush := w.flush.notifyOne }, { c with pc := .enable })
  | .enable => some (w, { c with pc := .loadCompleted w.progress.enable })
  | .loadCompleted enabledAt =>
    if w.completedTicket ≥ c.target then
      some (w, { c with pc := .done ⟨.flushed, c.target, w.completedTicket⟩ })
    else some (w, { c with pc := .loadStatus enabledAt w.completedTicket })
  | .loadStatus enabledAt completed =>
    if w.metrics.status = .terminalFailure then
      some (w, { c with pc := .done ⟨.terminalFailure, c.target, completed⟩ })
    else if w.metrics.status = .stopped then
      some (w, { c with pc := .done ⟨.stopped, c.target, completed⟩ })
    else some (w, { c with pc := .parked enabledAt })
  | .parked enabledAt =>
    if w.progress.woken enabledAt then some (w, { c with pc := .enable }) else none
  | .done _ => none

/-- The deadline of a waiting flush call passes. -/
def expireFlush (w : World L) (c : FlushCall) : Option FlushCall :=
  match c.pc with
  | .parked _ => some { c with pc := .done ⟨.timedOut, c.target, w.completedTicket⟩ }
  | _ => none

/-! ## The handle's command -/

/-- Effect of one operation. -/
def controlStep (w : World L) (c : Control) : ControlOp → World L × Control
  | .storeAccepting => ({ w with accepting := false }, c)
  | .loadStatus => (w, { c with sawStopped := decide (w.metrics.status = .stopped) })
  | .storeShuttingDown => (if c.sawStopped then w else setStatus w .shuttingDown, c)
  | .notifyShutdown => ({ w with shutdown := w.shutdown.notifyOne }, c)
  | .notifyRecords => (notifyRecords w, c)
  | .notifyFlush => ({ w with flush := w.flush.notifyOne }, c)
  | .unregister => ({ w with retired := true }, c)
  | .awaitWorker => (w, c)
  | .abortWorker => (w, c)
  | .joinWorker => (w, c)
  | .loadDepth q =>
    (w, { c with remaining := saturatingAdd c.remaining (w.metrics.queueDepth.get q) })
  | .loadInflight => (w, { c with remaining := saturatingAdd c.remaining w.metrics.inflight })
  | .addDropped =>
    ({ w with
        metrics.droppedShutdown := w.metrics.droppedShutdown + c.remaining
        history.droppedByHandle := w.history.droppedByHandle + c.remaining },
      { c with remaining := 0 })
  | .resetDepth q => ({ setDepth w q 0 with history.gaugesReset := true }, c)
  | .resetBytes q => ({ setBytes w q 0 with history.gaugesReset := true }, c)
  | .resetInflight => ({ setInflight w 0 with history.gaugesReset := true }, c)
  | .storeStopped => (setStatus w .stopped, c)
  | .notifyProgress => ({ w with progress := w.progress.notifyWaiters }, c)

/-- Whether an operation can proceed. -/
def controlReady (s : State L) : ControlOp → Bool
  | .awaitWorker => s.worker.pc.isFinished
  | .joinWorker => s.aborted || s.worker.pc.isFinished
  | _ => true

/-! ## Actions -/

/-- Who moves, and how. -/
inductive Action (L : Type) where
  /-- A new thread appears. -/
  | spawn
  /-- A dispatch on a thread loads the callback. -/
  | enter (i : ℕ) (log : L)
  /-- A thread takes a step. -/
  | producer (i : ℕ)
  /-- A thread exits. -/
  | exit (i : ℕ)
  /-- The dropped callback's fence takes a step. -/
  | fence
  /-- The worker takes a step. -/
  | worker (o : Oracle)
  /-- The runtime cancels the worker at an await point. -/
  | cancelWorker
  /-- A flush call begins. -/
  | beginFlush
  /-- A flush call takes a step. -/
  | flush (j : ℕ)
  /-- A flush call's deadline passes. -/
  | expireFlush (j : ℕ)
  /-- A command begins. -/
  | command (c : Command)
  /-- The command takes a step. -/
  | control
  /-- The command's deadline passes. -/
  | expireDeadline

/-- The callback's fence fires once no dispatch can run the callback again. -/
def fenceStep (s : State L) : Option (State L) :=
  match s.fence with
  | .armed =>
    if s.world.retired && s.threads.all fun p => p.pc.outside then
      some { s with world := { s.world with producersClosed := true }, fence := .closing }
    else none
  | .closing => some { s with world := notifyRecords s.world, fence := .done }
  | .done => none

/-- One step of the generation. -/
def step (x : Exporter L) (s : State L) : Action L → Option (State L)
  | .spawn => some { s with threads := s.threads ++ [⟨.idle, none⟩] }
  | .enter i log =>
    (s.threads[i]?).bind fun p =>
      match p.pc with
      | .idle =>
        if s.world.retired then none
        else some { s with threads := s.threads.set i { p with pc := .entered log } }
      | _ => none
  | .producer i =>
    (s.threads[i]?).bind fun p => (producerStep x i s.world p).map fun r =>
      { s with world := r.1, threads := s.threads.set i r.2 }
  | .exit i =>
    (s.threads[i]?).bind fun p =>
      match p.pc with
      | .idle =>
        some { s with
          threads := s.threads.set i { p with pc := if p.lane.isSome then .closing else .gone } }
      | _ => none
  | .fence => fenceStep s
  | .worker o =>
    if s.aborted then none
    else (workerStep x o s.world s.worker).map fun r => { s with world := r.1, worker := r.2 }
  | .cancelWorker =>
    if s.abortRequested && !s.aborted && s.worker.pc.awaits then
      some { s with world := dropWaits s.world, aborted := true }
    else none
  | .beginFlush =>
    if s.control.command.isNone then
      some { s with
        flushes := s.flushes ++
          [⟨.notify, s.world.nextTicket, s.world.history.pushed.map Tag.ticket⟩] }
    else none
  | .flush j =>
    (s.flushes[j]?).bind fun c => (flushStep s.world c).map fun r =>
      { s with world := r.1, flushes := s.flushes.set j r.2 }
  | .expireFlush j =>
    (s.flushes[j]?).bind fun c => (expireFlush s.world c).map fun c =>
      { s with flushes := s.flushes.set j c }
  | .command c =>
    if s.control.command.isNone && s.flushes.all FlushCall.returned then
      some { s with control := { s.control with command := some c, program := c.program } }
    else none
  | .control =>
    match s.control.program with
    | [] => none
    | op :: rest =>
      if controlReady s op then
        some { s with
          world := (controlStep s.world s.control op).1
          control := { (controlStep s.world s.control op).2 with program := rest }
          abortRequested := s.abortRequested || decide (op = .abortWorker) }
      else none
  | .expireDeadline =>
    match s.control.program with
    | .awaitWorker :: rest =>
      some { s with control := { s.control with program := deadlineExpired ++ rest } }
    | _ => none

/-- The states of the generation prepared from `x`. -/
abbrev Reachable (x : Exporter L) (s : State L) : Prop := Reach (step x) (State.init L) s

/-! ## A small exporter for concrete runs -/

/-- Two records of thirty bytes do not fit one request. -/
def sampleConfig : Config where
  serviceName := "checkout"
  scopeName := "eden"
  minLevel := .trace
  audiences := .all
  priorityThreshold := .error
  normalQueueCapacity := 8
  reservedQueueCapacity := 8
  normalQueueBytes := 1000
  reservedQueueBytes := 1000
  maxBatchRecords := 4
  maxBatchBytes := 64
  maxBatchDelay := 1
  retryInitial := 1
  retryMax := 1
  diagnosticInterval := 1

/-- An exporter whose records are their encoded lengths. -/
def sample : Exporter ℕ where
  config := sampleConfig
  level := fun _ => .info
  audience := fun _ => .internal
  estimatedSizeBytes := id
  map := fun n _ => List.replicate (min n 1000) 0
  resource := []
  map_length := fun n _ => by
    rw [List.length_replicate]
    exact (Nat.min_le_right n 1000).trans (by decide)
  resource_length := by decide
  scope_length := by decide +kernel

/-- The sample configuration is valid. -/
example : sampleConfig.validate = .ok () := by decide +kernel

/-- Some steps of the worker, with one answer and a deadline that has not passed. -/
def workerSteps (n : ℕ) (reply : Reply) : List (Action ℕ) :=
  List.replicate n (.worker ⟨[], 0, false, reply⟩)

/-- Some steps of the worker once the deadline has passed. -/
def lateSteps (n : ℕ) : List (Action ℕ) := List.replicate n (.worker ⟨[], 0, true, .ok 1 0⟩)

/-- Some steps of a thread. -/
def producerSteps (i n : ℕ) : List (Action ℕ) := List.replicate n (.producer i)

/-- One record submitted by a thread whose lane is empty, until the callback
returns. -/
def submitAlone (i n : ℕ) : List (Action ℕ) := .enter i n :: producerSteps i 8

/-- Some steps of the handle's command. -/
def controlSteps (n : ℕ) : List (Action ℕ) := List.replicate n .control

end EdenLogger.GenerationStep
