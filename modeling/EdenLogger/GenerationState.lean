import EdenLogger.ExporterConfig
import EdenLogger.LogCollector
import EdenLogger.RequestSizer
import EdenLogger.CompletionTracking
import EdenLogger.WakeUpPermit

/-!
# State of one exporter generation

The parties of a generation are its producing threads, the worker task, the
flush calls, the handle's command and the fence held by the installed
callback. Each party has a program counter that carries the locals in scope
there, as the source scopes them. What the parties share is the `World`; its
`history` records what happened and is read by no code.
-/

namespace EdenLogger.GenerationState

open MachineWord WakeUpPermit RequestSizer ExporterConfig ExporterLanes LogCollector
open CompletionTracking

/-- Lifecycle status of an exporter. -/
inductive ExporterStatus where
  | running
  | backingOff
  | terminalFailure
  | shuttingDown
  | stopped
  deriving DecidableEq, Repr

/-- Counters and gauges. The gauges are words that the code also subtracts
from; the cumulative counters only grow and no code reads them back. -/
structure ExporterMetrics where
  /-- Records excluded by severity or audience. -/
  filtered : ℕ
  /-- Records refused for lack of record capacity. -/
  droppedQueueFull : ℕ
  /-- Records refused for lack of bytes. -/
  droppedQueueBytesFull : ℕ
  /-- Records submitted after acceptance stopped. -/
  droppedStopped : ℕ
  /-- Records larger than a whole request may be. -/
  droppedOversize : ℕ
  /-- Records abandoned at the end of the generation. -/
  droppedShutdown : ℕ
  /-- Records acknowledged by the collector. -/
  exported : ℕ
  /-- Records rejected by the collector or for their size. -/
  rejected : ℕ
  /-- Requests attempted. -/
  exportAttempts : ℕ
  /-- Transient retries. -/
  retries : ℕ
  /-- Partial-success responses. -/
  partialRejections : ℕ
  /-- Acknowledged requests. -/
  batches : ℕ
  /-- Records held in each queue. -/
  queueDepth : PerQueue ℕ
  /-- Bytes held in each queue. -/
  queueBytes : PerQueue ℕ
  /-- Records of the worker's active batch. -/
  inflight : ℕ
  /-- Registered lanes. -/
  producerLanes : ℕ
  /-- Lifecycle status. -/
  status : ExporterStatus
  deriving DecidableEq

/-- All zero, and running. -/
def ExporterMetrics.new : ExporterMetrics :=
  ⟨0, 0, 0, 0, 0, 0, 0, 0, 0, 0, 0, 0, ⟨0, 0⟩, ⟨0, 0⟩, 0, 0, .running⟩

/-- A snapshot: the metrics with the accepted count. -/
structure ExporterMetricsSnapshot extends ExporterMetrics where
  /-- Records accepted so far. -/
  accepted : ℕ
  deriving DecidableEq

/-- Result of a bounded shutdown. -/
structure ShutdownReport where
  /-- Whether the deadline elapsed first. -/
  timedOut : Bool
  /-- Records that remained. -/
  remainingRecords : ℕ
  /-- Final snapshot. -/
  metrics : ExporterMetricsSnapshot
  deriving DecidableEq

/-- What a generation is prepared from: its configuration, what it reads off a
log record, the mapping to encoded OTLP records and the encoded resource.
Encodings are objects in memory, so their lengths are words. -/
structure Exporter (L : Type) where
  /-- The validated configuration. -/
  config : Config
  /-- Severity of a record. -/
  level : L → LogLevel
  /-- Audience of a record. -/
  audience : L → LogAudience
  /-- Estimated retained size. -/
  estimatedSizeBytes : L → ℕ
  /-- Encoded OTLP record, with the time of mapping. -/
  map : L → ℕ → List UInt8
  /-- Encoded resource. -/
  resource : List UInt8
  /-- A mapped record's encoded length is a word. -/
  map_length : ∀ log now, (map log now).length ≤ wordMax
  /-- The resource's encoded length is a word. -/
  resource_length : resource.length ≤ wordMax
  /-- The scope's encoded length is a word. -/
  scope_length : (scopeMessage config.scopeName).length ≤ wordMax

/-- A mapped record. The code keeps its ticket and encoding; queue and
producer are history variables. -/
structure MappedLog where
  /-- Acceptance ticket. -/
  ticket : ℕ
  /-- Encoded record. -/
  record : List UInt8
  /-- Queue it was admitted to. -/
  queue : QueueKind
  /-- Thread that pushed it. -/
  producer : ℕ
  /-- The encoding is an object in memory. -/
  record_length : record.length ≤ wordMax
  deriving DecidableEq

/-- The record's identity. -/
def MappedLog.tag (r : MappedLog) : Tag := ⟨r.ticket, r.queue, r.producer⟩

/-- How the collector or the worker disposed of a record. -/
inductive Outcome where
  /-- In a fully acknowledged request. -/
  | acknowledged
  /-- In a request that was accepted in part. -/
  | partialSuccess
  /-- Refused alone as an invalid payload. -/
  | invalidPayload
  /-- Dropped because no request can hold it. -/
  | oversize
  deriving DecidableEq, Repr

/-- History variables: what happened so far. -/
structure History where
  /-- Records pushed to lanes, in push order. -/
  pushed : List Tag
  /-- Records popped from the inbox, in that order. -/
  popped : List Tag
  /-- Records sent to the collector, in the order of their first sending. -/
  sent : List Tag
  /-- Requests handed to the client, latest last. -/
  requests : List (List MappedLog)
  /-- Records with the outcome they were counted under. -/
  resolved : List (MappedLog × Outcome)
  /-- Tickets the worker completed, in order. -/
  completed : List ℕ
  /-- Records the terminal exit cleared from the queues. -/
  discarded : List Tag
  /-- Tickets completed before the export of the current batch began. -/
  exportStart : ℕ
  /-- Records the handle's ledger counted as dropped. -/
  droppedByHandle : ℕ
  /-- Whether the gauges were reset at the end of the generation. -/
  gaugesReset : Bool

/-- Nothing happened yet. -/
def History.new : History := ⟨[], [], [], [], [], [], [], 0, 0, false⟩

/-- The state every party of the generation holds a reference to. -/
structure Shared where
  /-- Whether new records are accepted. -/
  accepting : Bool
  /-- Whether the last callback has returned for good. -/
  producersClosed : Bool
  /-- Tickets handed out. -/
  nextTicket : ℕ
  /-- Highest contiguous completed ticket. -/
  completedTicket : ℕ
  /-- Counters and gauges. -/
  metrics : ExporterMetrics
  /-- Shutdown request to the worker. -/
  shutdown : Notify
  /-- New records for the worker. -/
  records : Notify
  /-- Flush request to the worker. -/
  flush : Notify
  /-- Progress, to the flush calls. -/
  progress : Broadcast

/-- The shared state together with the lanes and the installed callback. -/
structure World (L : Type) extends Shared where
  /-- Every lane ever registered, by number. -/
  lanes : List (ProducerLane L)
  /-- Lanes in the collector's registry. -/
  registry : LaneRegistry
  /-- Whether the callback was replaced or disabled. -/
  retired : Bool
  /-- What happened so far. -/
  history : History

/-- A fresh generation's shared state. -/
def World.new (L : Type) : World L where
  accepting := true
  producersClosed := false
  nextTicket := 0
  completedTicket := 0
  metrics := .new
  shutdown := .new
  records := .new
  flush := .new
  progress := .new
  lanes := []
  registry := ⟨[], 0⟩
  retired := false
  history := .new

/-- The locals of one `submit` before a queue admits the record. -/
structure Submission (L : Type) where
  /-- The record. -/
  log : L
  /-- Its estimated size as a word. -/
  bytes : ℕ
  /-- Whether the reserved queue may take it. -/
  priority : Bool
  /-- Why the normal queue refused it, once it did. -/
  failed : Option ClaimFailure

/-- Where a producing thread stands. -/
inductive ProducerPc (L : Type) where
  /-- Outside the callback. -/
  | idle
  /-- In the callback, before the acceptance check. -/
  | entered (log : L)
  /-- Before the thread's lane is looked up or registered. -/
  | resolve (r : Submission L)
  /-- Before claiming bytes of a queue. -/
  | claimBytes (r : Submission L) (q : QueueKind)
  /-- Before taking back bytes that found no room. -/
  | undoBytes (r : Submission L) (q : QueueKind)
  /-- Holding bytes, before claiming a record slot. -/
  | claimDepth (r : Submission L) (q : QueueKind)
  /-- Holding bytes, before taking back a slot that found no room. -/
  | undoDepth (r : Submission L) (q : QueueKind)
  /-- Before returning the bytes of a queue without a free slot. -/
  | returnBytes (r : Submission L) (q : QueueKind)
  /-- Admitted, before taking a ticket. -/
  | takeTicket (r : Submission L) (q : QueueKind)
  /-- Holding a ticket, before the push. -/
  | push (r : Submission L) (q : QueueKind) (ticket : ℕ)
  /-- After a push to an empty lane, before waking the worker. -/
  | notify
  /-- Refused by every queue it may use. -/
  | refused (failure : ClaimFailure)
  /-- Before the callback returns. -/
  | leaving
  /-- Thread exit, before closing its lane. -/
  | closing
  /-- Thread exit, before waking the worker. -/
  | closed
  /-- Exited. -/
  | gone

/-- Whether the thread is outside the callback. -/
def ProducerPc.outside {L : Type} : ProducerPc L → Bool
  | .idle | .closing | .closed | .gone => true
  | _ => false

/-- A producing thread. -/
structure Producer (L : Type) where
  /-- Where it stands. -/
  pc : ProducerPc L
  /-- Its lane in this generation, once registered. -/
  lane : Option ℕ

/-- A batch under assembly. -/
structure Assembly where
  /-- The records so far. -/
  batch : List MappedLog
  /-- Sum of their field lengths. -/
  recordsEncodedLen : ℕ

/-- The locals of `export_batch` inside its loop. -/
structure Attempt where
  /-- The part being sent. -/
  records : List MappedLog
  /-- Transient failures of this part. -/
  failures : ℕ
  /-- The parts still to be sent, the next one first. -/
  stack : List (List MappedLog)

/-- The calls of `try_receive`. -/
inductive Site where
  /-- The first record while shutting down. -/
  | firstDraining
  /-- The first record, in `receive`. -/
  | receive
  /-- The last look before the worker exits. -/
  | exitCheck
  /-- The next record of a batch while shutting down. -/
  | nextDraining (a : Assembly)
  /-- The next record of a batch. -/
  | nextPolled (a : Assembly)
  /-- The next record of a batch after a records notification. -/
  | nextWoken (a : Assembly)

/-- The calls of `drain_into`. -/
inductive Drain where
  /-- At a batch boundary. -/
  | boundary
  /-- In `try_receive`, with an empty inbox. -/
  | receiving (site : Site)

/-- The places where the worker waits for notifications. -/
inductive Wait where
  /-- For the first record of a batch. -/
  | receive
  /-- For the next record of a batch. -/
  | assembly (a : Assembly)
  /-- For the producers to close, on the way out. -/
  | producersClosed
  /-- For shutdown, after a terminal failure. -/
  | terminalShutdown (retained : List (List MappedLog))
  /-- For the producers to close, after a terminal failure. -/
  | terminalRecords (retained : List (List MappedLog))

/-- What a wait can listen to. -/
inductive Cell where
  | shutdown
  | deadline
  | flush
  | records
  deriving DecidableEq

/-- The branches of a wait in polling order. -/
def Wait.cells : Wait → List Cell
  | .receive => [.shutdown, .records]
  | .assembly _ => [.shutdown, .deadline, .flush, .records]
  | .producersClosed => [.records]
  | .terminalShutdown _ => [.shutdown]
  | .terminalRecords _ => [.records]

/-- Where the worker goes on after completing tickets. -/
inductive Resume where
  /-- The top of the worker's loop. -/
  | loopTop
  /-- The assembly loop. -/
  | assemble (a : Assembly)
  /-- The loop of `export_batch`. -/
  | nextPart (stack : List (List MappedLog))

/-- The two ways out of the worker's loop. -/
inductive Exit where
  /-- Everything was drained. -/
  | drained
  /-- A terminal failure, with what was retained and what was counted. -/
  | terminal (retained : List (List MappedLog)) (remaining : ℕ)

/-- The remaining records an exit reports. -/
def Exit.remaining : Exit → ℕ
  | .drained => 0
  | .terminal _ remaining => remaining

/-- Where the worker stands. -/
inductive WorkerPc (L : Type) where
  /-- Before the locked section of a drain. -/
  | drain (d : Drain)
  /-- Swapping lanes out, one at a time. -/
  | take (d : Drain) (todo : List ℕ) (detached : List (ℕ × LaneQueues L))
  /-- Before popping the inbox. -/
  | pop (site : Site)
  /-- A record popped, before its bytes are released and it is mapped. -/
  | release (site : Site) (log : QueuedLog L)
  /-- Refreshed, before choosing the first record. -/
  | chooseFirst
  /-- A first record, before its size is checked. -/
  | first (r : MappedLog)
  /-- The head of the assembly loop. -/
  | assemble (a : Assembly)
  /-- A next record, before its size is checked. -/
  | offer (a : Assembly) (r : MappedLog)
  /-- Polling the branches of a wait. -/
  | poll (wait : Wait) (cells : List Cell)
  /-- Suspended in a wait. -/
  | parked (wait : Wait)
  /-- On the way out, before reading `producers_closed`. -/
  | loadClosed
  /-- Before publishing the batch length. -/
  | startExport (batch : List MappedLog)
  /-- The head of the loop of `export_batch`. -/
  | nextPart (stack : List (List MappedLog))
  /-- Before a request. -/
  | attempt (e : Attempt)
  /-- Suspended until the collector answers. -/
  | awaitReply (e : Attempt)
  /-- Suspended before a retry. -/
  | retrySleep (e : Attempt)
  /-- After the retry delay, with the acceptance flag it read. -/
  | retried (e : Attempt) (accepting : Bool)
  /-- The accepted part of an answer counted, before the rejected part is. -/
  | countRejected (e : Attempt) (rejected : ℕ)
  /-- Completing the tickets of resolved records. -/
  | completing (resume : Resume) (settled : List MappedLog)
  /-- A ticket completed, before the progress broadcast. -/
  | notifyProgress (resume : Resume) (settled : List MappedLog)
  /-- Batch complete, before the in-flight gauge is cleared. -/
  | batchDone
  /-- Batch complete, before the status is restored. -/
  | batchStatus
  /-- Terminal failure, before the retained count is published. -/
  | terminalInflight (retained : List (List MappedLog))
  /-- Terminal failure, before reading `accepting`. -/
  | terminalAccepting (retained : List (List MappedLog))
  /-- Terminal failure, before reading `producers_closed`. -/
  | terminalClosed (retained : List (List MappedLog))
  /-- Terminal ledger, before reading the normal depth. -/
  | ledgerNormal (retained : List (List MappedLog))
  /-- Terminal ledger, before reading the reserved depth. -/
  | ledgerReserved (retained : List (List MappedLog)) (normal : ℕ)
  /-- Terminal ledger, before counting the remaining records as dropped. -/
  | ledgerAdd (retained : List (List MappedLog)) (remaining : ℕ)
  /-- Terminal ledger, before clearing the queues and the gauges. -/
  | ledgerClear (retained : List (List MappedLog)) (remaining : ℕ)
  /-- Before the final status. -/
  | storeStopped (exit : Exit)
  /-- Before the final broadcast. -/
  | notifyStopped (exit : Exit)
  /-- Before the final snapshot. -/
  | reporting (exit : Exit)
  /-- Returned. -/
  | finished (exit : Exit) (report : ShutdownReport)

/-- Whether the worker is suspended at an await point. -/
def WorkerPc.awaits {L : Type} : WorkerPc L → Bool
  | .parked _ | .awaitReply _ | .retrySleep _ => true
  | _ => false

/-- Whether the worker has returned. -/
def WorkerPc.isFinished {L : Type} : WorkerPc L → Bool
  | .finished _ _ => true
  | _ => false

/-- The worker task with its long-lived locals. -/
structure Worker (L : Type) where
  /-- Where it stands. -/
  pc : WorkerPc L
  /-- Whether it has seen the shutdown request. -/
  shuttingDown : Bool
  /-- The inbox. -/
  input : LaneQueues L
  /-- The carry-over queue. -/
  pending : List MappedLog
  /-- Completion tracker. -/
  completions : CompletionTracker

/-- A worker that was just spawned. -/
def Worker.new (L : Type) : Worker L := ⟨.drain .boundary, false, LaneQueues.new, [], .new 0⟩

/-- Result category of a flush. -/
inductive FlushStatus where
  | flushed
  | timedOut
  | terminalFailure
  | stopped
  deriving DecidableEq, Repr

/-- Result of a flush. -/
structure FlushReport where
  /-- Why the call returned. -/
  status : FlushStatus
  /-- Highest ticket covered by the call. -/
  targetTicket : ℕ
  /-- Highest contiguous completed ticket it saw. -/
  completedTicket : ℕ
  deriving DecidableEq

/-- Where a flush call stands. -/
inductive FlushPc where
  /-- Target read, before the flush request. -/
  | notify
  /-- Before enabling a progress waiter. -/
  | enable
  /-- Waiter enabled, before reading the completed ticket. -/
  | loadCompleted (enabledAt : ℕ)
  /-- Target not reached, before reading the status. -/
  | loadStatus (enabledAt : ℕ) (completed : ℕ)
  /-- Waiting for progress. -/
  | parked (enabledAt : ℕ)
  /-- Returned. -/
  | done (report : FlushReport)

/-- A flush call. -/
structure FlushCall where
  /-- Where it stands. -/
  pc : FlushPc
  /-- The ticket it waits for. -/
  target : ℕ
  /-- Tickets pushed before the call began, a history variable. -/
  before : List ℕ

/-- Whether a flush call has returned. -/
def FlushCall.returned (c : FlushCall) : Bool :=
  match c.pc with
  | .done _ => true
  | _ => false

/-- Atomic operations of the handle's commands. -/
inductive ControlOp where
  /-- Clear `accepting`. -/
  | storeAccepting
  /-- Read the status. -/
  | loadStatus
  /-- Set shutting down unless the status read was stopped. -/
  | storeShuttingDown
  | notifyShutdown
  | notifyRecords
  | notifyFlush
  /-- Replace or disable the installed callback. -/
  | unregister
  /-- Wait for the worker, up to the deadline. -/
  | awaitWorker
  /-- Request the worker's cancellation. -/
  | abortWorker
  /-- Wait for the cancelled worker. -/
  | joinWorker
  /-- Read a queue's depth into the ledger. -/
  | loadDepth (q : QueueKind)
  /-- Read the in-flight gauge into the ledger. -/
  | loadInflight
  /-- Count the ledger's sum as dropped. -/
  | addDropped
  | resetDepth (q : QueueKind)
  | resetBytes (q : QueueKind)
  | resetInflight
  | storeStopped
  | notifyProgress
  deriving DecidableEq

/-- `stop_acceptance`. -/
def stopAcceptance : List ControlOp :=
  [.storeAccepting, .loadStatus, .storeShuttingDown, .notifyShutdown, .notifyRecords, .notifyFlush]

/-- `remaining_records` and the addition to the dropped count. -/
def ledger : List ControlOp :=
  [.loadDepth .normal, .loadDepth .reserved, .loadInflight, .addDropped]

/-- `reset_live_metrics`. -/
def resetLiveMetrics : List ControlOp :=
  [.resetDepth .normal, .resetDepth .reserved, .resetBytes .normal, .resetBytes .reserved,
    .resetInflight]

/-- What `drain_generation` does once its deadline has expired. -/
def deadlineExpired : List ControlOp :=
  [.abortWorker, .joinWorker] ++ ledger ++ resetLiveMetrics ++ [.storeStopped, .notifyProgress]

/-- The commands that end a generation. -/
inductive Command where
  | shutdown
  | reconfigure
  | drop
  deriving DecidableEq

/-- The operations of a command on the old generation. A shutdown consumes the
handle, so the handle's destructor runs behind it, then without a worker. -/
def Command.program : Command → List ControlOp
  | .shutdown => stopAcceptance ++ [.unregister] ++ stopAcceptance ++ [.awaitWorker] ++
      stopAcceptance ++ ledger ++ [.storeStopped, .notifyProgress]
  | .reconfigure => [.unregister] ++ stopAcceptance ++ [.awaitWorker]
  | .drop => stopAcceptance ++ [.unregister, .abortWorker] ++ ledger ++
      [.storeStopped, .notifyProgress]

/-- The handle's command. -/
structure Control where
  /-- The command, once one began. -/
  command : Option Command
  /-- What is left to do. -/
  program : List ControlOp
  /-- Whether the status read was stopped. -/
  sawStopped : Bool
  /-- The ledger's sum so far. -/
  remaining : ℕ

/-- The fence inside the installed callback. -/
inductive FencePc where
  /-- The callback is alive. -/
  | armed
  /-- `producers_closed` is set, the worker not yet woken. -/
  | closing
  | done
  deriving DecidableEq

/-- The whole generation. -/
structure State (L : Type) where
  /-- What the parties share. -/
  world : World L
  /-- Producing threads, by number. -/
  threads : List (Producer L)
  /-- The worker. -/
  worker : Worker L
  /-- Whether the worker's cancellation was requested. -/
  abortRequested : Bool
  /-- Whether the worker was cancelled. -/
  aborted : Bool
  /-- Flush calls, by number. -/
  flushes : List FlushCall
  /-- The handle's command. -/
  control : Control
  /-- The callback's fence. -/
  fence : FencePc

/-- A generation that was just prepared and registered. -/
def State.init (L : Type) : State L where
  world := .new L
  threads := []
  worker := .new L
  abortRequested := false
  aborted := false
  flushes := []
  control := ⟨none, [], false, 0⟩
  fence := .armed

end EdenLogger.GenerationState
