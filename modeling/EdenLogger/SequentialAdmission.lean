import EdenLogger.QueueAccounting

/-!
# The collector's functions one at a time

`submit_to_lane`, `drain_into` and `release` as functions of the collector's
state, each executed to its end before the next one begins. A claim that adds
before it finds no room takes its amount back at once, so it leaves the
counter as it was.
-/

namespace EdenLogger.SequentialAdmission

open MachineWord WakeUpPermit ExporterLanes LogCollector GenerationState GenerationStep
open GenerationMoves LaneTable RecordFlow CapacityAccount QueueAccounting RunRules

variable {L : Type} {x : Exporter L}

/-- `claim_amount`: whether it granted the amount, and the counter after it. -/
def claimCounter (depth capacity amount : ℕ) : Bool × ℕ :=
  match claimAmount depth capacity amount with
  | .refused => (false, depth)
  | .granted n => (true, n)
  | .overshot n => (false, wrappingSub n amount)

/-- `claim_queue`: bytes first, then a slot; without a slot the bytes go back. -/
def claimQueue (x : Exporter L) (w : World L) (q : QueueKind) (bytes : ℕ) :
    Option ClaimFailure × World L :=
  let b := claimCounter (w.metrics.queueBytes.get q) (byteCapacity x q) bytes
  if b.1 then
    let d := claimCounter (w.metrics.queueDepth.get q) (capacity x q) 1
    if d.1 then (none, setDepth (setBytes w q b.2) q d.2)
    else (some .records, subBytes (setDepth (setBytes w q b.2) q d.2) q bytes)
  else (some .bytes, setBytes w q b.2)

/-- Result of a submission. -/
inductive SubmitResult where
  | accepted
  | recordCapacity
  | byteCapacity
  deriving DecidableEq, Repr

/-- `submit_result`. -/
def submitResult : ClaimFailure → SubmitResult
  | .records => .recordCapacity
  | .bytes => .byteCapacity

/-- Both queues' decisions: the admitting queue or the failure, with the world
after the claims. -/
def claimEither (x : Exporter L) (w : World L) (bytes : ℕ) (priority : Bool) :
    Except ClaimFailure QueueKind × World L :=
  match claimQueue x w .normal bytes with
  | (none, w') => (.ok .normal, w')
  | (some normalFailure, w') =>
    if priority then
      match claimQueue x w' .reserved bytes with
      | (none, w'') => (.ok .reserved, w'')
      | (some reservedFailure, w'') => (.error (normalFailure.combine reservedFailure), w'')
    else (.error normalFailure, w')

/-- The accepting end of `submit_to_lane`: take a ticket, push, and wake the
worker if the lane was empty. -/
def pushAccepted (w : World L) (j : ℕ) (lane : ProducerLane L) (log : QueuedLog L) : World L :=
  let w' := pushLane { w with nextTicket := w.nextTicket + 1 } j lane log
  if lane.queues.isEmpty then notifyRecords w' else w'

/-- `submit_to_lane`. The lane's number stands in for its thread. -/
def submitToLane (x : Exporter L) (w : World L) (j : ℕ) (lane : ProducerLane L) (log : L)
    (priority : Bool) : SubmitResult × World L :=
  let bytes := min (x.estimatedSizeBytes log) wordMax
  match claimEither x w bytes priority with
  | (.ok queue, w') =>
    (.accepted, pushAccepted w' j lane ⟨log, queue, bytes, w'.nextTicket + 1, j⟩)
  | (.error failure, w') => (submitResult failure, w')

/-- Swap lanes out in order: the lanes afterwards, and the detached pairs. -/
def takeLanes (lanes : List (ProducerLane L)) :
    List ℕ → List (ProducerLane L) × List (ℕ × LaneQueues L)
  | [] => (lanes, [])
  | i :: rest =>
    match lanes[i]? with
    | none => takeLanes lanes rest
    | some lane =>
      let r := takeLanes (lanes.set i lane.take.2) rest
      (r.1, (i, lane.take.1) :: r.2)

/-- Nothing is read late when nobody else moves. -/
def alone : Oracle := ⟨[], 0, false, .fatal⟩

/-- The pairs a drain detaches. -/
def detach (w : World L) : List (ProducerLane L) × List (ℕ × LaneQueues L) :=
  takeLanes w.lanes (drainOrder w alone)

/-- `drain_into`: the world and the output queues after it. -/
def drainInto (w : World L) (output : LaneQueues L) : World L × LaneQueues L :=
  ({ pruneLanes w alone with lanes := recycleLanes (detach w).1 (emptied (detach w).2 output) },
    moveDetached (detach w).2 output)

/-- `release`. -/
def release (w : World L) (q : QueueKind) (bytes : ℕ) : World L := subBytes (subDepth w q) q bytes

/-- A collector with its outputs. -/
structure Collector (L : Type) where
  /-- Lanes, registry, gauges and the ticket counter. -/
  world : World L
  /-- The output queues, without the records released. -/
  output : LaneQueues L
  /-- Everything the drains put out, a history variable. -/
  drained : LaneQueues L
  /-- Results of the submissions, in order. -/
  results : List SubmitResult

/-- A fresh collector. -/
def Collector.new (L : Type) : Collector L := ⟨.new L, .new, .new, []⟩

/-- Calls, executed one at a time. -/
inductive Call (L : Type) where
  /-- A thread registers its lane. -/
  | register
  /-- A submission to a lane. -/
  | submit (j : ℕ) (log : L) (priority : Bool)
  /-- A lane's thread exits. -/
  | close (j : ℕ)
  /-- `drain_into` the output queues. -/
  | drain
  /-- The output record with a ticket is released. -/
  | release (ticket : ℕ)

/-- The output queues without the record of a ticket. -/
def withoutTicket (output : LaneQueues L) (ticket : ℕ) : LaneQueues L :=
  ⟨output.normal.filter fun r => r.ticket ≠ ticket,
    output.reserved.filter fun r => r.ticket ≠ ticket⟩

/-- One call. Tickets are words, so the counter's last value is not passed. -/
def call (x : Exporter L) (c : Collector L) : Call L → Option (Collector L)
  | .register => some { c with world := registerLane c.world }
  | .submit j log priority =>
    (c.world.lanes[j]?).bind fun lane =>
      if lane.closed = false ∧ c.world.nextTicket < wordMax then
        let r := submitToLane x c.world j lane log priority
        some { c with world := r.2, results := c.results ++ [r.1] }
      else none
  | .close j =>
    (c.world.lanes[j]?).map fun lane =>
      { c with world := { c.world with lanes := c.world.lanes.set j { lane with closed := true } } }
  | .drain =>
    some { c with
      world := (drainInto c.world c.output).1
      output := (drainInto c.world c.output).2
      drained := (drainInto c.world c.drained).2 }
  | .release ticket =>
    (c.output.records.find? fun r => decide (r.ticket = ticket)).map fun r =>
      { c with
        world := release c.world r.queue r.bytes
        output := withoutTicket c.output ticket }

end EdenLogger.SequentialAdmission
