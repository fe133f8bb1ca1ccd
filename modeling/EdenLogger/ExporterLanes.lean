import EdenLogger.RoundRobin
import EdenLogger.MachineWord

/-!
# Producer lanes

A lane is the queue pair one producing thread fills and the worker swaps out.
The swap hands the worker the whole pair and puts an emptied spare in its
place, so pushes never wait for record movement. A queued record also carries
the identity of the thread that pushed it; no code reads that field.
-/

namespace EdenLogger.ExporterLanes

/-- The two admission queues. -/
inductive QueueKind where
  | normal
  | reserved
  deriving DecidableEq, Repr

/-- One value for each queue kind. -/
structure PerQueue (α : Type*) where
  /-- The normal queue's value. -/
  normal : α
  /-- The reserved queue's value. -/
  reserved : α
  deriving DecidableEq

namespace PerQueue

variable {α β : Type*}

/-- The value of one kind. -/
def get (v : PerQueue α) : QueueKind → α
  | .normal => v.normal
  | .reserved => v.reserved

/-- Replace the value of one kind. -/
def set (v : PerQueue α) (q : QueueKind) (a : α) : PerQueue α :=
  match q with
  | .normal => { v with normal := a }
  | .reserved => { v with reserved := a }

@[simp] theorem get_set_self (v : PerQueue α) (q : QueueKind) (a : α) : (v.set q a).get q = a := by
  cases q <;> rfl

@[simp] theorem get_set_of_ne (v : PerQueue α) {q r : QueueKind} (a : α) (h : r ≠ q) :
    (v.set q a).get r = v.get r := by
  cases q <;> cases r <;> first | rfl | exact absurd rfl h

end PerQueue

/-- Identity of a record along its way: its ticket, queue and producer. -/
structure Tag where
  /-- Acceptance ticket. -/
  ticket : ℕ
  /-- Queue that admitted the record. -/
  queue : QueueKind
  /-- Thread that pushed the record. -/
  producer : ℕ
  deriving DecidableEq, Repr

/-- An admitted record with its queue, claimed bytes and acceptance ticket. -/
structure QueuedLog (L : Type) where
  /-- The record itself. -/
  log : L
  /-- Queue that admitted it. -/
  queue : QueueKind
  /-- Bytes its admission claimed. -/
  bytes : ℕ
  /-- Acceptance ticket. -/
  ticket : ℕ
  /-- Pushing thread, a history variable. -/
  producer : ℕ

variable {L : Type}

/-- The record's identity. -/
def QueuedLog.tag (r : QueuedLog L) : Tag := ⟨r.ticket, r.queue, r.producer⟩

/-- A queue pair: of a lane, of a detached lane, or the worker's inbox. -/
abbrev LaneQueues (L : Type) := PerQueue (List (QueuedLog L))

namespace LaneQueues

/-- A fresh queue pair. -/
def new : LaneQueues L := ⟨[], []⟩

/-- Whether both queues are empty. -/
def isEmpty (queues : LaneQueues L) : Bool := queues.normal.isEmpty && queues.reserved.isEmpty

/-- Records of both queues, the reserved ones first. -/
def records (queues : LaneQueues L) : List (QueuedLog L) := queues.reserved ++ queues.normal

/-- The worker's inbox yields a reserved record if it has one. -/
def popFront (queues : LaneQueues L) : Option (QueuedLog L × LaneQueues L) :=
  match queues.reserved, queues.normal with
  | r :: rest, _ => some (r, { queues with reserved := rest })
  | [], r :: rest => some (r, { queues with normal := rest })
  | [], [] => none

@[simp] theorem records_new : (new : LaneQueues L).records = [] := rfl

/-- A pair is empty exactly when it holds no record. -/
theorem isEmpty_iff (queues : LaneQueues L) : queues.isEmpty = true ↔ queues.records = [] := by
  obtain ⟨normal, reserved⟩ := queues
  cases normal <;> cases reserved <;> simp [isEmpty, records]

/-- Only an empty pair yields nothing. -/
theorem popFront_eq_none_iff (queues : LaneQueues L) :
    queues.popFront = none ↔ queues.records = [] := by
  obtain ⟨normal, reserved⟩ := queues
  cases normal <;> cases reserved <;> simp [popFront, records]

/-- A popped record is the front of the reserved queue, or of the normal one
when no reserved record is left. -/
theorem popFront_cases {queues rest : LaneQueues L} {r : QueuedLog L}
    (h : queues.popFront = some (r, rest)) :
    (queues.reserved = r :: rest.reserved ∧ queues.normal = rest.normal) ∨
      (queues.reserved = [] ∧ rest.reserved = [] ∧ queues.normal = r :: rest.normal) := by
  obtain ⟨normal, reserved⟩ := queues
  cases reserved with
  | cons a as =>
    simp only [popFront, Option.some.injEq, Prod.mk.injEq] at h
    obtain ⟨rfl, rfl⟩ := h
    exact Or.inl ⟨rfl, rfl⟩
  | nil =>
    cases normal with
    | nil => simp [popFront] at h
    | cons a as =>
      simp only [popFront, Option.some.injEq, Prod.mk.injEq] at h
      obtain ⟨rfl, rfl⟩ := h
      exact Or.inr ⟨rfl, rfl, rfl⟩

/-- A popped record is the front of one queue, and the other queue is kept. -/
theorem popFront_get {queues rest : LaneQueues L} {r : QueuedLog L}
    (h : queues.popFront = some (r, rest)) :
    ∃ q, queues.get q = r :: rest.get q ∧ ∀ q', q' ≠ q → queues.get q' = rest.get q' := by
  rcases popFront_cases h with ⟨hr, hn⟩ | ⟨hr, hr', hn⟩
  · refine ⟨.reserved, hr, fun q' hq => ?_⟩
    cases q' with
    | normal => exact hn
    | reserved => exact absurd rfl hq
  · refine ⟨.normal, hn, fun q' hq => ?_⟩
    cases q' with
    | normal => exact absurd rfl hq
    | reserved => exact hr.trans hr'.symm

/-- Popping takes the first of the records in inbox order. -/
theorem records_popFront {queues rest : LaneQueues L} {r : QueuedLog L}
    (h : queues.popFront = some (r, rest)) : queues.records = r :: rest.records := by
  rcases popFront_cases h with ⟨hr, hn⟩ | ⟨hr, hr', hn⟩
  · simp only [records, hr, hn, List.cons_append]
  · simp only [records, hr, hr', hn, List.nil_append]

end LaneQueues

/-- One producing thread's lane. -/
structure ProducerLane (L : Type) where
  /-- The pair the producer fills. -/
  queues : LaneQueues L
  /-- An emptied pair kept for the next swap. -/
  workerSpare : Option (LaneQueues L)
  /-- Whether the producing thread has exited. -/
  closed : Bool

namespace ProducerLane

/-- A fresh open lane. -/
def new : ProducerLane L := ⟨LaneQueues.new, none, false⟩

/-- Append a record to its queue, and whether the lane was empty before. -/
def push (lane : ProducerLane L) (log : QueuedLog L) : Bool × ProducerLane L :=
  (lane.queues.isEmpty,
    { lane with queues := lane.queues.set log.queue (lane.queues.get log.queue ++ [log]) })

/-- Whether the lane can leave the registry. -/
def isClosedAndEmpty (lane : ProducerLane L) : Bool := lane.closed && lane.queues.isEmpty

/-- Swap the lane's pair for its spare or a fresh one. -/
def take (lane : ProducerLane L) : LaneQueues L × ProducerLane L :=
  (lane.queues, { lane with queues := lane.workerSpare.getD LaneQueues.new, workerSpare := none })

/-- Keep an emptied pair unless the lane already has a spare. -/
def recycle (lane : ProducerLane L) (queues : LaneQueues L) : ProducerLane L :=
  if lane.workerSpare.isNone then { lane with workerSpare := some queues } else lane

/-- A pushed record joins the records of its lane. -/
theorem records_push (lane : ProducerLane L) (log : QueuedLog L) :
    (lane.push log).2.queues.records.Perm (log :: lane.queues.records) := by
  obtain ⟨⟨normal, reserved⟩, spare, closed⟩ := lane
  cases hq : log.queue with
  | normal =>
    simp only [push, hq, PerQueue.set, PerQueue.get, LaneQueues.records]
    simp only [← List.append_assoc]
    exact List.perm_append_singleton _ _
  | reserved =>
    simp only [push, hq, PerQueue.set, PerQueue.get, LaneQueues.records, List.append_assoc,
      List.singleton_append]
    exact List.perm_middle

@[simp] theorem recycle_queues (lane : ProducerLane L) (queues : LaneQueues L) :
    (lane.recycle queues).queues = lane.queues := by
  unfold recycle
  split <;> rfl

@[simp] theorem recycle_closed (lane : ProducerLane L) (queues : LaneQueues L) :
    (lane.recycle queues).closed = lane.closed := by
  unfold recycle
  split <;> rfl

end ProducerLane

end EdenLogger.ExporterLanes
