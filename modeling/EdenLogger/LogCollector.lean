import EdenLogger.ExporterLanes
import Mathlib.Data.List.Rotate

/-!
# Bounded admission and lane draining

The collector's pure parts. A claim on a capacity counter is one atomic access
of the counter, followed on the small-capacity path by an undo when the access
found no room. A drain prunes the registry, orders its lanes from the cursor
round, and moves the detached queues into the worker's inbox, reserved records
first and at most one quantum of each lane a pass.
-/

namespace EdenLogger.LogCollector

open MachineWord ExporterLanes

/-- Records one lane contributes to a pass. -/
def drainQuantum : ℕ := 64

/-- Why a queue refused a record. -/
inductive ClaimFailure where
  | records
  | bytes
  deriving DecidableEq, Repr

/-- Lack of bytes in either queue is what is reported. -/
def ClaimFailure.combine : ClaimFailure → ClaimFailure → ClaimFailure
  | .bytes, _ => .bytes
  | _, .bytes => .bytes
  | _, _ => .records

/-- What the counter access of one claim did. -/
inductive Claim where
  /-- No room, and the counter is unchanged. -/
  | refused
  /-- Granted, with the counter's new value. -/
  | granted (counter : ℕ)
  /-- No room, but the amount was added and must be taken back. -/
  | overshot (counter : ℕ)
  deriving DecidableEq, Repr

/-- Claim an amount on a counter, up to the access that decides it. Large
capacities are updated by compare-and-exchange, small ones add first. -/
def claimAmount (depth capacity amount : ℕ) : Claim :=
  if amount > capacity then .refused
  else if capacity > wordMax / 2 then
    if depth + amount ≤ wordMax ∧ depth + amount ≤ capacity then .granted (depth + amount)
    else .refused
  else if depth ≤ capacity - amount then .granted (wrappingAdd depth amount)
  else .overshot (wrappingAdd depth amount)

/-- A granted claim has added its amount. -/
theorem counter_of_granted {depth capacity amount counter : ℕ}
    (h : claimAmount depth capacity amount = .granted counter) :
    counter = wrappingAdd depth amount := by
  unfold claimAmount at h
  split_ifs at h with h1 h2 h3
  · injection h with h
    rw [← h, wrappingAdd, Nat.mod_eq_of_lt]
    exact lt_of_le_of_lt h3.1 (by decide)
  · injection h with h
    exact h.symm

/-- An overshot claim has added its amount too. -/
theorem counter_of_overshot {depth capacity amount counter : ℕ}
    (h : claimAmount depth capacity amount = .overshot counter) :
    counter = wrappingAdd depth amount := by
  unfold claimAmount at h
  split_ifs at h
  injection h with h
  exact h.symm

/-- The registered lanes by number, with the drain's starting position. -/
structure LaneRegistry where
  /-- Registered lanes in registration order. -/
  lanes : List ℕ
  /-- Where the next drain starts. -/
  cursor : ℕ

/-- The locked section of a drain: keep the wanted lanes, order them from the
cursor round, and advance the cursor by one. -/
def LaneRegistry.snapshot (registry : LaneRegistry) (keep : ℕ → Bool) : LaneRegistry × List ℕ :=
  let lanes := registry.lanes.filter keep
  if lanes.length = 0 then (⟨lanes, 0⟩, [])
  else
    let start := registry.cursor % lanes.length
    (⟨lanes, (start + 1) % lanes.length⟩, lanes.rotate start)

/-- The snapshot keeps exactly the wanted lanes. -/
theorem snapshot_lanes (registry : LaneRegistry) (keep : ℕ → Bool) :
    (registry.snapshot keep).1.lanes = registry.lanes.filter keep := by
  unfold LaneRegistry.snapshot
  dsimp only
  split <;> rfl

/-- The ordered lanes are the kept lanes, rotated. -/
theorem mem_snapshot_order {registry : LaneRegistry} {keep : ℕ → Bool} {i : ℕ} :
    i ∈ (registry.snapshot keep).2 ↔ i ∈ (registry.snapshot keep).1.lanes := by
  unfold LaneRegistry.snapshot
  dsimp only
  split
  · rename_i h
    rw [List.length_eq_zero_iff.mp h]
  · exact List.mem_rotate

/-- A registry without repetitions is drained in an order without repetitions. -/
theorem snapshot_order_nodup {registry : LaneRegistry} (keep : ℕ → Bool)
    (h : registry.lanes.Nodup) : (registry.snapshot keep).2.Nodup := by
  unfold LaneRegistry.snapshot
  dsimp only
  split
  · exact List.nodup_nil
  · exact List.nodup_rotate.mpr (h.filter _)

variable {L : Type}

/-- One pass of a drain over the detached queues of a kind: what is left of
them, and what was moved. -/
def drainPass (q : QueueKind) (batches : List (LaneQueues L)) :
    List (LaneQueues L) × List (QueuedLog L) :=
  (batches.map fun b => b.set q ((b.get q).drop drainQuantum),
    batches.flatMap fun b => (b.get q).take drainQuantum)

/-- Passes until one of them moves nothing. -/
def drainLoop (q : QueueKind) :
    ℕ → List (LaneQueues L) → List (QueuedLog L) → List (LaneQueues L) × List (QueuedLog L)
  | 0, batches, output => (batches, output)
  | fuel + 1, batches, output =>
    if (drainPass q batches).2.length = 0 then ((drainPass q batches).1, output)
    else drainLoop q fuel (drainPass q batches).1 (output ++ (drainPass q batches).2)

/-- The queues of one kind. -/
def kindQueues (q : QueueKind) (batches : List (LaneQueues L)) : List (List (QueuedLog L)) :=
  batches.map fun b => b.get q

/-- Move every detached record of a kind to the output. Each pass but the last
moves a record, so the records held bound the number of passes. -/
def drainBatches (q : QueueKind) (batches : List (LaneQueues L)) (output : List (QueuedLog L)) :
    List (LaneQueues L) × List (QueuedLog L) :=
  drainLoop q (RoundRobin.held (kindQueues q batches) + 1) batches output

/-- A pass takes one round of the queues of its kind. -/
theorem drainPass_moved (q : QueueKind) (batches : List (LaneQueues L)) :
    (drainPass q batches).2 = RoundRobin.passTaken drainQuantum (kindQueues q batches) := by
  simp only [drainPass, RoundRobin.passTaken, kindQueues, List.map_map, List.flatMap_def]
  rfl

/-- A pass leaves the rest of the queues of its kind. -/
theorem drainPass_left (q : QueueKind) (batches : List (LaneQueues L)) :
    kindQueues q (drainPass q batches).1 =
      RoundRobin.passLeft drainQuantum (kindQueues q batches) := by
  simp only [drainPass, RoundRobin.passLeft, kindQueues, List.map_map]
  exact List.map_congr_left fun b _ => by simp

/-- A pass leaves the queues of the other kind alone. -/
theorem drainPass_other {q r : QueueKind} (h : r ≠ q) (batches : List (LaneQueues L)) :
    kindQueues r (drainPass q batches).1 = kindQueues r batches := by
  simp only [drainPass, kindQueues, List.map_map]
  exact List.map_congr_left fun b _ => by simp [h]

/-- The loop appends the round-robin drain of its kind to the output. -/
theorem drainLoop_output (q : QueueKind) (fuel : ℕ) (batches : List (LaneQueues L))
    (output : List (QueuedLog L)) :
    (drainLoop q fuel batches output).2 =
      output ++ RoundRobin.drain drainQuantum fuel (kindQueues q batches) := by
  induction fuel generalizing batches output with
  | zero => simp [drainLoop, RoundRobin.drain]
  | succ fuel ih =>
    rw [drainLoop, RoundRobin.drain, ← drainPass_moved]
    split
    · simp
    · rw [ih, drainPass_left, List.append_assoc]

/-- The loop leaves the other kind alone. -/
theorem drainLoop_other {q r : QueueKind} (h : r ≠ q) (fuel : ℕ) (batches : List (LaneQueues L))
    (output : List (QueuedLog L)) :
    kindQueues r (drainLoop q fuel batches output).1 = kindQueues r batches := by
  induction fuel generalizing batches output with
  | zero => rfl
  | succ fuel ih =>
    rw [drainLoop]
    split
    · exact drainPass_other h batches
    · rw [ih, drainPass_other h]

/-- With enough fuel the loop leaves every queue of its kind empty. -/
theorem drainLoop_empties (q : QueueKind) (fuel : ℕ) (batches : List (LaneQueues L))
    (output : List (QueuedLog L)) (hf : RoundRobin.held (kindQueues q batches) < fuel) :
    RoundRobin.held (kindQueues q (drainLoop q fuel batches output).1) = 0 := by
  induction fuel generalizing batches output with
  | zero => omega
  | succ fuel ih =>
    have hp := RoundRobin.held_pass drainQuantum (kindQueues q batches)
    rw [← drainPass_left, ← drainPass_moved] at hp
    rw [drainLoop]
    split
    · rename_i hz
      rw [drainPass_moved] at hz
      have := RoundRobin.held_eq_zero_of_pass_empty (by decide : 0 < drainQuantum) hz
      dsimp only
      omega
    · exact ih _ _ (by omega)

/-- What a drain moves out of the detached queues of a kind. -/
def drained (q : QueueKind) (batches : List (LaneQueues L)) : List (QueuedLog L) :=
  RoundRobin.drain drainQuantum (RoundRobin.held (kindQueues q batches) + 1) (kindQueues q batches)

/-- A drain appends what it moves. -/
theorem drainBatches_output (q : QueueKind) (batches : List (LaneQueues L))
    (output : List (QueuedLog L)) :
    (drainBatches q batches output).2 = output ++ drained q batches :=
  drainLoop_output q _ batches output

/-- A drain of one kind does not touch the other. -/
theorem drainBatches_other {q r : QueueKind} (h : r ≠ q) (batches : List (LaneQueues L))
    (output : List (QueuedLog L)) :
    kindQueues r (drainBatches q batches output).1 = kindQueues r batches :=
  drainLoop_other h _ batches output

/-- A drain moves every record of its kind once. -/
theorem drained_perm (q : QueueKind) (batches : List (LaneQueues L)) :
    (drained q batches).Perm (kindQueues q batches).flatten :=
  RoundRobin.drain_perm (by decide) _ _ (Nat.lt_succ_self _)

/-- Records of a class that only one lane holds leave the drain in lane order. -/
theorem drained_filter {p : QueuedLog L → Bool} {q : QueueKind} {batches : List (LaneQueues L)}
    (h : RoundRobin.Solo p (kindQueues q batches)) :
    (drained q batches).filter p = (kindQueues q batches).flatten.filter p :=
  h.drain_filter (by decide) _ (Nat.lt_succ_self _)

/-- Queues that hold nothing are empty. -/
theorem eq_nil_of_held {queues : List (List (QueuedLog L))} (h : RoundRobin.held queues = 0) :
    ∀ queue ∈ queues, queue = [] := by
  intro queue hq
  have hs := List.sum_eq_zero_iff_forall_eq_nat.mp h _ (List.mem_map_of_mem hq)
  exact List.length_eq_zero_iff.mp hs

/-- The two drains of a refresh leave every detached pair empty. -/
theorem drainBatches_empty (batches : List (LaneQueues L)) (reserved normal : List (QueuedLog L)) :
    ∀ b ∈ (drainBatches .normal (drainBatches .reserved batches reserved).1 normal).1,
      b.records = [] := by
  have hn := drainLoop_empties .normal
    (RoundRobin.held (kindQueues .normal (drainBatches .reserved batches reserved).1) + 1)
    (drainBatches .reserved batches reserved).1 normal (Nat.lt_succ_self _)
  have hr := drainLoop_empties .reserved
    (RoundRobin.held (kindQueues .reserved batches) + 1) batches reserved (Nat.lt_succ_self _)
  have ho := drainBatches_other (q := .normal) (r := .reserved) (by decide)
    (drainBatches .reserved batches reserved).1 normal
  intro b hb
  have hnil := eq_nil_of_held hn _ (List.mem_map_of_mem (f := fun b => b.get .normal) hb)
  have hmem := List.mem_map_of_mem (f := fun b => b.get .reserved) hb
  change b.get .reserved ∈ kindQueues .reserved _ at hmem
  rw [ho] at hmem
  have rnil := eq_nil_of_held hr _ hmem
  simp only [PerQueue.get] at hnil rnil
  simp only [LaneQueues.records, hnil, rnil, List.append_nil]

end EdenLogger.LogCollector
