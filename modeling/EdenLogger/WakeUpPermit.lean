import Mathlib.Data.Nat.Notation

/-!
# Wake-up permits

An asynchronous notification cell in the two forms a task system uses. The
first has one waiting task: `notifyOne` wakes it, or leaves one permit that
further calls do not add to, and a notification that was delivered to a waiter
which is dropped before it is polled again goes back into the cell. The second
is a broadcast: `notifyWaiters` wakes every waiter enabled before the call and
leaves nothing behind.
-/

namespace EdenLogger.WakeUpPermit

/-- Where the one waiting task of a cell stands. -/
inductive Waiter where
  /-- No wait is registered. -/
  | absent
  /-- A wait is registered and not yet notified. -/
  | waiting
  /-- The registered wait was notified and has not been polled since. -/
  | notified
  deriving DecidableEq, Repr

/-- A cell with one waiting task. A stored permit and a task that is still
waiting exclude each other: registering first takes the permit. -/
structure Notify where
  /-- A notification kept for the next wait. -/
  permit : Bool
  /-- The task's registration. -/
  waiter : Waiter
  /-- A waiting task is never left beside a permit. -/
  permit_of_waiting : waiter = .waiting → permit = false

namespace Notify

/-- A fresh cell. -/
def new : Notify := ⟨false, .absent, by simp⟩

/-- Wake the waiting task, or keep one permit. -/
def notifyOne (n : Notify) : Notify :=
  if n.waiter = .waiting then ⟨n.permit, .notified, by simp⟩
  else if n.waiter = .notified then ⟨true, .notified, by simp⟩
  else ⟨true, .absent, by simp⟩

/-- Poll the wait: whether it is ready, and the cell afterwards. A first poll
takes a stored permit or registers the task. -/
def poll (n : Notify) : Bool × Notify :=
  match n.waiter with
  | .notified => (true, ⟨n.permit, .absent, by simp⟩)
  | .waiting => (false, n)
  | .absent => if n.permit = true then (true, new) else (false, ⟨false, .waiting, by simp⟩)

/-- Drop the wait. A notification it had received but not seen is passed on,
which with no other task stores it. -/
def drop (n : Notify) : Notify :=
  if n.waiter = .notified then ⟨true, .absent, by simp⟩ else ⟨n.permit, .absent, by simp⟩

/-- A notification is stored, or delivered and not yet seen. -/
def pending (n : Notify) : Bool := n.permit || n.waiter == .notified

@[simp] theorem pending_new : new.pending = false := rfl

/-- After a call there is a notification, whatever the cell held. -/
@[simp] theorem pending_notifyOne (n : Notify) : n.notifyOne.pending = true := by
  unfold notifyOne
  split
  · simp [pending]
  · split <;> simp [pending]

/-- A poll is ready exactly when a notification is pending. -/
theorem poll_fst (n : Notify) : n.poll.1 = n.pending := by
  obtain ⟨permit, waiter, h⟩ := n
  cases waiter with
  | absent => cases permit <;> rfl
  | waiting => simp [poll, pending, h rfl]
  | notified => simp [poll, pending]

/-- A poll that is not ready leaves nothing pending. -/
theorem pending_poll_of_not_ready {n : Notify} (h : n.poll.1 = false) :
    n.poll.2.pending = false := by
  rw [poll_fst] at h
  obtain ⟨permit, waiter, hw⟩ := n
  cases waiter with
  | absent => cases permit <;> simp_all [poll, pending]
  | waiting => exact h
  | notified => simp [pending] at h

/-- Dropping a wait neither makes nor loses a notification. -/
@[simp] theorem pending_drop (n : Notify) : n.drop.pending = n.pending := by
  obtain ⟨permit, waiter, h⟩ := n
  cases waiter <;> cases permit <;> rfl

/-- Notifications in the cell: the stored one, and the one delivered and not yet seen. -/
def count (n : Notify) : ℕ :=
  (if n.permit = true then 1 else 0) + if n.waiter = .notified then 1 else 0

@[simp] theorem count_new : new.count = 0 := rfl

/-- A call adds at most one notification. -/
theorem count_notifyOne (n : Notify) : n.notifyOne.count ≤ n.count + 1 := by
  obtain ⟨permit, waiter, h⟩ := n
  cases waiter <;> cases permit <;> simp [notifyOne, count]

/-- A poll that is ready takes one. -/
theorem count_poll_of_ready {n : Notify} (h : n.poll.1 = true) :
    n.poll.2.count + 1 ≤ n.count := by
  obtain ⟨permit, waiter, hw⟩ := n
  cases waiter with
  | absent => cases permit <;> simp_all [poll, count, new]
  | waiting => exact absurd h (by simp [poll])
  | notified => cases permit <;> simp [poll, count]

/-- A poll adds none. -/
theorem count_poll (n : Notify) : n.poll.2.count ≤ n.count := by
  obtain ⟨permit, waiter, h⟩ := n
  cases waiter <;> cases permit <;> simp [poll, count, new]

/-- Dropping a wait adds none. -/
theorem count_drop (n : Notify) : n.drop.count ≤ n.count := by
  obtain ⟨permit, waiter, h⟩ := n
  cases waiter <;> cases permit <;> simp [drop, count]

end Notify

/-- A broadcast cell, by the number of calls made so far. -/
structure Broadcast where
  /-- Completed `notifyWaiters` calls. -/
  calls : ℕ
  deriving DecidableEq, Repr

namespace Broadcast

/-- A fresh broadcast cell. -/
def new : Broadcast := ⟨0⟩

/-- Wake every waiter enabled so far. -/
def notifyWaiters (b : Broadcast) : Broadcast := ⟨b.calls + 1⟩

/-- Enable a waiter: it remembers the calls it has already missed. -/
def enable (b : Broadcast) : ℕ := b.calls

/-- Whether a waiter enabled at that count has been woken. -/
def woken (b : Broadcast) (enabledAt : ℕ) : Bool := decide (enabledAt < b.calls)

/-- A call wakes every waiter that was enabled before it. -/
theorem woken_notifyWaiters {b : Broadcast} {e : ℕ} (h : e ≤ b.calls) :
    b.notifyWaiters.woken e = true := by
  exact decide_eq_true (Nat.lt_succ_of_le h)

end Broadcast

end EdenLogger.WakeUpPermit
