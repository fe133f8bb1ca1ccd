import Mathlib.Data.Nat.Log
import Mathlib.Algebra.BigOperators.Group.List.Basic
import Mathlib.Algebra.Ring.Nat

/-!
# Halving the parts of a list

A stack of parts, some of which are replaced by their two halves until they
are single elements. How often an element can still be in a part that is
halved is the logarithm of its part's length, so halving pays for itself.
-/

namespace EdenLogger.Halving

variable {α : Type*} {p : α → Bool}

/-- The two halves of a part. -/
def halves (part : List α) : List (List α) :=
  [part.take (part.length / 2), part.drop (part.length / 2)]

/-- How often the elements that meet `p` can still be in a part that is halved. -/
def halvingsLeft (p : α → Bool) (stack : List (List α)) : ℕ :=
  (stack.map fun part => part.countP p * Nat.clog 2 part.length).sum

@[simp] theorem halvingsLeft_nil : halvingsLeft p [] = 0 := rfl

@[simp] theorem halvingsLeft_cons (part : List α) (stack : List (List α)) :
    halvingsLeft p (part :: stack) =
      part.countP p * Nat.clog 2 part.length + halvingsLeft p stack := by
  simp only [halvingsLeft, List.map_cons, List.sum_cons]

/-- Parts that are left have fewer halvings left. -/
theorem halvingsLeft_of_suffix {stack stack' : List (List α)} (h : stack' <:+ stack) :
    halvingsLeft p stack' ≤ halvingsLeft p stack := by
  obtain ⟨gone, rfl⟩ := h
  simp only [halvingsLeft, List.map_append, List.sum_append]
  omega

/-- The halves of a part are shorter by one in the logarithm. -/
theorem clog_halves {part half : List α} (hl : 2 ≤ part.length) (hh : half ∈ halves part) :
    Nat.clog 2 half.length + 1 ≤ Nat.clog 2 part.length := by
  have hlen : half.length ≤ (part.length + 1) / 2 := by
    rcases List.mem_cons.mp hh with rfl | hh
    · rw [List.length_take]
      omega
    · rw [List.mem_singleton.mp hh, List.length_drop]
      omega
  have hpart := Nat.clog_of_two_le (b := 2) (n := part.length) (by decide) hl
  have hmono := Nat.clog_mono_right 2 hlen
  have hceil : (part.length + 2 - 1) / 2 = (part.length + 1) / 2 := by omega
  rw [hceil] at hpart
  omega

/-- Halving a part is paid for by the halvings that are left. -/
theorem halvingsLeft_halves {part : List α} (hl : 2 ≤ part.length) (stack : List (List α)) :
    part.countP p + halvingsLeft p (halves part ++ stack) ≤ halvingsLeft p (part :: stack) := by
  have hcount : (part.take (part.length / 2)).countP p + (part.drop (part.length / 2)).countP p =
      part.countP p := by
    rw [← List.countP_append, List.take_append_drop]
  have hleft : Nat.clog 2 (part.take (part.length / 2)).length + 1 ≤ Nat.clog 2 part.length :=
    clog_halves hl List.mem_cons_self
  have hright : Nat.clog 2 (part.drop (part.length / 2)).length + 1 ≤ Nat.clog 2 part.length :=
    clog_halves hl (List.mem_cons_of_mem _ List.mem_cons_self)
  simp only [halves, List.cons_append, List.nil_append, halvingsLeft_cons]
  generalize (part.take (part.length / 2)).countP p = l at hcount ⊢
  generalize (part.drop (part.length / 2)).countP p = r at hcount ⊢
  have hl' := Nat.mul_le_mul_left l hleft
  have hr' := Nat.mul_le_mul_left r hright
  rw [Nat.mul_add, Nat.mul_one] at hl' hr'
  rw [← hcount, Nat.add_mul]
  omega

/-- A part of at most so many elements is halved at most logarithmically often. -/
theorem halvingsLeft_single {part : List α} {n : ℕ} (hn : part.length ≤ n) :
    halvingsLeft p [part] ≤ Nat.clog 2 n * part.countP p := by
  simp only [halvingsLeft_cons, halvingsLeft_nil, Nat.add_zero]
  rw [Nat.mul_comm]
  exact Nat.mul_le_mul_right _ (Nat.clog_mono_right 2 hn)

end EdenLogger.Halving
