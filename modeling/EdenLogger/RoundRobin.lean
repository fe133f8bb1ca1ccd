import Mathlib.Algebra.BigOperators.Group.List.Basic
import Mathlib.Data.List.Perm.Basic
import Mathlib.Tactic.Ring

/-!
# Round-robin draining of several queues

Passes over a list of queues, each pass taking at most one quantum from the
front of every queue, until a pass takes nothing. The output holds every
element once, and keeps the order of any class of elements that lives in one
of the queues only.
-/

namespace EdenLogger.RoundRobin

variable {α : Type*} {quantum : ℕ}

/-- What one pass takes, queue after queue. -/
def passTaken (quantum : ℕ) (queues : List (List α)) : List α :=
  (queues.map (List.take quantum)).flatten

/-- What one pass leaves in the queues. -/
def passLeft (quantum : ℕ) (queues : List (List α)) : List (List α) :=
  queues.map (List.drop quantum)

/-- Repeated passes, at most `fuel` of them, stopping at an empty pass. -/
def drain (quantum : ℕ) : ℕ → List (List α) → List α
  | 0, _ => []
  | fuel + 1, queues =>
    if (passTaken quantum queues).length = 0 then []
    else passTaken quantum queues ++ drain quantum fuel (passLeft quantum queues)

/-- The elements held by all queues together. -/
def held (queues : List (List α)) : ℕ := (queues.map List.length).sum

/-- One pass neither makes nor loses an element. -/
theorem pass_perm (quantum : ℕ) (queues : List (List α)) :
    (passTaken quantum queues ++ (passLeft quantum queues).flatten).Perm queues.flatten := by
  induction queues with
  | nil => simp [passTaken, passLeft]
  | cons q qs ih =>
    simp only [passTaken, passLeft, List.map_cons, List.flatten_cons] at ih ⊢
    have hswap : ((qs.map (List.take quantum)).flatten ++ q.drop quantum ++
        (qs.map (List.drop quantum)).flatten).Perm
        (q.drop quantum ++ (qs.map (List.take quantum)).flatten ++
          (qs.map (List.drop quantum)).flatten) :=
      List.Perm.append_right _ List.perm_append_comm
    have hsplit := List.Perm.append_left (q.take quantum) hswap
    simp only [List.append_assoc] at hsplit ⊢
    refine hsplit.trans ?_
    rw [← List.append_assoc, List.take_append_drop]
    exact List.Perm.append_left q ih

/-- One pass accounts for every element in the queue lengths. -/
theorem held_pass (quantum : ℕ) (queues : List (List α)) :
    (passTaken quantum queues).length + held (passLeft quantum queues) = held queues := by
  have h := (pass_perm quantum queues).length_eq
  simpa only [held, List.length_append, List.length_flatten] using h

/-- A pass with a positive quantum takes nothing only from empty queues. -/
theorem held_eq_zero_of_pass_empty (hq : 0 < quantum) {queues : List (List α)}
    (h : (passTaken quantum queues).length = 0) : held queues = 0 := by
  induction queues with
  | nil => rfl
  | cons q qs ih =>
    simp only [passTaken, List.map_cons, List.flatten_cons, List.length_append,
      List.length_take] at h
    have hqs := ih (by simp only [passTaken]; omega)
    simp only [held, List.map_cons, List.sum_cons] at hqs ⊢
    omega

/-- Enough fuel drains every element, each exactly once. -/
theorem drain_perm (hq : 0 < quantum) (fuel : ℕ) (queues : List (List α))
    (hf : held queues < fuel) : (drain quantum fuel queues).Perm queues.flatten := by
  induction fuel generalizing queues with
  | zero => omega
  | succ fuel ih =>
    rw [drain]
    split
    · rename_i h
      have hz := held_eq_zero_of_pass_empty hq h
      have hl : queues.flatten.length = 0 := by
        rw [List.length_flatten]
        exact hz
      rw [List.length_eq_zero_iff.mp hl]
    · have hp := held_pass quantum queues
      exact ((ih _ (by omega)).append_left _).trans (pass_perm _ queues)

/-- At most one of the queues holds elements of the class `p`. -/
def Solo (p : α → Bool) (queues : List (List α)) : Prop :=
  queues.Pairwise fun a b => a.filter p = [] ∨ b.filter p = []

/-- If no queue holds the class, none of its elements is held at all. -/
theorem filter_flatten_eq_nil {p : α → Bool} {queues : List (List α)}
    (h : ∀ q ∈ queues, q.filter p = []) : queues.flatten.filter p = [] := by
  rw [List.filter_flatten, List.flatten_eq_nil_iff]
  intro l hl
  obtain ⟨q, hq, rfl⟩ := List.mem_map.mp hl
  exact h q hq

/-- Sublists of the queues inherit the absence of a class. -/
theorem filter_eq_nil_of_sublist {p : α → Bool} {a b : List α} (h : a.Sublist b)
    (hb : b.filter p = []) : a.filter p = [] :=
  List.sublist_nil.mp (hb ▸ h.filter p)

/-- What a pass leaves still has the class in one queue at most. -/
theorem Solo.passLeft {p : α → Bool} {queues : List (List α)} (h : Solo p queues) :
    Solo p (passLeft quantum queues) := by
  refine List.pairwise_map.mpr (List.Pairwise.imp ?_ h)
  intro a b hab
  exact hab.imp (filter_eq_nil_of_sublist (List.drop_sublist _ _))
    (filter_eq_nil_of_sublist (List.drop_sublist _ _))

/-- A pass splits a class that lives in one queue into its front and its rest. -/
theorem Solo.pass_filter {p : α → Bool} {queues : List (List α)} (h : Solo p queues) :
    (passTaken quantum queues).filter p ++ (RoundRobin.passLeft quantum queues).flatten.filter p =
      queues.flatten.filter p := by
  induction queues with
  | nil => rfl
  | cons q qs ih =>
    obtain ⟨hq, hqs⟩ := List.pairwise_cons.mp h
    have ih := ih hqs
    simp only [passTaken, RoundRobin.passLeft, List.map_cons, List.flatten_cons,
      List.filter_append] at ih ⊢
    by_cases hn : q.filter p = []
    · rw [filter_eq_nil_of_sublist (List.take_sublist quantum q) hn,
        filter_eq_nil_of_sublist (List.drop_sublist quantum q) hn, hn]
      simpa only [List.nil_append] using ih
    · have hrest : ∀ b ∈ qs, b.filter p = [] := fun b hb => (hq b hb).resolve_left hn
      have htake : (qs.map (List.take quantum)).flatten.filter p = [] := by
        apply filter_flatten_eq_nil
        intro l hl
        obtain ⟨b, hb, rfl⟩ := List.mem_map.mp hl
        exact filter_eq_nil_of_sublist (List.take_sublist _ _) (hrest b hb)
      have hdrop : (qs.map (List.drop quantum)).flatten.filter p = [] := by
        apply filter_flatten_eq_nil
        intro l hl
        obtain ⟨b, hb, rfl⟩ := List.mem_map.mp hl
        exact filter_eq_nil_of_sublist (List.drop_sublist _ _) (hrest b hb)
      rw [htake, hdrop, filter_flatten_eq_nil hrest]
      simp only [List.append_nil]
      rw [← List.filter_append, List.take_append_drop]

/-- A class that lives in one queue leaves the drain in that queue's order. -/
theorem Solo.drain_filter (hq : 0 < quantum) {p : α → Bool} (fuel : ℕ)
    {queues : List (List α)} (hf : held queues < fuel) (h : Solo p queues) :
    (drain quantum fuel queues).filter p = queues.flatten.filter p := by
  induction fuel generalizing queues with
  | zero => omega
  | succ fuel ih =>
    rw [drain]
    split
    · rename_i he
      have hl : queues.flatten.length = 0 := by
        rw [List.length_flatten]
        exact held_eq_zero_of_pass_empty hq he
      rw [List.length_eq_zero_iff.mp hl]
    · have hp := held_pass quantum queues
      rw [List.filter_append, ih (by omega) h.passLeft]
      exact h.pass_filter

end EdenLogger.RoundRobin
