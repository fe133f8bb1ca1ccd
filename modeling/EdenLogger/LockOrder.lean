import Mathlib.Data.Nat.Notation
import Mathlib.Logic.Basic
import Mathlib.Logic.Relation

/-!
# Locks taken in order

Parties share locks. A party waits when its next operation takes a lock that
somebody holds. If the locks are ranked, and who holds a lock asks only for
locks below it, nobody waits in a circle: whoever is waited for at the end of a
chain can go on.
-/

namespace EdenLogger.LockOrder

variable {P K : Type*} {holder : K → Option P} {wants : P → Option K} {rank : K → ℕ}

/-- The first party's next operation takes a lock that the second one holds. -/
def WaitsFor (holder : K → Option P) (wants : P → Option K) (p q : P) : Prop :=
  ∃ k, wants p = some k ∧ holder k = some q

/-- What a party's next operation takes is free. -/
def Free (holder : K → Option P) (wants : P → Option K) (p : P) : Prop :=
  ∀ k, wants p = some k → holder k = none

/-- Who holds a lock asks only for locks of smaller rank. -/
def Ordered (rank : K → ℕ) (holder : K → Option P) (wants : P → Option K) : Prop :=
  ∀ p k j, wants p = some k → holder j = some p → rank k < rank j

/-- A party that is not free waits for another one. -/
theorem exists_held {p : P} (h : ¬ Free holder wants p) :
    ∃ k q, wants p = some k ∧ holder k = some q := by
  simp only [Free, not_forall] at h
  obtain ⟨k, hk, hheld⟩ := h
  obtain ⟨q, hq⟩ := Option.ne_none_iff_exists'.mp hheld
  exact ⟨k, q, hk, hq⟩

/-- The holder of a lock is free, or the chain of those it waits for ends with
the free holder of another one. -/
theorem Ordered.exists_free_holder (h : Ordered rank holder wants) {k : K} {p : P}
    (hp : holder k = some p) : ∃ q j, Relation.ReflTransGen (WaitsFor holder wants) p q ∧
      holder j = some q ∧ Free holder wants q := by
  -- along a chain the rank of what is wanted falls
  induction hn : rank k using Nat.strongRecOn generalizing k p with
  | ind n ih =>
    by_cases hfree : Free holder wants p
    · exact ⟨p, k, .refl, hp, hfree⟩
    · obtain ⟨i, q, hi, hq⟩ := exists_held hfree
      obtain ⟨r, j, hchain, hr, hfr⟩ := ih (rank i) (hn ▸ h p i k hi hp) hq rfl
      exact ⟨r, j, .head ⟨i, hi, hq⟩ hchain, hr, hfr⟩

/-- Nobody waits in a circle. A party is free itself, or the chain of those it
waits for ends with the free holder of a lock. -/
theorem Ordered.exists_free (h : Ordered rank holder wants) (p : P) :
    Free holder wants p ∨ ∃ q j, Relation.TransGen (WaitsFor holder wants) p q ∧
      holder j = some q ∧ Free holder wants q := by
  by_cases hfree : Free holder wants p
  · exact Or.inl hfree
  · obtain ⟨k, q, hk, hq⟩ := exists_held hfree
    obtain ⟨r, j, hchain, hr, hfr⟩ := h.exists_free_holder hq
    exact Or.inr ⟨r, j, .head' ⟨k, hk, hq⟩ hchain, hr, hfr⟩

end EdenLogger.LockOrder
