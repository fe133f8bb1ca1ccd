import Mathlib.Data.Set.Basic
import Mathlib.Data.Nat.Notation

/-!
# Contiguous watermarks

Positive numbers arrive in any order. The watermark of the numbers seen so far
is the largest one below which nothing is missing. It is determined by the
set, and grows with it.
-/

namespace EdenLogger.Watermark

variable {seen later : Set ℕ} {w v n : ℕ}

/-- Nothing positive up to `w` is missing, and `w + 1` is. -/
structure IsWatermark (seen : Set ℕ) (w : ℕ) : Prop where
  /-- Every positive number up to the watermark was seen. -/
  covered : ∀ n, 0 < n → n ≤ w → n ∈ seen
  /-- The next number was not. -/
  next_missing : w + 1 ∉ seen

/-- A watermark lies below every number that is missing. -/
theorem IsWatermark.lt_of_missing (h : IsWatermark seen w) (hn : 0 < n) (hm : n ∉ seen) :
    w < n := by
  by_contra hw
  exact hm (h.covered n hn (Nat.le_of_not_lt hw))

/-- A set has at most one watermark. -/
theorem IsWatermark.unique (h : IsWatermark seen w) (h' : IsWatermark seen v) : w = v := by
  have h1 := h.lt_of_missing (Nat.succ_pos v) h'.next_missing
  have h2 := h'.lt_of_missing (Nat.succ_pos w) h.next_missing
  omega

/-- Seeing more never lowers the watermark. -/
theorem IsWatermark.mono (hs : seen ⊆ later) (h : IsWatermark seen w)
    (h' : IsWatermark later v) : w ≤ v := by
  have := h.lt_of_missing (Nat.succ_pos v) (fun hv => h'.next_missing (hs hv))
  omega

/-- The watermark of an initial segment is its end. -/
theorem IsWatermark.eq_of_segment (h : IsWatermark seen w)
    (hs : ∀ m, m ∈ seen ↔ 0 < m ∧ m ≤ n) : w = n := by
  refine h.unique ⟨fun m hm hle => (hs m).mpr ⟨hm, hle⟩, fun hn => ?_⟩
  have := (hs _).mp hn
  omega

end EdenLogger.Watermark
