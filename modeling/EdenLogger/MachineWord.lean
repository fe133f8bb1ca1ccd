import Mathlib.Data.Nat.Notation
import Mathlib.Tactic.Ring

/-!
# Sixty-four bit counters

Unsigned words are naturals below `size`. Atomic additions and subtractions
wrap, the explicit `saturating` operations stop at the largest word. The
congruence lemmas let a wrapped counter be followed through additions and
subtractions by the exact natural it stands for.
-/

namespace EdenLogger.MachineWord

/-- The number of 64-bit words. -/
def size : ℕ := 18446744073709551616

/-- The largest 64-bit word. -/
def wordMax : ℕ := 18446744073709551615

/-- `fetch_add`: addition modulo the word size. -/
def wrappingAdd (a b : ℕ) : ℕ := (a + b) % size

/-- `fetch_sub`: subtraction modulo the word size. -/
def wrappingSub (a b : ℕ) : ℕ := (a + (size - b % size)) % size

/-- `saturating_add` of two words. -/
def saturatingAdd (a b : ℕ) : ℕ := min (a + b) wordMax

/-- A counter that stands for `n` stands for `n + b` after a `fetch_add`. -/
theorem wrappingAdd_mod (n b : ℕ) : wrappingAdd (n % size) b = (n + b) % size := by
  simp only [wrappingAdd, Nat.mod_add_mod]

/-- A counter that stands for `n + b` stands for `n` after a `fetch_sub`. -/
theorem wrappingSub_mod (n b : ℕ) : wrappingSub ((n + b) % size) b = n % size := by
  unfold wrappingSub size
  omega

/-- Subtracting what a word holds is exact. -/
theorem wrappingSub_of_le {a b : ℕ} (h : b ≤ a) (ha : a ≤ wordMax) : wrappingSub a b = a - b := by
  unfold wrappingSub size
  unfold wordMax at ha
  omega

/-- Below the bound a saturating addition is exact. -/
theorem saturatingAdd_of_le {a b : ℕ} (h : a + b ≤ wordMax) : saturatingAdd a b = a + b :=
  Nat.min_eq_left h

/-- Saturated operands do not change a saturated sum. -/
theorem saturatingAdd_min (a b : ℕ) :
    saturatingAdd (min a wordMax) (min b wordMax) = min (a + b) wordMax := by
  unfold saturatingAdd
  omega

/-- A word stands for itself. -/
theorem mod_size_of_lt {n : ℕ} (h : n < size) : n % size = n := Nat.mod_eq_of_lt h

end EdenLogger.MachineWord
