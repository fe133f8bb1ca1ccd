import Mathlib.Data.List.Basic
import Mathlib.Data.Nat.Notation
import Mathlib.Tactic.Ring

/-!
# Decimal fields of fixed width

A number written with a fixed number of decimal digits, and texts that begin
with such fields. Among texts of one layout, the order of characters is the
order of the numbers, field by field.
-/

namespace EdenLogger.FixedWidth

/-- A number in decimal digits, as many as the width says. -/
structure Digits (width : ℕ) (text : List Char) (n : ℕ) : Prop where
  length : text.length = width
  digits : ∀ c ∈ text, c.isDigit = true
  value : Nat.ofDigitChars 10 text 0 = n

/-- Codes of digits. -/
theorem isDigit_bounds {c : Char} (h : c.isDigit = true) : 48 ≤ c.toNat ∧ c.toNat ≤ 57 := by
  simp only [Char.isDigit, Bool.and_eq_true, decide_eq_true_eq, ge_iff_le,
    UInt32.le_iff_toNat_le] at h
  exact h

/-- Characters are ordered by their codes. -/
theorem char_lt_iff (c d : Char) : c < d ↔ c.toNat < d.toNat := by
  rw [Char.lt_def, UInt32.lt_iff_toNat_lt]
  rfl

/-- The first digit has the weight of the width that follows. -/
theorem ofDigitChars_cons_zero (c : Char) (text : List Char) :
    Nat.ofDigitChars 10 (c :: text) 0 =
      10 ^ text.length * (c.toNat - 48) + Nat.ofDigitChars 10 text 0 := by
  rw [Nat.ofDigitChars_cons, Nat.ofDigitChars_eq_ofDigitChars_zero, Nat.mul_zero, Nat.zero_add]
  rfl

/-- A field's number is bounded by its width. -/
theorem ofDigitChars_lt {text : List Char} (h : ∀ c ∈ text, c.isDigit = true) :
    Nat.ofDigitChars 10 text 0 < 10 ^ text.length := by
  induction text with
  | nil => exact Nat.one_pos
  | cons c text ih =>
    have hdigit := (isDigit_bounds (h c List.mem_cons_self)).2
    have hrest := ih fun d hd => h d (List.mem_cons_of_mem _ hd)
    have hle : 10 ^ text.length * (c.toNat - 48) ≤ 10 ^ text.length * 9 :=
      Nat.mul_le_mul_left _ (by omega)
    rw [ofDigitChars_cons_zero, List.length_cons, Nat.pow_succ]
    omega

/-- Numbers with a bounded low part are ordered by their high parts first. -/
theorem mul_add_lt_iff {p d e u v : ℕ} (hu : u < p) (hv : v < p) :
    p * d + u < p * e + v ↔ d < e ∨ d = e ∧ u < v := by
  rcases Nat.lt_trichotomy d e with h | rfl | h
  · have hle : p * (d + 1) ≤ p * e := Nat.mul_le_mul_left p h
    rw [Nat.mul_add] at hle
    omega
  · omega
  · have hle : p * (e + 1) ≤ p * d := Nat.mul_le_mul_left p h
    rw [Nat.mul_add] at hle
    omega

/-- Fields of one width are ordered as their numbers. -/
theorem Digits.lt_iff {width m n : ℕ} {s t : List Char} (hs : Digits width s m)
    (ht : Digits width t n) : s < t ↔ m < n := by
  obtain ⟨hlen, hs, rfl⟩ := hs
  obtain ⟨hlen', ht, rfl⟩ := ht
  subst hlen
  induction s generalizing t with
  | nil =>
    rw [List.length_eq_zero_iff.mp hlen']
    exact iff_of_false (List.lt_irrefl _) (Nat.lt_irrefl _)
  | cons c s ih =>
    cases t with
    | nil => cases hlen'
    | cons d t =>
      have hlen'' : t.length = s.length := Nat.succ.inj hlen'
      obtain ⟨hc, hs⟩ := List.forall_mem_cons.mp hs
      obtain ⟨hd, ht⟩ := List.forall_mem_cons.mp ht
      have hclo := (isDigit_bounds hc).1
      have hdlo := (isDigit_bounds hd).1
      have hu := ofDigitChars_lt hs
      have hv := hlen'' ▸ ofDigitChars_lt ht
      rw [List.cons_lt_cons_iff, ih hs ht hlen'', ofDigitChars_cons_zero, ofDigitChars_cons_zero,
        hlen'', mul_add_lt_iff hu hv, char_lt_iff, ← Char.toNat_inj]
      omega

/-- Fields of one width are equal if their numbers are. -/
theorem Digits.eq_iff {width m n : ℕ} {s t : List Char} (hs : Digits width s m)
    (ht : Digits width t n) : s = t ↔ m = n := by
  constructor
  · rintro rfl
    exact hs.value.symm.trans ht.value
  · rintro rfl
    have hst := hs.lt_iff ht
    have hts := ht.lt_iff hs
    exact List.le_antisymm (by rw [← List.not_lt, hts]; omega) (by rw [← List.not_lt, hst]; omega)

/-- Texts are ordered by prefixes of one length first. -/
theorem append_lt_append {s t r r' : List Char} (h : s.length = t.length) :
    s ++ r < t ++ r' ↔ s < t ∨ s = t ∧ r < r' := by
  induction s generalizing t with
  | nil =>
    rw [List.length_eq_zero_iff.mp h.symm]
    simp
  | cons c s ih =>
    cases t with
    | nil => cases h
    | cons d t =>
      rw [List.cons_append, List.cons_append, List.cons_lt_cons_iff, List.cons_lt_cons_iff,
        ih (Nat.succ.inj h), List.cons.injEq]
      tauto

/-- Texts with a field and a mark in front are ordered by the field first. -/
theorem Digits.append_lt_iff {width m n : ℕ} {s t : List Char} (hs : Digits width s m)
    (ht : Digits width t n) (mark : Char) (r r' : List Char) :
    s ++ mark :: r < t ++ mark :: r' ↔ m < n ∨ m = n ∧ r < r' := by
  rw [append_lt_append (hs.length.trans ht.length.symm), hs.lt_iff ht, hs.eq_iff ht,
    List.cons_lt_cons_self]

/-- Leading zeros fill a field. -/
theorem Digits.padded {width zeros n : ℕ} (h : zeros + (Nat.toDigits 10 n).length = width) :
    Digits width (List.replicate zeros '0' ++ Nat.toDigits 10 n) n where
  length := by
    rw [List.length_append, List.length_replicate, h]
  digits c hc := by
    rcases List.mem_append.mp hc with hc | hc
    · exact List.eq_of_mem_replicate hc ▸ rfl
    · exact Nat.isDigit_of_mem_toDigits (by decide) (by decide) hc
  value := by
    rw [Nat.ofDigitChars_append, Nat.ofDigitChars_replicate_zero, Nat.mul_zero,
      Nat.ofDigitChars_ten_toDigits]

end EdenLogger.FixedWidth
