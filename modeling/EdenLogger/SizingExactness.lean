import EdenLogger.RequestSizer
import Mathlib.Data.Nat.Digits.Defs
import Mathlib.Order.Monotone.Basic

/-!
# Exactness of request sizing

Below the largest word no step of the sizer saturates. The computed length is
then the length of the encoding itself, however deep a length prefix grows,
and a larger record sum gives a larger request.
-/

namespace EdenLogger.SizingExactness

open MachineWord WireFormat RequestSizer

/-- The wire format writes one byte for each base-128 digit, and one for zero. -/
theorem varint_length_digits (n : ℕ) : (varint n).length = max 1 (Nat.digits 128 n).length := by
  induction n using Nat.strongRecOn with
  | ind n ih =>
    rcases Nat.eq_zero_or_pos n with rfl | hn
    · rfl
    · rw [Nat.digits_def' (by omega) hn, List.length_cons]
      by_cases h : n < 128
      · rw [varint_length_small h, Nat.div_eq_of_lt h, Nat.digits_zero]
        rfl
      · have hd : 0 < n / 128 := by omega
        have hdigits : 0 < (Nat.digits 128 (n / 128)).length := by
          rw [Nat.digits_def' (by omega) hd]
          exact Nat.succ_pos _
        rw [varint_length_large (by omega), ih (n / 128) (by omega)]
        omega

/-- A longer payload gives a strictly longer field. -/
theorem fieldLen_strictMono : StrictMono fieldLen := by
  intro m n h
  have := varint_length_mono h.le
  unfold fieldLen
  omega

/-- A field is longer than its payload. -/
theorem lt_fieldLen (n : ℕ) : n < fieldLen n := by
  unfold fieldLen
  omega

/-- A larger record sum gives a strictly longer request. -/
theorem requestLen_strictMono (resource : List UInt8) (scopeName : String) :
    StrictMono (requestLen resource scopeName) := by
  intro m n h
  have hscope := fieldLen_strictMono
    (Nat.add_lt_add_left h (fieldLen (scopeMessage scopeName).length))
  exact fieldLen_strictMono (Nat.add_lt_add_left hscope (fieldLen resource.length))

/-- Every payload is shorter than the request that holds it. -/
theorem parts_lt_requestLen (resource : List UInt8) (scopeName : String) (n : ℕ) :
    resource.length < requestLen resource scopeName n ∧
      (scopeMessage scopeName).length < requestLen resource scopeName n ∧
      n < requestLen resource scopeName n := by
  have hresource := lt_fieldLen resource.length
  have hscope := lt_fieldLen (scopeMessage scopeName).length
  have hlogs := lt_fieldLen (fieldLen (scopeMessage scopeName).length + n)
  have hrequest := lt_fieldLen
    (fieldLen resource.length + fieldLen (fieldLen (scopeMessage scopeName).length + n))
  unfold requestLen
  omega

/-- A request that fits in a word is sized without saturation. -/
theorem encodedLen_exact {resource : List UInt8} {scopeName : String} {n : ℕ}
    (h : requestLen resource scopeName n ≤ wordMax) :
    (ExportRequestSizer.new resource scopeName).encodedLen n = requestLen resource scopeName n := by
  obtain ⟨hr, hs, hn⟩ := parts_lt_requestLen resource scopeName n
  have heq := encodedLen_eq scopeName (hr.le.trans h) (hs.le.trans h) n
  rwa [Nat.min_eq_left (hn.le.trans h), Nat.min_eq_left h] at heq

/-- A field that fits in a word is measured without saturation. -/
theorem lengthDelimitedFieldLen_exact {n : ℕ} (h : fieldLen n ≤ wordMax) :
    lengthDelimitedFieldLen n = fieldLen n := by
  have heq := lengthDelimitedFieldLen_min n
  rwa [Nat.min_eq_left ((lt_fieldLen n).le.trans h), Nat.min_eq_left h] at heq

/-- Record sums that fit in a word are added up without saturation. -/
theorem recordsLen_exact {records : List (List UInt8)} (h : recordsLen records ≤ wordMax) :
    (records.map fun r => lengthDelimitedFieldLen r.length).sum = recordsLen records := by
  induction records with
  | nil => rfl
  | cons r rs ih =>
    have hsplit : recordsLen (r :: rs) = fieldLen r.length + recordsLen rs := by
      simp only [recordsLen, List.map_cons, List.sum_cons]
    rw [hsplit] at h
    rw [List.map_cons, List.sum_cons, ih (by omega), lengthDelimitedFieldLen_exact (by omega),
      hsplit]

/-- The sizer is exact on every request that fits in a word. Its varint lengths
count seven-bit groups, and a larger record sum is always told apart. -/
theorem request_sizing_exact (resource : List UInt8) (scopeName : String)
    (records : List (List UInt8))
    (h : (encodeRequest resource scopeName records).length ≤ wordMax) :
    (ExportRequestSizer.new resource scopeName).encodedLen
        (records.map fun r => lengthDelimitedFieldLen r.length).sum =
      (encodeRequest resource scopeName records).length ∧
    (∀ n ≤ wordMax, varintLen n = max 1 (Nat.digits 128 n).length) ∧
    ∀ m n, m < n → requestLen resource scopeName n ≤ wordMax →
      (ExportRequestSizer.new resource scopeName).encodedLen m <
        (ExportRequestSizer.new resource scopeName).encodedLen n := by
  rw [encodeRequest_length] at h ⊢
  refine ⟨?_, ?_, ?_⟩
  · have hn := (parts_lt_requestLen resource scopeName (recordsLen records)).2.2
    rw [recordsLen_exact (hn.le.trans h), encodedLen_exact h]
  · intro n hn
    rw [varintLen_eq hn, varint_length_digits]
  · intro m n hmn hfit
    have hlt := requestLen_strictMono resource scopeName hmn
    rw [encodedLen_exact hfit, encodedLen_exact (hlt.le.trans hfit)]
    exact hlt

/-- Two records, the first one so long that its own prefix and those of the
scope's and the resource's logs take two bytes each. -/
def longRecords : List (List UInt8) := [List.replicate 130 7, []]

/-- The request is sized with its two-byte prefixes, and a sum that needs them
is told apart from one that does not. -/
theorem request_sizing_exact_long :
    (ExportRequestSizer.new [1, 2] "").encodedLen
        (longRecords.map fun r => lengthDelimitedFieldLen r.length).sum =
      (encodeRequest [1, 2] "" longRecords).length ∧
    (encodeRequest [1, 2] "" longRecords).length = 147 ∧
    varintLen 300 = max 1 (Nat.digits 128 300).length ∧
    (ExportRequestSizer.new [1, 2] "").encodedLen 5 <
      (ExportRequestSizer.new [1, 2] "").encodedLen 135 := by
  have hlength : (encodeRequest [1, 2] "" longRecords).length = 147 := by
    rw [encodeRequest_length]
    decide +kernel
  have hfit : (encodeRequest [1, 2] "" longRecords).length ≤ wordMax := by
    rw [hlength]
    decide
  obtain ⟨hexact, hgroups, hmono⟩ := request_sizing_exact [1, 2] "" longRecords hfit
  exact ⟨hexact, hlength, hgroups 300 (by decide), hmono 5 135 (by decide) (by decide)⟩

end EdenLogger.SizingExactness
