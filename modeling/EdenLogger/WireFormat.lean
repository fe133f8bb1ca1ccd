import Mathlib.Algebra.BigOperators.Group.List.Basic
import Mathlib.Tactic.Ring

/-!
# Protobuf wire format of nested messages

Base-128 varints and length-delimited fields as literal bytes. Only what a
length computation rests on is developed: how long an encoding is, and that
a longer payload never has a shorter encoding.
-/

namespace EdenLogger.WireFormat

/-- Seven-bit groups of a value, with a bound on their number. -/
def varintGroups : ℕ → ℕ → List UInt8
  | 0, n => [n.toUInt8]
  | fuel + 1, n =>
    if n < 128 then [n.toUInt8] else (n % 128 + 128).toUInt8 :: varintGroups fuel (n / 128)

/-- Little-endian seven-bit groups, each but the last with its high bit set. -/
def varint (n : ℕ) : List UInt8 := varintGroups n n

/-- Any bound that is not below the value gives the same groups. -/
theorem varintGroups_eq {fuel n : ℕ} (h : n ≤ fuel) : varintGroups fuel n = varint n := by
  induction n using Nat.strongRecOn generalizing fuel with
  | ind n ih =>
    unfold varint
    cases fuel with
    | zero => rw [Nat.le_zero.mp h]
    | succ fuel =>
      cases n with
      | zero => rfl
      | succ n =>
        rw [varintGroups, varintGroups]
        split
        · rfl
        · rw [ih _ (by omega) (by omega), ih _ (by omega) (by omega)]

/-- The groups of a value, from its low end. -/
theorem varint_eq (n : ℕ) :
    varint n = if n < 128 then [n.toUInt8] else (n % 128 + 128).toUInt8 :: varint (n / 128) := by
  cases n with
  | zero => rfl
  | succ n =>
    rw [varint, varintGroups]
    split
    · rfl
    · rw [varintGroups_eq (by omega)]

/-- A value below 128 is one group. -/
theorem varint_length_small {n : ℕ} (h : n < 128) : (varint n).length = 1 := by
  rw [varint_eq, if_pos h]
  rfl

/-- A larger value adds one group to its high part. -/
theorem varint_length_large {n : ℕ} (h : 128 ≤ n) :
    (varint n).length = (varint (n / 128)).length + 1 := by
  rw [varint_eq, if_neg (by omega)]
  rfl

/-- A larger value has at least as many groups. -/
theorem varint_length_mono {m n : ℕ} (h : m ≤ n) :
    (varint m).length ≤ (varint n).length := by
  induction n using Nat.strongRecOn generalizing m with
  | ind n ih =>
    by_cases hm : m < 128
    · rw [varint_length_small hm]
      by_cases hn : n < 128
      · rw [varint_length_small hn]
      · rw [varint_length_large (by omega)]
        omega
    · have hd := ih (n / 128) (by omega) (Nat.div_le_div_right (c := 128) h)
      rw [varint_length_large (by omega : 128 ≤ m), varint_length_large (by omega : 128 ≤ n)]
      omega

/-- A length-delimited field: its key, the payload's length and the payload. -/
def lengthDelimited (field : ℕ) (payload : List UInt8) : List UInt8 :=
  varint (8 * field + 2) ++ (varint payload.length ++ payload)

/-- The key of a field number below 16 is one byte. -/
theorem lengthDelimited_length {field : ℕ} (h : field < 16) (payload : List UInt8) :
    (lengthDelimited field payload).length =
      1 + (varint payload.length).length + payload.length := by
  simp only [lengthDelimited, List.length_append,
    varint_length_small (by omega : 8 * field + 2 < 128)]
  ring

/-- A repeated length-delimited field, one occurrence for each payload. -/
def repeatedField (field : ℕ) (payloads : List (List UInt8)) : List UInt8 :=
  payloads.flatMap (lengthDelimited field)

/-- The length of a repeated field is the sum of its occurrences. -/
theorem repeatedField_length {field : ℕ} (h : field < 16) (payloads : List (List UInt8)) :
    (repeatedField field payloads).length =
      (payloads.map fun p => 1 + (varint p.length).length + p.length).sum := by
  induction payloads with
  | nil => rfl
  | cons p ps ih =>
    simp only [repeatedField, List.flatMap_cons, List.length_append, List.map_cons, List.sum_cons,
      lengthDelimited_length h]
    simp only [repeatedField] at ih
    omega

end EdenLogger.WireFormat
