import EdenLogger.MachineWord
import EdenLogger.WireFormat

/-!
# Request sizing

The worker never encodes a candidate batch to learn its size. It adds up the
field lengths of the records and computes the length of the enclosing scope,
resource and request messages, all in saturating word arithmetic. The result
is the length of the request's encoding, cut off at the largest word.
-/

namespace EdenLogger.RequestSizer

open MachineWord WireFormat

/-- The loop of `varint_len`: shift out seven bits while more remain. Ten
rounds suffice for a word. -/
def varintLenLoop : ℕ → ℕ → ℕ → ℕ
  | 0, _, encodedLen => encodedLen
  | fuel + 1, value, encodedLen =>
    if value ≥ 128 then varintLenLoop fuel (value / 128) (encodedLen + 1) else encodedLen

/-- Number of seven-bit groups of a word. -/
def varintLen (value : ℕ) : ℕ := varintLenLoop 10 value 1

/-- Length of a length-delimited field with a one-byte key. -/
def lengthDelimitedFieldLen (payloadLen : ℕ) : ℕ :=
  saturatingAdd (saturatingAdd 1 (varintLen payloadLen)) payloadLen

/-- The fixed parts of every request. -/
structure ExportRequestSizer where
  /-- Length of the resource field. -/
  resourceFieldLen : ℕ
  /-- Length of the scope field. -/
  scopeFieldLen : ℕ
  deriving DecidableEq

/-- Encoded instrumentation scope with only its name set. -/
def scopeMessage (scopeName : String) : List UInt8 :=
  if scopeName.isEmpty then [] else lengthDelimited 1 scopeName.toUTF8.toList

/-- Measure the resource and the scope once. -/
def ExportRequestSizer.new (resource : List UInt8) (scopeName : String) : ExportRequestSizer :=
  ⟨lengthDelimitedFieldLen resource.length, lengthDelimitedFieldLen (scopeMessage scopeName).length⟩

/-- Request length from the sum of the record field lengths. -/
def ExportRequestSizer.encodedLen (sizer : ExportRequestSizer) (recordsEncodedLen : ℕ) : ℕ :=
  let scopeLogsLen := saturatingAdd sizer.scopeFieldLen recordsEncodedLen
  let resourceLogsLen :=
    saturatingAdd sizer.resourceFieldLen (lengthDelimitedFieldLen scopeLogsLen)
  lengthDelimitedFieldLen resourceLogsLen

/-- The request's encoding: one resource with one scope holding the records. -/
def encodeRequest (resource : List UInt8) (scopeName : String) (records : List (List UInt8)) :
    List UInt8 :=
  lengthDelimited 1
    (lengthDelimited 1 resource ++
      lengthDelimited 2 (lengthDelimited 1 (scopeMessage scopeName) ++ repeatedField 2 records))

/-- The loop counts the groups that remain. -/
theorem varintLenLoop_eq {fuel value : ℕ} (h : value < 128 ^ fuel) (hf : 0 < fuel)
    (encodedLen : ℕ) :
    varintLenLoop fuel value encodedLen + 1 = encodedLen + (varint value).length := by
  induction fuel generalizing value encodedLen with
  | zero => omega
  | succ fuel ih =>
    rw [varintLenLoop]
    split
    · rename_i hv
      rw [pow_succ] at h
      have hd : value / 128 < 128 ^ fuel := Nat.div_lt_of_lt_mul (by omega)
      have hfuel : 0 < fuel := by
        rcases Nat.eq_zero_or_pos fuel with rfl | h'
        · simp only [pow_zero] at hd
          omega
        · exact h'
      rw [ih hd hfuel, varint_length_large hv]
      omega
    · rename_i hv
      rw [varint_length_small (by omega)]

/-- On words the loop agrees with the wire format. -/
theorem varintLen_eq {value : ℕ} (h : value ≤ wordMax) :
    varintLen value = (varint value).length := by
  have hb : value < 128 ^ 10 := lt_of_le_of_lt h (by decide)
  have := varintLenLoop_eq hb (by omega) 1
  unfold varintLen
  omega

/-- The exact length of a length-delimited field with a one-byte key. -/
def fieldLen (payloadLen : ℕ) : ℕ := 1 + (varint payloadLen).length + payloadLen

/-- A longer payload gives a longer field. -/
theorem fieldLen_mono {m n : ℕ} (h : m ≤ n) : fieldLen m ≤ fieldLen n := by
  have := varint_length_mono h
  unfold fieldLen
  omega

/-- The computed field length is the exact one, cut off at the largest word.
A saturated payload already saturates its field. -/
theorem lengthDelimitedFieldLen_min (n : ℕ) :
    lengthDelimitedFieldLen (min n wordMax) = min (fieldLen n) wordMax := by
  have hv := varintLen_eq (Nat.min_le_right n wordMax)
  have hpos : 0 < (varint n).length := by
    have h1 := varint_length_mono (Nat.zero_le n)
    rw [varint_length_small (by omega : (0 : ℕ) < 128)] at h1
    omega
  unfold lengthDelimitedFieldLen saturatingAdd fieldLen
  rw [hv]
  rcases le_total n wordMax with h | h
  · rw [Nat.min_eq_left h]
    omega
  · rw [Nat.min_eq_right h]
    omega

/-- Sum of the exact record field lengths. -/
def recordsLen (records : List (List UInt8)) : ℕ :=
  (records.map fun r => fieldLen r.length).sum

/-- Exact request length from the exact sum of the record field lengths. -/
def requestLen (resource : List UInt8) (scopeName : String) (n : ℕ) : ℕ :=
  fieldLen (fieldLen resource.length +
    fieldLen (fieldLen (scopeMessage scopeName).length + n))

/-- The encoding has the length `requestLen` computes. -/
theorem encodeRequest_length (resource : List UInt8) (scopeName : String)
    (records : List (List UInt8)) :
    (encodeRequest resource scopeName records).length =
      requestLen resource scopeName (recordsLen records) := by
  simp only [encodeRequest, requestLen, recordsLen, fieldLen, List.length_append,
    lengthDelimited_length (by omega : 1 < 16), lengthDelimited_length (by omega : 2 < 16),
    repeatedField_length (by omega : 2 < 16)]

/-- More record bytes never give a shorter request. -/
theorem requestLen_mono {resource : List UInt8} {scopeName : String} {m n : ℕ} (h : m ≤ n) :
    requestLen resource scopeName m ≤ requestLen resource scopeName n :=
  fieldLen_mono (Nat.add_le_add_left (fieldLen_mono (Nat.add_le_add_left h _)) _)

/-- The sizer computes the request length, cut off at the largest word, from a
sum of record lengths that is cut off the same way. -/
theorem encodedLen_eq {resource : List UInt8} (scopeName : String)
    (hr : resource.length ≤ wordMax) (hs : (scopeMessage scopeName).length ≤ wordMax) (n : ℕ) :
    (ExportRequestSizer.new resource scopeName).encodedLen (min n wordMax) =
      min (requestLen resource scopeName n) wordMax := by
  have hr' := lengthDelimitedFieldLen_min resource.length
  have hs' := lengthDelimitedFieldLen_min (scopeMessage scopeName).length
  rw [Nat.min_eq_left hr] at hr'
  rw [Nat.min_eq_left hs] at hs'
  simp only [ExportRequestSizer.encodedLen, ExportRequestSizer.new, hr', hs', saturatingAdd_min,
    lengthDelimitedFieldLen_min, requestLen]

end EdenLogger.RequestSizer
