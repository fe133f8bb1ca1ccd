import EdenLogger.LogRecord
import Mathlib.Data.Char
import Mathlib.Data.List.Lex

/-!
# Mapping to OTLP records

An owned record becomes an OTLP record. Its ids are decoded to bytes; an id that
cannot be decoded is kept as an attribute. Attributes are collected in a map and
listed in the order of their keys.
-/

namespace EdenLogger.OtlpMapper

open ExporterConfig JsonEscape JsonText LogRecord

/-! ## Hexadecimal ids -/

/-- The value of a digit. -/
def hexNibble (value : UInt8) : Option UInt8 :=
  if 0x30 ≤ value ∧ value ≤ 0x39 then some (value - 0x30)
  else if 0x61 ≤ value ∧ value ≤ 0x66 then some (value - 0x61 + 10)
  else if 0x41 ≤ value ∧ value ≤ 0x46 then some (value - 0x41 + 10)
  else none

/-- Two digits a byte; a digit left over is not read. -/
def decodePairs : List UInt8 → Option (List UInt8)
  | high :: low :: rest =>
    match hexNibble high, hexNibble low, decodePairs rest with
    | some h, some l, some output => some ((h <<< 4 ||| l) :: output)
    | _, _, _ => none
  | _ => some []

/-- Decode an id of `n` bytes. -/
def decodeHexId (n : ℕ) : Option Text → Option (List UInt8)
  | none => none
  | some value =>
    if (asBytes value).length ≠ n * 2 then none
    else
      match decodePairs (asBytes value) with
      | none => none
      | some output => if output.all (· == 0) then none else some output

/-! ## Attributes -/

/-- A value. The mapper itself makes strings, numbers and truth values. -/
inductive Value (V : Type) where
  | stringValue (value : Text)
  | intValue (value : Int64)
  | boolValue (value : Bool)
  | other (value : V)

/-- A value that may be unset. -/
structure AnyValue (V : Type) where
  value : Option (Value V)

/-- An attribute. -/
structure KeyValue (V : Type) where
  key : Text
  value : Option (AnyValue V)

/-- Attributes by key. -/
abbrev Attributes (V : Type) := AList fun _ : Text => AnyValue V

variable {V R : Type} [RequestFields R]

/-- `string_value`. -/
def stringValue (value : Text) : AnyValue V := ⟨some (.stringValue value)⟩

/-- `int_value`. -/
def intValue (value : Int64) : AnyValue V := ⟨some (.intValue value)⟩

/-- `bool_value`. -/
def boolValue (value : Bool) : AnyValue V := ⟨some (.boolValue value)⟩

/-- `insert_string`. -/
def insertString (attributes : Attributes V) (key value : Text) : Attributes V :=
  attributes.insert key (stringValue value)

/-- `insert_optional_string`. -/
def insertOptionalString (attributes : Attributes V) (key : Text) (value : Option Text) :
    Attributes V :=
  match value with
  | some value => insertString attributes key value
  | none => attributes

/-- A call on the attribute writer. -/
def attributeWriter (attributes : Attributes V) : FieldCall → Attributes V
  | .str key value => attributes.insert key (stringValue value)
  | .u64 key value => attributes.insert key
      (if value.toNat < 9223372036854775808 then intValue value.toInt64
      else stringValue (decimal value.toNat))
  | .i64 key value => attributes.insert key (intValue value)
  | .bool key value => attributes.insert key (boolValue value)
  | .display key value => attributes.insert key (stringValue value.text)

/-- Keep the attributes that have a value. -/
def extraAttribute (attributes : Attributes V) (extra : KeyValue V) : Attributes V :=
  match extra.value with
  | some value => attributes.insert extra.key value
  | none => attributes

/-- The attributes in the order of their keys. -/
def listAttributes (attributes : Attributes V) : List (KeyValue V) :=
  (attributes.entries.mergeSort fun a b => decide (a.1 ≤ b.1)).map fun e => ⟨e.1, some e.2⟩

/-! ## Records -/

/-- An OTLP record. -/
structure OtlpRecord (V : Type) where
  timeUnixNano : UInt64
  observedTimeUnixNano : UInt64
  severityNumber : Int32
  severityText : Text
  body : Option (AnyValue V)
  attributes : List (KeyValue V)
  droppedAttributesCount : UInt32
  flags : UInt32
  traceId : List UInt8
  spanId : List UInt8
  eventName : Text

/-- `timestamp_nanos`: zero before 1970 and after what fits. -/
def timestampNanos (log : EdenLog R) : UInt64 :=
  if 0 ≤ log.timestamp ∧ log.timestamp < 9223372036854775808 then
    UInt64.ofNat log.timestamp.toNat
  else 0

/-- `severity_number`. -/
def severityNumber : LogLevel → Int32
  | .trace => 1
  | .debug => 5
  | .info => 9
  | .warn => 13
  | .error => 17

/-- The attributes before the ids: entries, the request's fields, those supplied
and the record's own, each of which wins over those before it. -/
def fieldAttributes (order : MapOrder) (log : EdenLog R) (extra : List (KeyValue V)) :
    Attributes V :=
  let a := (order.visit log.additional).foldl (fun a e => a.insert e.1 (stringValue e.2)) ∅
  let a := (RequestFields.writeJson log.request).foldl attributeWriter a
  let a := extra.foldl extraAttribute a
  let a := insertString a "eden.audience".toList (audienceStr log.audience)
  let a := insertOptionalString a "eden.feature".toList log.feature
  let a := insertOptionalString a "code.function.name".toList log.function
  let a := insertOptionalString a "code.file.path".toList log.file
  let a :=
    match log.line with
    | some line => a.insert "code.line.number".toList (intValue line.toUInt64.toInt64)
    | none => a
  let a := insertOptionalString a "error.code".toList log.errorCode
  insertOptionalString a "error.type".toList log.errorCategory

/-- `map_with_attributes`. -/
def mapWithAttributes (order : MapOrder) (log : EdenLog R) (observedTimeUnixNano : UInt64)
    (extra : List (KeyValue V)) : OtlpRecord V :=
  let a := fieldAttributes order log extra
  let traceId := decodeHexId 16 log.traceId
  let spanId := if traceId.isSome then decodeHexId 8 log.spanId else none
  let a := if traceId.isNone then insertOptionalString a "eden.trace_id".toList log.traceId else a
  let a := if spanId.isNone then insertOptionalString a "eden.span_id".toList log.spanId else a
  { timeUnixNano := timestampNanos log
    observedTimeUnixNano := observedTimeUnixNano
    severityNumber := severityNumber log.level
    severityText := levelStr log.level
    body := some (stringValue log.message)
    attributes := listAttributes a
    droppedAttributesCount := 0
    flags := 0
    traceId := traceId.getD []
    spanId := spanId.getD []
    eventName := [] }

/-! ## Decoding -/

/-- Digits in either case. -/
def hexDigits : List Char :=
  ['0', '1', '2', '3', '4', '5', '6', '7', '8', '9', 'a', 'b', 'c', 'd', 'e', 'f',
    'A', 'B', 'C', 'D', 'E', 'F']

/-- A digit of the encoder is read back. -/
theorem hexNibble_hexChar : ∀ i : Fin 16,
    hexNibble (UInt8.ofNat (hexChar i).toNat) = some (UInt8.ofNat i.val) := by decide

/-- The encoder's digits are ASCII. -/
theorem hexChar_ascii : ∀ i : Fin 16, (hexChar i).toNat < 0x80 := by decide

/-- What is read as a digit is one, and its value is the digit's in either case. -/
theorem hexNibble_fin : ∀ i : Fin 256, ∀ v ∈ hexNibble (UInt8.ofNat i.val),
    i.val < 0x80 ∧ byteChar (UInt8.ofNat i.val) ∈ hexDigits ∧ v.toNat < 16 ∧
      hexChars[v.toNat]? = some (byteChar (UInt8.ofNat i.val)).toLower := by
  decide +kernel

/-- What is read as a digit is one. -/
theorem hexNibble_some {b v : UInt8} (h : hexNibble b = some v) :
    b.toNat < 0x80 ∧ byteChar b ∈ hexDigits ∧ ∃ i : Fin 16, v = UInt8.ofNat i.val ∧
      hexChar i = (byteChar b).toLower := by
  have hb : UInt8.ofNat b.toNat = b := UInt8.ofNat_toNat
  have hfin := hexNibble_fin ⟨b.toNat, b.toNat_lt⟩ v (by rw [hb]; exact h)
  simp only [hb] at hfin
  obtain ⟨hascii, hdigit, hlt, hchar⟩ := hfin
  refine ⟨hascii, hdigit, ⟨v.toNat, hlt⟩, UInt8.ofNat_toNat.symm, ?_⟩
  exact Option.some.inj ((List.getElem?_eq_getElem hlt).symm.trans hchar)

/-- A byte of two digits. -/
theorem halves_toNat : ∀ h l : Fin 16,
    (UInt8.ofNat h.val <<< 4 ||| UInt8.ofNat l.val).toNat = h.val * 16 + l.val := by
  decide +kernel

/-- Encoding a byte of two digits gives the digits. -/
theorem hexEncode_halves (h l : Fin 16) (bytes : List UInt8) :
    hexEncode ((UInt8.ofNat h.val <<< 4 ||| UInt8.ofNat l.val) :: bytes) =
      hexChar h :: hexChar l :: hexEncode bytes := by
  have hval := halves_toNat h l
  unfold hexEncode
  rw [List.flatMap_cons]
  simp only [hval]
  have hhigh : (h.val * 16 + l.val) / 16 = h.val := by omega
  have hlow : (h.val * 16 + l.val) % 16 = l.val := by omega
  simp only [hhigh, hlow, List.cons_append, List.nil_append]

/-- What is decoded is made of digits, and encodes the result up to their case. -/
theorem decodePairs_spec {k : ℕ} {bytes output : List UInt8} (hlen : bytes.length = k * 2)
    (h : decodePairs bytes = some output) :
    (∀ b ∈ bytes, b.toNat < 0x80 ∧ byteChar b ∈ hexDigits) ∧ output.length = k ∧
      hexEncode output = bytes.map fun b => (byteChar b).toLower := by
  induction k generalizing bytes output with
  | zero =>
    obtain rfl := List.length_eq_zero_iff.mp hlen
    obtain rfl : [] = output := Option.some.inj h
    exact ⟨fun _ hb => absurd hb List.not_mem_nil, rfl, rfl⟩
  | succ k ih =>
    obtain ⟨high, low, rest, rfl⟩ : ∃ high low rest, bytes = high :: low :: rest := by
      rcases bytes with _ | ⟨high, _ | ⟨low, rest⟩⟩
      · simp at hlen
      · simp only [List.length_cons, List.length_nil] at hlen
        omega
      · exact ⟨high, low, rest, rfl⟩
    have hrest : rest.length = k * 2 := by
      simp only [List.length_cons] at hlen
      omega
    rw [decodePairs] at h
    split at h
    · rename_i hv lv tail hhigh hlow htail
      obtain rfl := Option.some.inj h
      obtain ⟨hdigits, hcount, henc⟩ := ih hrest htail
      obtain ⟨hascii, hmem, i, rfl, hi⟩ := hexNibble_some hhigh
      obtain ⟨lascii, lmem, j, rfl, hj⟩ := hexNibble_some hlow
      refine ⟨?_, by rw [List.length_cons, hcount], ?_⟩
      · exact List.forall_mem_cons.mpr ⟨⟨hascii, hmem⟩,
          List.forall_mem_cons.mpr ⟨⟨lascii, lmem⟩, hdigits⟩⟩
      · rw [hexEncode_halves, henc, hi, hj]
        rfl
    · cases h

/-- Bytes of ASCII characters. -/
theorem asBytes_ascii {s : List Char} (h : ∀ c ∈ s, c.toNat < 0x80) :
    asBytes s = s.map fun c => UInt8.ofNat c.toNat := by
  induction s with
  | nil => rfl
  | cons c s ih =>
    obtain ⟨hc, hs⟩ := List.forall_mem_cons.mp h
    have htail := ih hs
    unfold asBytes at htail ⊢
    rw [List.flatMap_cons, encode_ascii hc, htail]
    rfl

/-- A string all of whose bytes are ASCII is its bytes. -/
theorem asBytes_byteChar {s : List Char} (h : ∀ b ∈ asBytes s, b.toNat < 0x80) :
    (asBytes s).map byteChar = s := by
  have hascii : ∀ c ∈ s, c.toNat < 0x80 := by
    intro c hc
    by_contra hge
    obtain ⟨hlen, hbytes⟩ := encode_multibyte (Nat.le_of_not_lt hge)
    have hpos : 0 < (String.utf8EncodeChar c).length := by omega
    obtain ⟨b, hb⟩ := List.exists_mem_of_length_pos hpos
    exact absurd (h b (List.mem_flatMap.mpr ⟨c, hc, hb⟩)) (Nat.not_lt.mpr (hbytes b hb))
  rw [asBytes_ascii hascii, List.map_map]
  refine (List.map_congr_left fun c hc => ?_).trans (List.map_id s)
  have hlt := hascii c hc
  refine Char.toNat_inj.mp ?_
  rw [Function.comp_apply, toNat_byteChar, UInt8.toNat_ofNat']
  exact Nat.mod_eq_of_lt (by omega)

/-- Two digits a byte. -/
theorem length_hexEncode (bytes : List UInt8) : (hexEncode bytes).length = bytes.length * 2 := by
  induction bytes with
  | nil => rfl
  | cons b bytes ih =>
    unfold hexEncode at ih ⊢
    rw [List.flatMap_cons, List.length_append, ih, List.length_cons]
    dsimp only [List.length_cons, List.length_nil]
    omega

/-- The digits are ASCII. -/
theorem hexEncode_ascii (bytes : List UInt8) : ∀ c ∈ hexEncode bytes, c.toNat < 0x80 := by
  intro c hc
  obtain ⟨b, -, hmem⟩ := List.mem_flatMap.mp hc
  rcases List.mem_cons.mp hmem with rfl | hmem
  · exact hexChar_ascii _
  · rw [List.mem_singleton.mp hmem]
    exact hexChar_ascii _

/-- The digits of bytes decode to them. -/
theorem decodePairs_hexEncode (bytes : List UInt8) :
    decodePairs ((hexEncode bytes).map fun c => UInt8.ofNat c.toNat) = some bytes := by
  induction bytes with
  | nil => rfl
  | cons b bytes ih =>
    have hb := b.toNat_lt
    have hhigh := hexNibble_hexChar ⟨b.toNat / 16, high_lt b⟩
    have hlow := hexNibble_hexChar ⟨b.toNat % 16, low_lt b⟩
    have hval := halves_toNat ⟨b.toNat / 16, high_lt b⟩ ⟨b.toNat % 16, low_lt b⟩
    unfold hexEncode at ih ⊢
    simp only [List.flatMap_cons, List.cons_append, List.nil_append, List.map_cons]
    rw [decodePairs, hhigh, hlow, ih]
    refine congrArg some (congrArg (· :: bytes) (UInt8.toNat_inj.mp ?_))
    rw [hval]
    dsimp only
    omega

/-- The encoding of an id that is not zero is decoded. -/
theorem decodeHexId_hexEncode {n : ℕ} {bytes : List UInt8} (hlen : bytes.length = n)
    (hnonzero : ∃ b ∈ bytes, b ≠ 0) : decodeHexId n (some (hexEncode bytes)) = some bytes := by
  obtain ⟨b, hmem, hb⟩ := hnonzero
  have hbytes := asBytes_ascii (hexEncode_ascii bytes)
  have hcount : (asBytes (hexEncode bytes)).length = n * 2 := by
    rw [hbytes, List.length_map, length_hexEncode, hlen]
  have hall : ¬ bytes.all (· == 0) := by
    intro hzero
    exact hb (eq_of_beq (List.all_eq_true.mp hzero b hmem))
  unfold decodeHexId
  dsimp only
  rw [if_neg (not_not_intro hcount), hbytes, decodePairs_hexEncode]
  exact if_neg hall

/-- What it means for bytes to be the id that a string writes: the string has two
digits a byte, they write the bytes up to their case, and the bytes are not all zero. -/
structure Decodes (n : ℕ) (s : Text) (bytes : List UInt8) : Prop where
  length : s.length = 2 * n
  digits : ∀ c ∈ s, c ∈ hexDigits
  size : bytes.length = n
  encodes : hexEncode bytes = s.map Char.toLower
  nonzero : ∃ b ∈ bytes, b ≠ 0

/-- An id is decoded only from a string that writes it. -/
theorem decodes_of_decodeHexId {n : ℕ} {id : Option Text} {bytes : List UInt8}
    (h : decodeHexId n id = some bytes) : ∃ s, id = some s ∧ Decodes n s bytes := by
  cases id with
  | none => cases h
  | some s =>
    refine ⟨s, rfl, ?_⟩
    unfold decodeHexId at h
    dsimp only at h
    split at h
    · cases h
    · rename_i hlen
      have hcount := not_not.mp hlen
      split at h
      · cases h
      · rename_i output houtput
        split at h
        · cases h
        · rename_i hall
          obtain rfl := Option.some.inj h
          obtain ⟨hdigits, hsize, henc⟩ := decodePairs_spec hcount houtput
          have hs := asBytes_byteChar fun b hb => (hdigits b hb).1
          have hlower : hexEncode output = s.map Char.toLower := by
            rw [henc, ← hs, List.map_map, hs]
            rfl
          refine ⟨?_, ?_, hsize, hlower, ?_⟩
          · rw [← hs, List.length_map, hcount, Nat.mul_comm]
          · intro c hc
            rw [← hs] at hc
            obtain ⟨b, hb, rfl⟩ := List.mem_map.mp hc
            exact (hdigits b hb).2
          · simpa using hall

/-! ## Attributes of a record -/

omit [RequestFields R] in
/-- A key that is mapped is listed once. -/
theorem filter_of_dlookup {l : List (Σ _ : Text, AnyValue V)} (hnodup : l.NodupKeys) {k : Text}
    {v : AnyValue V} (h : l.dlookup k = some v) :
    l.filter (fun e => decide (e.1 = k)) = [⟨k, v⟩] := by
  induction l with
  | nil => simp at h
  | cons e l ih =>
    obtain ⟨k', v'⟩ := e
    obtain ⟨hnot, hrest⟩ := List.nodupKeys_cons.mp hnodup
    by_cases hk : k' = k
    · subst hk
      rw [List.dlookup_cons_eq] at h
      obtain rfl := Option.some.inj h
      have htail : l.filter (fun e => decide (e.1 = k')) = [] := by
        refine List.filter_eq_nil_iff.mpr fun e he => ?_
        rw [decide_eq_true_eq]
        rintro rfl
        have hkey : e.1 ∈ l.keys := List.mem_keys_of_mem he
        exact hnot hkey
      simp [htail]
    · rw [List.dlookup_cons_ne _ _ (Ne.symm hk)] at h
      rw [List.filter_cons_of_neg (by simpa using hk)]
      exact ih hrest h

/-- The attributes with a key. -/
def OtlpRecord.withKey (record : OtlpRecord V) (key : Text) : List (KeyValue V) :=
  record.attributes.filter fun a => decide (a.key = key)

/-- The record has one attribute with the key, and it holds the string. -/
def OtlpRecord.Carries (record : OtlpRecord V) (key value : Text) : Prop :=
  record.withKey key = [⟨key, some (stringValue value)⟩]

omit [RequestFields R] in
/-- A mapped attribute is listed once. -/
theorem listAttributes_filter {a : Attributes V} {k : Text} {v : AnyValue V}
    (h : a.lookup k = some v) :
    (listAttributes a).filter (fun e => decide (e.key = k)) = [⟨k, some v⟩] := by
  have hone := filter_of_dlookup a.nodupKeys h
  have hperm := (List.mergeSort_perm a.entries fun a b => decide (a.1 ≤ b.1)).filter
    fun e => decide (e.1 = k)
  rw [hone] at hperm
  unfold listAttributes
  rw [List.filter_map]
  exact congrArg (List.map _) (List.perm_singleton.mp hperm)

/-- An optional string that is there is mapped. -/
theorem lookup_insertOptionalString (a : Attributes V) (key value : Text) :
    (insertOptionalString a key (some value)).lookup key = some (stringValue value) :=
  AList.lookup_insert a

/-- The other keys keep their values. -/
theorem lookup_insertOptionalString_ne (a : Attributes V) {key key' : Text} (h : key' ≠ key)
    (value : Option Text) : (insertOptionalString a key value).lookup key' = a.lookup key' := by
  cases value with
  | none => rfl
  | some value => exact AList.lookup_insert_ne h

/-- A span id is decoded only next to a trace id. -/
theorem spanId_nil (order : MapOrder) (log : EdenLog R) (observed : UInt64)
    (extra : List (KeyValue V)) (h : decodeHexId 16 log.traceId = none) :
    (mapWithAttributes order log observed extra).spanId = [] := by
  simp [mapWithAttributes, h]

/-- A trace id that is not decoded is an attribute. -/
theorem traceId_carried (order : MapOrder) (log : EdenLog R) (observed : UInt64)
    (extra : List (KeyValue V)) {s : Text} (hid : log.traceId = some s)
    (h : decodeHexId 16 log.traceId = none) :
    (mapWithAttributes order log observed extra).Carries "eden.trace_id".toList s := by
  refine listAttributes_filter ?_
  have hne : "eden.trace_id".toList ≠ "eden.span_id".toList := by decide
  simp only [h, Option.isSome_none, Bool.false_eq_true, if_false, Option.isNone_none, if_true]
  rw [lookup_insertOptionalString_ne _ hne, hid]
  exact lookup_insertOptionalString _ _ _

/-- A span id without bytes is an attribute. -/
theorem spanId_carried (order : MapOrder) (log : EdenLog R) (observed : UInt64)
    (extra : List (KeyValue V)) {s : Text} (hid : log.spanId = some s)
    (h : (if (decodeHexId 16 log.traceId).isSome then decodeHexId 8 log.spanId else none) = none) :
    (mapWithAttributes order log observed extra).Carries "eden.span_id".toList s := by
  refine listAttributes_filter ?_
  simp only [h, Option.isNone_none, if_true]
  rw [hid]
  exact lookup_insertOptionalString _ _ _

/-- A trace id is in the record as bytes or as an attribute. -/
theorem traceId_kept (order : MapOrder) (log : EdenLog R) (observed : UInt64)
    (extra : List (KeyValue V)) {s : Text} (hid : log.traceId = some s) :
    let record := mapWithAttributes order log observed extra
    Decodes 16 s record.traceId ∨
      (record.traceId = [] ∧ record.Carries "eden.trace_id".toList s) := by
  intro record
  have htrace : record.traceId = (decodeHexId 16 log.traceId).getD [] := rfl
  cases hd : decodeHexId 16 log.traceId with
  | none => exact Or.inr ⟨by rw [htrace, hd]; rfl, traceId_carried order log observed extra hid hd⟩
  | some bytes =>
    obtain ⟨s', hs', hdecodes⟩ := decodes_of_decodeHexId hd
    obtain rfl := Option.some.inj (hid.symm.trans hs')
    rw [htrace, hd]
    exact Or.inl hdecodes

/-- A span id is in the record as bytes or as an attribute. -/
theorem spanId_kept (order : MapOrder) (log : EdenLog R) (observed : UInt64)
    (extra : List (KeyValue V)) {s : Text} (hid : log.spanId = some s) :
    let record := mapWithAttributes order log observed extra
    Decodes 8 s record.spanId ∨
      (record.spanId = [] ∧ record.Carries "eden.span_id".toList s) := by
  intro record
  have hspan : record.spanId =
    (if (decodeHexId 16 log.traceId).isSome then decodeHexId 8 log.spanId else none).getD [] := rfl
  cases hd : if (decodeHexId 16 log.traceId).isSome then decodeHexId 8 log.spanId else none with
  | none => exact Or.inr ⟨by rw [hspan, hd]; rfl, spanId_carried order log observed extra hid hd⟩
  | some bytes =>
    rw [hspan, hd]
    split at hd
    · obtain ⟨s', hs', hdecodes⟩ := decodes_of_decodeHexId hd
      obtain rfl := Option.some.inj (hid.symm.trans hs')
      exact Or.inl hdecodes
    · cases hd

/-- Without the bytes of a trace id there are none of a span id. -/
theorem spanId_of_traceId (order : MapOrder) (log : EdenLog R) (observed : UInt64)
    (extra : List (KeyValue V)) (h : (mapWithAttributes order log observed extra).traceId = []) :
    (mapWithAttributes order log observed extra).spanId = [] := by
  have htrace : (mapWithAttributes order log observed extra).traceId =
    (decodeHexId 16 log.traceId).getD [] := rfl
  cases hd : decodeHexId 16 log.traceId with
  | none => exact spanId_nil order log observed extra hd
  | some bytes =>
    obtain ⟨s, -, hdecodes⟩ := decodes_of_decodeHexId hd
    have hsize := hdecodes.size
    rw [htrace, hd] at h
    rw [show bytes = [] from h] at hsize
    cases hsize

/-- Ids that the encoder wrote come back. -/
theorem encoded_ids (order : MapOrder) (log : EdenLog R) (observed : UInt64)
    (extra : List (KeyValue V)) {trace : TraceId} (hnonzero : ∃ b ∈ trace.toList, b ≠ 0)
    (hid : log.traceId = some (hexEncode16 trace)) :
    let record := mapWithAttributes order log observed extra
    record.traceId = trace.toList ∧
      ∀ span : SpanId, (∃ b ∈ span.toList, b ≠ 0) → log.spanId = some (hexEncode8 span) →
        record.spanId = span.toList := by
  intro record
  have htrace : record.traceId = (decodeHexId 16 log.traceId).getD [] := rfl
  have hspan : record.spanId =
    (if (decodeHexId 16 log.traceId).isSome then decodeHexId 8 log.spanId else none).getD [] := rfl
  have hdecoded : decodeHexId 16 log.traceId = some trace.toList := by
    rw [hid]
    exact decodeHexId_hexEncode trace.length_toList hnonzero
  refine ⟨by rw [htrace, hdecoded]; rfl, fun span hspanNonzero hspanId => ?_⟩
  rw [hspan, hdecoded, Option.isSome_some, if_pos rfl, hspanId]
  exact congrArg (·.getD []) (decodeHexId_hexEncode span.length_toList hspanNonzero)

/-- Ids are not lost. An id that is there is in the record as bytes or as the
attribute, the bytes are what the string writes, a span id has bytes only next to
those of a trace id, and ids written by the encoder come back. -/
theorem map_with_attributes_lossless (order : MapOrder) (log : EdenLog R) (observed : UInt64)
    (extra : List (KeyValue V)) :
    let record := mapWithAttributes order log observed extra
    (∀ s, log.traceId = some s → Decodes 16 s record.traceId ∨
      (record.traceId = [] ∧ record.Carries "eden.trace_id".toList s)) ∧
    (∀ s, log.spanId = some s → Decodes 8 s record.spanId ∨
      (record.spanId = [] ∧ record.Carries "eden.span_id".toList s)) ∧
    (log.traceId = none → record.traceId = []) ∧
    (log.spanId = none → record.spanId = []) ∧
    (record.spanId ≠ [] → record.traceId ≠ []) ∧
    (∀ trace : TraceId, (∃ b ∈ trace.toList, b ≠ 0) → log.traceId = some (hexEncode16 trace) →
      record.traceId = trace.toList ∧
      ∀ span : SpanId, (∃ b ∈ span.toList, b ≠ 0) → log.spanId = some (hexEncode8 span) →
        record.spanId = span.toList) := by
  intro record
  have htrace : record.traceId = (decodeHexId 16 log.traceId).getD [] := rfl
  have hspan : record.spanId =
    (if (decodeHexId 16 log.traceId).isSome then decodeHexId 8 log.spanId else none).getD [] := rfl
  refine ⟨?_, ?_, ?_, ?_, ?_, ?_⟩
  · exact fun s hid => traceId_kept order log observed extra hid
  · exact fun s hid => spanId_kept order log observed extra hid
  · intro hnone
    rw [htrace, hnone]
    rfl
  · intro hnone
    rw [hspan, hnone]
    split <;> rfl
  · exact fun hbytes htrace => hbytes (spanId_of_traceId order log observed extra htrace)
  · exact fun trace hnonzero hid => encoded_ids order log observed extra hnonzero hid

end EdenLogger.OtlpMapper
