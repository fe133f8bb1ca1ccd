import EdenLogger.AttributePrecedence

/-!
# Reading OTLP records back

What a reader can tell of a log from the OTLP record it was mapped to. The
level, the audience, the message and every field that is set read back always.
A field that is not set reads back as such unless a lower source puts a value of
the field's kind under its key.
-/

namespace EdenLogger.OtlpReading

open ExporterConfig LogRecord OtlpMapper AttributePrecedence

variable {V R : Type}

/-! ## What there is to read -/

/-- The optional strings that have an attribute of their own. -/
inductive TextField where
  | feature
  | function
  | file
  | errorCode
  | errorCategory
  deriving DecidableEq

/-- The field's attribute. -/
def TextField.key : TextField → Text
  | feature => "eden.feature".toList
  | function => "code.function.name".toList
  | file => "code.file.path".toList
  | errorCode => "error.code".toList
  | errorCategory => "error.type".toList

/-- The field's value in a record. -/
def TextField.value (log : EdenLog R) : TextField → Option Text
  | feature => log.feature
  | function => log.function
  | file => log.file
  | errorCode => log.errorCode
  | errorCategory => log.errorCategory

/-- The attributes of the line and of the ids that have no bytes. -/
def lineKey : Text := "code.line.number".toList

def traceKey : Text := "eden.trace_id".toList

def spanKey : Text := "eden.span_id".toList

/-- What a log says besides its further entries and its request. -/
structure Essence where
  time : ℤ
  level : LogLevel
  audience : LogAudience
  message : Text
  texts : TextField → Option Text
  line : Option UInt32
  traceId : Option Text
  spanId : Option Text

/-- The bytes of the span id: there are none without those of a trace id. -/
def spanBytes (log : EdenLog R) : Option (List UInt8) :=
  if (decodeHexId 16 log.traceId).isSome then decodeHexId 8 log.spanId else none

/-- An id that has bytes is read in lower case. -/
def idText (bytes : Option (List UInt8)) (id : Option Text) : Option Text :=
  if bytes.isSome then id.map fun s => s.map Char.toLower else id

/-- The essence of a log. -/
def essence (log : EdenLog R) : Essence where
  time := log.timestamp
  level := log.level
  audience := log.audience
  message := log.message
  texts := fun f => f.value log
  line := log.line
  traceId := idText (decodeHexId 16 log.traceId) log.traceId
  spanId := idText (spanBytes log) log.spanId

/-! ## The reader -/

/-- A string value. -/
def textOf : AnyValue V → Option Text
  | ⟨some (.stringValue value)⟩ => some value
  | _ => none

/-- A number that is a line. -/
def lineOf : AnyValue V → Option UInt32
  | ⟨some (.intValue value)⟩ =>
    if 0 ≤ value.toInt ∧ value.toInt < 4294967296 then some (UInt32.ofNat value.toInt.toNat)
    else none
  | _ => none

/-- The value of an attribute. -/
def valueAt (record : OtlpRecord V) (key : Text) : Option (AnyValue V) :=
  (record.attributes.find? fun a => decide (a.key = key)).bind KeyValue.value

/-- The level with the number. -/
def levelOf (number : Int32) : Option LogLevel :=
  [LogLevel.trace, .debug, .info, .warn, .error].find? fun level =>
    decide (severityNumber level = number)

/-- The audience with the name. -/
def audienceOf (name : Text) : Option LogAudience :=
  [LogAudience.internal, .client, .both].find? fun audience => decide (audienceStr audience = name)

/-- An id is read from its bytes, or else from its attribute. -/
def readId (bytes : List UInt8) (other : Option Text) : Option Text :=
  if bytes = [] then other else some (hexEncode bytes)

/-- Read a record. -/
def readRecord (record : OtlpRecord V) : Option Essence := do
  let level ← levelOf record.severityNumber
  let audience ← ((valueAt record "eden.audience".toList).bind textOf).bind audienceOf
  let message ← record.body.bind textOf
  return {
    time := record.timeUnixNano.toNat
    level := level
    audience := audience
    message := message
    texts := fun f => (valueAt record f.key).bind textOf
    line := (valueAt record lineKey).bind lineOf
    traceId := readId record.traceId ((valueAt record traceKey).bind textOf)
    spanId := readId record.spanId ((valueAt record spanKey).bind textOf) }

/-! ## What is read of each field -/

/-- A string is read from a string value. -/
theorem textOf_eq_some {v : AnyValue V} {s : Text} : textOf v = some s ↔ v = stringValue s := by
  constructor
  · intro h
    unfold textOf at h
    split at h
    · rw [Option.some.inj h]
      rfl
    · cases h
  · rintro rfl
    rfl

/-- A line is read from the number it is mapped to. -/
theorem lineOf_eq_some {v : AnyValue V} {n : UInt32} :
    lineOf v = some n ↔ v = intValue (Int64.ofNat n.toNat) := by
  have hn := n.toNat_lt
  have hto : (Int64.ofNat n.toNat).toInt = n.toNat := Int64.toInt_ofNat_of_lt (by omega)
  constructor
  · intro h
    unfold lineOf at h
    split at h
    · rename_i value
      split_ifs at h with hrange
      have hvalue : value = Int64.ofNat n.toNat := by
        rw [← Int64.toInt_inj, hto, ← Option.some.inj h, UInt32.toNat_ofNat',
          Nat.mod_eq_of_lt (by omega)]
        omega
      rw [hvalue]
      rfl
    · cases h
  · rintro rfl
    unfold lineOf intValue
    dsimp only
    rw [hto, if_pos ⟨by omega, by omega⟩, Int.toNat_natCast, UInt32.ofNat_toNat]

/-- A string of the record wins over what is below. -/
theorem read_text (o : Option Text) (low : Option (AnyValue V)) :
    ((o.map stringValue).or low).bind textOf = o.or (low.bind textOf) := by
  cases o <;> rfl

/-- So does its line. -/
theorem read_line (o : Option UInt32) (low : Option (AnyValue V)) :
    ((o.map fun line => intValue (Int64.ofNat line.toNat)).or low).bind lineOf =
      o.or (low.bind lineOf) := by
  cases o with
  | none => rfl
  | some line => exact (lineOf_eq_some (V := V)).mpr rfl

/-- And its ids, from their bytes where there are some. -/
theorem read_id {n : ℕ} {bytes : Option (List UInt8)} {id : Option Text}
    (h : ∀ b, bytes = some b → ∃ s, id = some s ∧ Decodes n s b) (low : Option (AnyValue V)) :
    readId (bytes.getD [])
      (((if bytes.isNone then id.map stringValue else none).or low).bind textOf) =
      (idText bytes id).or (low.bind textOf) := by
  cases bytes with
  | none => exact read_text id low
  | some b =>
    obtain ⟨s, rfl, hdecodes⟩ := h b rfl
    obtain ⟨c, hc, -⟩ := hdecodes.nonzero
    have hb : b ≠ [] := List.ne_nil_of_mem hc
    have henc := hdecodes.encodes
    unfold readId
    rw [Option.getD_some, if_neg hb, henc]
    rfl

/-- The span id's bytes are decoded from it. -/
theorem decodes_of_spanBytes {log : EdenLog R} {b : List UInt8} (h : spanBytes log = some b) :
    ∃ s, log.spanId = some s ∧ Decodes 8 s b := by
  unfold spanBytes at h
  split at h
  · exact decodes_of_decodeHexId h
  · cases h

theorem levelOf_severityNumber (level : LogLevel) :
    levelOf (severityNumber level) = some level := by
  cases level <;> decide

theorem audienceOf_audienceStr (audience : LogAudience) :
    audienceOf (audienceStr audience) = some audience := by
  cases audience <;> decide

/-- What is set hides what is below; what is not set lets it through. -/
theorem or_eq_self_iff {α : Type} (o low : Option α) : o.or low = o ↔ (o = none → low = none) := by
  cases o with
  | none => simp
  | some a => simp

/-- The time is read back if it fits. -/
theorem time_iff (log : EdenLog R) :
    ((timestampNanos log).toNat : ℤ) = log.timestamp ↔
      0 ≤ log.timestamp ∧ log.timestamp < 9223372036854775808 := by
  unfold timestampNanos
  split
  · rename_i hrange
    have hlow : (0 : ℤ) ≤ log.timestamp := hrange.1
    have hhigh : (log.timestamp : ℤ) < 9223372036854775808 := hrange.2
    have hword : ∀ now : ℤ, 0 ≤ now → now < 9223372036854775808 → now.toNat < 2 ^ 64 :=
      fun now _ _ => by omega
    rw [UInt64.toNat_ofNat', Nat.mod_eq_of_lt (hword _ hlow hhigh)]
    exact ⟨fun _ => hrange, fun _ => Int.toNat_of_nonneg hlow⟩
  · rename_i hrange
    refine ⟨fun h => absurd ?_ hrange, fun h => absurd h hrange⟩
    rw [← h]
    decide

/-- An id is shown exactly if it is there. -/
theorem idText_eq_none_iff {bytes : Option (List UInt8)} {id : Option Text} :
    idText bytes id = none ↔ id = none := by
  unfold idText
  split
  · exact Option.map_eq_none_iff
  · exact Iff.rfl

/-! ## What the attributes hold -/

section Overwriting

variable {K A : Type} [DecidableEq K]

/-- The last value of a source that has each key once. -/
theorem last_of_mem {source : Source K A} (hkeys : (source.map Prod.fst).Nodup) {k : K}
    {v : Option A} (h : (k, v) ∈ source) : source.last k = v := by
  have huniq : ∀ w, (k, some w) ∈ source → v = some w := fun w hw => by
    have heq := List.inj_on_of_nodup_map hkeys h hw rfl
    exact congrArg Prod.snd heq
  cases hlast : source.last k with
  | some w =>
    obtain ⟨before, after, hsource, -⟩ := last_eq_some.mp hlast
    exact (huniq w (hsource ▸ List.mem_append_right _ List.mem_cons_self)).symm
  | none =>
    have hnot := last_eq_none.mp hlast
    cases v with
    | none => rfl
    | some w => exact absurd ⟨w, h⟩ hnot

end Overwriting

/-- A listed attribute is found by its key. -/
theorem find_listAttributes (a : Attributes V) (k : Text) :
    ((listAttributes a).find? fun e => decide (e.key = k)).bind KeyValue.value = a.lookup k := by
  cases h : a.lookup k with
  | some v =>
    rw [← List.head?_filter, listAttributes_filter h]
    rfl
  | none =>
    have hnone : ((listAttributes a).find? fun e => decide (e.key = k)) = none := by
      refine List.find?_eq_none.mpr fun e he hk => ?_
      obtain ⟨w, -, hw⟩ := (mem_listAttributes a e.key e.value).mp he
      rw [of_decide_eq_true hk, h] at hw
      cases hw
    rw [hnone]
    rfl

/-- The record's own attributes have different keys. -/
theorem intrinsic_keys (log : EdenLog R) :
    ((intrinsicSource (V := V) log).map Prod.fst).Nodup := by
  unfold intrinsicSource
  simp only [List.map_cons, List.map_nil]
  decide

/-- The record's own value for a key. -/
theorem intrinsic_last {log : EdenLog R} {k : Text} {v : Option (AnyValue V)}
    (h : (k, v) ∈ intrinsicSource log) : (intrinsicSource log).last k = v :=
  last_of_mem (intrinsic_keys log) h

/-- The audience is one of its own attributes. -/
theorem audience_mem (log : EdenLog R) :
    ("eden.audience".toList, some (stringValue (audienceStr log.audience))) ∈
      intrinsicSource (V := V) log :=
  List.mem_of_getElem? (i := 0) rfl

/-- So are its optional strings. -/
theorem text_mem (log : EdenLog R) (f : TextField) :
    (f.key, (f.value log).map stringValue) ∈ intrinsicSource (V := V) log := by
  cases f with
  | feature => exact List.mem_of_getElem? (i := 1) rfl
  | function => exact List.mem_of_getElem? (i := 2) rfl
  | file => exact List.mem_of_getElem? (i := 3) rfl
  | errorCode => exact List.mem_of_getElem? (i := 5) rfl
  | errorCategory => exact List.mem_of_getElem? (i := 6) rfl

/-- And its line. -/
theorem line_mem (log : EdenLog R) :
    (lineKey, log.line.map fun line => intValue (Int64.ofNat line.toNat)) ∈
      intrinsicSource (V := V) log :=
  List.mem_of_getElem? (i := 4) rfl

/-- And the ids that have no bytes. -/
theorem trace_mem (log : EdenLog R) :
    (traceKey, if (decodeHexId 16 log.traceId).isNone then log.traceId.map stringValue else none) ∈
      intrinsicSource (V := V) log :=
  List.mem_of_getElem? (i := 7) rfl

theorem span_mem (log : EdenLog R) :
    (spanKey, if (spanBytes log).isNone then log.spanId.map stringValue else none) ∈
      intrinsicSource (V := V) log :=
  List.mem_of_getElem? (i := 8) rfl

variable [RequestFields R]

/-- The sources below the record's own fields, highest first. -/
def lowerSources (log : EdenLog R) (extra : List (KeyValue V)) : List (Source Text (AnyValue V)) :=
  [suppliedSource extra, requestSource log.request, additionalSource log.additional]

/-- The value at a key is the record's own, or else that of the lower sources. -/
theorem valueAt_map (order : MapOrder) (log : EdenLog R) (observed : UInt64)
    (extra : List (KeyValue V)) (k : Text) :
    valueAt (mapWithAttributes order log observed extra) k =
      ((intrinsicSource log).last k).or ((storeSources (lowerSources log extra)).lookup k) := by
  have hsources : sources log extra = intrinsicSource log :: lowerSources log extra := rfl
  unfold valueAt
  rw [attributes_eq, find_listAttributes, lookup_visited, hsources, lookup_storeSources,
    List.findSome?_cons, lookup_storeSources]
  cases (intrinsicSource log).last k <;> rfl

/-- What the lower sources hold under a key. -/
def lowerValue (log : EdenLog R) (extra : List (KeyValue V)) (k : Text) : Option (AnyValue V) :=
  (storeSources (lowerSources log extra)).lookup k

/-- The value at one of the record's own keys. -/
theorem valueAt_own (order : MapOrder) {log : EdenLog R} (observed : UInt64)
    (extra : List (KeyValue V)) {k : Text} {v : Option (AnyValue V)}
    (h : (k, v) ∈ intrinsicSource log) :
    valueAt (mapWithAttributes order log observed extra) k = v.or (lowerValue log extra k) := by
  rw [valueAt_map, intrinsic_last h]
  rfl

/-- What is read of a record: its own fields, and where they are not set what
the lower sources put under their keys. -/
theorem readRecord_map (order : MapOrder) (log : EdenLog R) (observed : UInt64)
    (extra : List (KeyValue V)) :
    readRecord (mapWithAttributes order log observed extra) = some {
      time := (timestampNanos log).toNat
      level := log.level
      audience := log.audience
      message := log.message
      texts := fun f => (f.value log).or ((lowerValue log extra f.key).bind textOf)
      line := log.line.or ((lowerValue log extra lineKey).bind lineOf)
      traceId := (essence log).traceId.or ((lowerValue log extra traceKey).bind textOf)
      spanId := (essence log).spanId.or ((lowerValue log extra spanKey).bind textOf) } := by
  have htexts : (fun f : TextField => (f.value log).or ((lowerValue log extra f.key).bind textOf)) =
      fun f => (valueAt (mapWithAttributes order log observed extra) f.key).bind textOf := by
    funext f
    rw [valueAt_own order observed extra (text_mem log f), read_text]
  have hlevel : levelOf (mapWithAttributes order log observed extra).severityNumber =
      some log.level := levelOf_severityNumber log.level
  have haudience : ((valueAt (mapWithAttributes order log observed extra)
      "eden.audience".toList).bind textOf).bind audienceOf = some log.audience := by
    rw [valueAt_own order observed extra (audience_mem log)]
    exact audienceOf_audienceStr log.audience
  have hline := read_line log.line (lowerValue log extra lineKey)
  have htraceId : ∀ b, decodeHexId 16 log.traceId = some b →
      ∃ s, log.traceId = some s ∧ Decodes 16 s b := fun b hb => decodes_of_decodeHexId hb
  have hspanId : ∀ b, spanBytes log = some b →
      ∃ s, log.spanId = some s ∧ Decodes 8 s b := fun b hb => decodes_of_spanBytes hb
  have htrace : readId (mapWithAttributes order log observed extra).traceId _ = _ :=
    read_id htraceId (lowerValue log extra traceKey)
  have hspan : readId (mapWithAttributes order log observed extra).spanId _ = _ :=
    read_id hspanId (lowerValue log extra spanKey)
  rw [← valueAt_own order observed extra (line_mem log)] at hline
  rw [← valueAt_own order observed extra (trace_mem log)] at htrace
  rw [← valueAt_own order observed extra (span_mem log)] at hspan
  unfold readRecord
  rw [hlevel, haudience, hline, htrace, hspan, ← htexts]
  rfl

/-! ## What reads back -/

/-- No lower source speaks for a field that is not set: none has a value of the field's kind under
its key that wins over the others. -/
structure Unforged (log : EdenLog R) (extra : List (KeyValue V)) : Prop where
  texts : ∀ f : TextField, f.value log = none →
    ∀ s, ¬ Wins (lowerSources log extra) f.key (stringValue s)
  line : log.line = none →
    ∀ n : UInt32, ¬ Wins (lowerSources log extra) lineKey (intValue (Int64.ofNat n.toNat))
  traceId : log.traceId = none → ∀ s, ¬ Wins (lowerSources log extra) traceKey (stringValue s)
  spanId : log.spanId = none → ∀ s, ¬ Wins (lowerSources log extra) spanKey (stringValue s)

/-- No string is read from below where none wins. -/
theorem no_text_iff (log : EdenLog R) (extra : List (KeyValue V)) (k : Text) :
    (lowerValue log extra k).bind textOf = none ↔
      ∀ s, ¬ Wins (lowerSources log extra) k (stringValue s) := by
  rw [Option.eq_none_iff_forall_ne_some]
  refine forall_congr' fun s => not_congr ?_
  rw [← lookup_storeSources_iff, Option.bind_eq_some_iff]
  simp only [textOf_eq_some, exists_eq_right]
  rfl

/-- No line is read from below where none wins. -/
theorem no_line_iff (log : EdenLog R) (extra : List (KeyValue V)) :
    (lowerValue log extra lineKey).bind lineOf = none ↔
      ∀ n : UInt32, ¬ Wins (lowerSources log extra) lineKey (intValue (Int64.ofNat n.toNat)) := by
  rw [Option.eq_none_iff_forall_ne_some]
  refine forall_congr' fun n => not_congr ?_
  rw [← lookup_storeSources_iff, Option.bind_eq_some_iff]
  simp only [lineOf_eq_some, exists_eq_right]
  rfl

/-- A string reads back as such if it is set or no string wins below. -/
theorem text_kept_iff (log : EdenLog R) (extra : List (KeyValue V)) (k : Text) (o : Option Text) :
    o.or ((lowerValue log extra k).bind textOf) = o ↔
      (o = none → ∀ s, ¬ Wins (lowerSources log extra) k (stringValue s)) := by
  rw [or_eq_self_iff, no_text_iff]

/-- So does the line. -/
theorem line_kept_iff (log : EdenLog R) (extra : List (KeyValue V)) :
    log.line.or ((lowerValue log extra lineKey).bind lineOf) = log.line ↔
      (log.line = none →
        ∀ n : UInt32, ¬ Wins (lowerSources log extra) lineKey (intValue (Int64.ofNat n.toNat))) := by
  rw [or_eq_self_iff, no_line_iff]

/-- Exactly the essence is read if every part of it reads back as such. -/
theorem readRecord_eq_essence_iff (order : MapOrder) (log : EdenLog R) (observed : UInt64)
    (extra : List (KeyValue V)) :
    readRecord (mapWithAttributes order log observed extra) = some (essence log) ↔
      (0 ≤ log.timestamp ∧ log.timestamp < 9223372036854775808) ∧ Unforged log extra := by
  have htrace : (essence log).traceId = none ↔ log.traceId = none := idText_eq_none_iff
  have hspan : (essence log).spanId = none ↔ log.spanId = none := idText_eq_none_iff
  rw [readRecord_map order log observed extra, Option.some.injEq]
  constructor
  · intro h
    have htime := congrArg Essence.time h
    have htexts := congrArg Essence.texts h
    have hline := congrArg Essence.line h
    have hid := congrArg Essence.traceId h
    have hid' := congrArg Essence.spanId h
    dsimp only at htime htexts hline hid hid'
    refine ⟨(time_iff log).mp htime, fun f => ?_, ?_, fun hf => ?_, fun hf => ?_⟩
    · exact (text_kept_iff log extra f.key _).mp (congrFun htexts f)
    · exact (line_kept_iff log extra).mp hline
    · exact (text_kept_iff log extra traceKey _).mp hid (htrace.mpr hf)
    · exact (text_kept_iff log extra spanKey _).mp hid' (hspan.mpr hf)
  · rintro ⟨hrange, hforged⟩
    have htexts : (fun f : TextField =>
        (f.value log).or ((lowerValue log extra f.key).bind textOf)) =
        fun f => f.value log := by
      funext f
      exact (text_kept_iff log extra f.key _).mpr (hforged.texts f)
    have hline := (line_kept_iff log extra).mpr hforged.line
    have hid := (text_kept_iff log extra traceKey (essence log).traceId).mpr fun hf =>
      hforged.traceId (htrace.mp hf)
    have hid' := (text_kept_iff log extra spanKey (essence log).spanId).mpr fun hf =>
      hforged.spanId (hspan.mp hf)
    rw [htexts, hline, hid, hid', (time_iff log).mpr hrange]
    rfl

/-- Reading back an OTLP record. Whatever the request, the supplied attributes and the further
entries write, a reader gets the level, the audience, the message and every field that is set; and
it gets exactly the log's essence if and only if the time fits and no lower source speaks for a
field that is not set. -/
theorem otlp_reads_back (order : MapOrder) (log : EdenLog R) (observed : UInt64)
    (extra : List (KeyValue V)) :
    ∃ e, readRecord (mapWithAttributes order log observed extra) = some e ∧
      e.level = log.level ∧ e.audience = log.audience ∧ e.message = log.message ∧
      (∀ f s, f.value log = some s → e.texts f = some s) ∧
      (∀ n, log.line = some n → e.line = some n) ∧
      (∀ s, (essence log).traceId = some s → e.traceId = some s) ∧
      (∀ s, (essence log).spanId = some s → e.spanId = some s) ∧
      (e = essence log ↔
        (0 ≤ log.timestamp ∧ log.timestamp < 9223372036854775808) ∧ Unforged log extra) := by
  refine ⟨_, readRecord_map order log observed extra, rfl, rfl, rfl, ?_, ?_, ?_, ?_, ?_⟩
  · intro f s h
    dsimp only
    rw [h, Option.some_or]
  · intro n h
    dsimp only
    rw [h, Option.some_or]
  · intro s h
    dsimp only
    rw [h, Option.some_or]
  · intro s h
    dsimp only
    rw [h, Option.some_or]
  · rw [← readRecord_eq_essence_iff order log observed extra,
      readRecord_map order log observed extra, Option.some.injEq]

end EdenLogger.OtlpReading
