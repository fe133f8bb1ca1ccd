import EdenLogger.DisplayLine
import Mathlib.Logic.Function.Basic

/-!
# Records through serde

The derived implementations write a record as a map and read it back from one.
A field that is skipped leaves no key. An optional field whose key is missing
reads as absent; any other field is then an error. The map of further entries
is skipped when it is empty, and is no optional field.
-/

namespace EdenLogger.LogSerde

open ExporterConfig JsonText LogRecord DisplayLine

/-! ## What is not derived -/

/-- `serde_json`: values to text and back. -/
structure SerdeJson where
  toString : Json → Except Text Text
  fromStr : Text → Except Text Json

/-- The value comes back from its text. -/
def SerdeJson.RoundTrips (serde : SerdeJson) (v : Json) : Prop :=
  ∃ text, serde.toString v = .ok text ∧ serde.fromStr text = .ok v

/-- Timestamps to text and back. -/
structure TimeText where
  write : Instant → Text
  read : Text → Option Instant

/-- The fields of a record that have a key. -/
inductive Field where
  | timestamp
  | level
  | audience
  | message
  | traceId
  | spanId
  | feature
  | function
  | file
  | line
  | errorCode
  | errorCategory
  | additional
  deriving DecidableEq

/-- The key. -/
def Field.key : Field → Text
  | .timestamp => "timestamp".toList
  | .level => "level".toList
  | .audience => "audience".toList
  | .message => "message".toList
  | .traceId => "trace_id".toList
  | .spanId => "span_id".toList
  | .feature => "feature".toList
  | .function => "function".toList
  | .file => "file".toList
  | .line => "line".toList
  | .errorCode => "error_code".toList
  | .errorCategory => "error_category".toList
  | .additional => "additional".toList

/-- The fields in front of the request block. -/
def headFields : List Field :=
  [.timestamp, .level, .audience, .message, .traceId, .spanId, .feature, .function, .file, .line]

/-- The fields behind it. -/
def tailFields : List Field := [.errorCode, .errorCategory, .additional]

/-- The field of a key. -/
def fieldOf (key : Text) : Option Field :=
  (headFields ++ tailFields).find? fun f => decide (f.key = key)

/-- A request type that is flattened: it comes back from its entries, and their
keys are no field's. -/
structure FlattenSerde (R : Type) where
  serialize : R → List (Text × Json)
  deserialize : List (Text × Json) → Option R
  round_trip : ∀ r, deserialize (serialize r) = some r
  disjoint : ∀ r, ∀ e ∈ serialize r, fieldOf e.1 = none

/-! ## Serialisation -/

/-- Variants of an audience. -/
def audienceVariant : LogAudience → Text
  | .internal => "Internal".toList
  | .client => "Client".toList
  | .both => "Both".toList

variable {R : Type}

/-- The value of a field, unless it is skipped. -/
def fieldValue (clock : TimeText) (order : MapOrder) (log : EdenLog R) : Field → Option Json
  | .timestamp => some (.string (clock.write log.timestamp))
  | .level => some (.string (levelStr log.level))
  | .audience => some (.string (audienceVariant log.audience))
  | .message => some (.string log.message)
  | .traceId => log.traceId.map .string
  | .spanId => log.spanId.map .string
  | .feature => log.feature.map .string
  | .function => log.function.map .string
  | .file => log.file.map .string
  | .line => log.line.map fun n => .number (decimal n.toNat)
  | .errorCode => log.errorCode.map .string
  | .errorCategory => log.errorCategory.map .string
  | .additional =>
    if log.additional.entries.isEmpty then none
    else some (.object ((order.visit log.additional).map fun e => (e.1, .string e.2)))

/-- The entry of a field, unless it is skipped. -/
def fieldEntry (clock : TimeText) (order : MapOrder) (log : EdenLog R) (f : Field) :
    Option (Text × Json) :=
  (fieldValue clock order log f).map fun v => (f.key, v)

/-- `Serialize`: the fields as a map, the request block flattened into it. -/
def serialize (clock : TimeText) (flat : FlattenSerde R) (order : MapOrder) (log : EdenLog R) :
    Json :=
  .object (headFields.filterMap (fieldEntry clock order log) ++ flat.serialize log.request ++
    tailFields.filterMap (fieldEntry clock order log))

/-- `to_json`. -/
def EdenLog.toJson (serde : SerdeJson) (clock : TimeText) (flat : FlattenSerde R)
    (order : MapOrder) (log : EdenLog R) : Text :=
  match serde.toString (serialize clock flat order log) with
  | .ok text => text
  | .error e => "\x7b\"error\":\"Failed to serialize log: ".toList ++ e ++ "\"\x7d".toList

/-! ## Deserialisation -/

/-- Sort entries into fields, each of which may come once, and the rest. -/
def visitMembers : List (Text × Json) → (Field → Option Json) → List (Text × Json) →
    Option ((Field → Option Json) × List (Text × Json))
  | [], found, collect => some (found, collect)
  | (key, value) :: rest, found, collect =>
    match fieldOf key with
    | some f =>
      if (found f).isSome then none
      else visitMembers rest (Function.update found f (some value)) collect
    | none => visitMembers rest found (collect ++ [(key, value)])

/-- A field that must be there. -/
def requiredField {α : Type} (read : Json → Option α) : Option Json → Option α
  | none => none
  | some v => read v

/-- A field that may be missing or null. -/
def optionField {α : Type} (read : Json → Option α) : Option Json → Option (Option α)
  | none => some none
  | some .null => some none
  | some v => (read v).map some

/-- A string. -/
def readText : Json → Option Text
  | .string s => some s
  | _ => none

/-- A number of 32 bits. -/
def readU32 : Json → Option UInt32
  | .number ds =>
    if ds ≠ [] ∧ ds.all Char.isDigit = true ∧ Nat.ofDigitChars 10 ds 0 < 4294967296 then
      some (UInt32.ofNat (Nat.ofDigitChars 10 ds 0))
    else none
  | _ => none

/-- A variant without data, by its name. -/
def readVariant {α : Type} (variants : List α) (name : α → Text) : Json → Option α
  | .string s => variants.find? fun v => decide (name v = s)
  | .object [(s, .null)] => variants.find? fun v => decide (name v = s)
  | _ => none

/-- A map of strings. -/
def readFields : Json → Option Fields
  | .object members =>
    (members.mapM fun e => (readText e.2).map fun v => (e.1, v)).map (insertAll ∅)
  | _ => none

/-- `Deserialize`: read the fields, and the request block from what is left. -/
def deserialize (clock : TimeText) (flat : FlattenSerde R) : Json → Option (EdenLog R)
  | .object members => do
    let (found, collect) ← visitMembers members (fun _ => none) []
    let timestamp ← requiredField (fun v => (readText v).bind clock.read) (found .timestamp)
    let level ← requiredField
      (readVariant [.trace, .debug, .info, .warn, .error] levelStr) (found .level)
    let audience ← requiredField
      (readVariant [.internal, .client, .both] audienceVariant) (found .audience)
    let message ← requiredField readText (found .message)
    let traceId ← optionField readText (found .traceId)
    let spanId ← optionField readText (found .spanId)
    let feature ← optionField readText (found .feature)
    let function ← optionField readText (found .function)
    let file ← optionField readText (found .file)
    let line ← optionField readU32 (found .line)
    let errorCode ← optionField readText (found .errorCode)
    let errorCategory ← optionField readText (found .errorCategory)
    let additional ← requiredField readFields (found .additional)
    let request ← flat.deserialize collect
    some { timestamp, level, audience, message, traceId, spanId, feature, function, file, line,
           request, errorCode, errorCategory, additional }
  | _ => none

/-- Read a record from a text. -/
def EdenLog.fromJson (serde : SerdeJson) (clock : TimeText) (flat : FlattenSerde R)
    (text : Text) : Option (EdenLog R) :=
  match serde.fromStr text with
  | .ok v => deserialize clock flat v
  | .error _ => none

/-- The same record: its map of entries may be in another order. -/
def SameRecord (log log' : EdenLog R) : Prop :=
  log' = { log with additional := log'.additional } ∧
    (pairs log'.additional).Perm (pairs log.additional)

/-! ## Reading back what was written -/

/-- A field is found by its key. -/
theorem fieldOf_key (f : Field) : fieldOf f.key = some f := by
  cases f <;> decide +kernel

/-- Fields that were not found yet are found with the values they were written with. -/
theorem visit_fields (values : Field → Option Json) {fs : List Field} (hfs : fs.Nodup)
    (rest : List (Text × Json)) {found : Field → Option Json} (collect : List (Text × Json))
    (hfound : ∀ f ∈ fs, found f = none) :
    visitMembers (fs.filterMap (fun f => (values f).map fun v => (f.key, v)) ++ rest) found
      collect = visitMembers rest (fun f => if f ∈ fs then values f else found f) collect := by
  induction fs generalizing found with
  | nil => simp
  | cons f fs ih =>
    obtain ⟨hnew, hrest⟩ := List.nodup_cons.mp hfs
    have hhead := hfound f List.mem_cons_self
    have htail : ∀ g ∈ fs, found g = none := fun g hg => hfound g (List.mem_cons_of_mem f hg)
    cases hv : values f with
    | none =>
      rw [List.filterMap_cons_none (by rw [hv]; rfl), ih hrest htail]
      congr 1
      funext g
      by_cases hg : g = f
      · subst hg
        simp [hnew, hhead, hv]
      · simp [hg]
    | some v =>
      have hupdate : ∀ g ∈ fs, Function.update found f (some v) g = none := by
        intro g hg
        have hne : g ≠ f := fun h => hnew (h ▸ hg)
        rw [Function.update_of_ne hne]
        exact htail g hg
      rw [List.filterMap_cons_some (b := (f.key, v)) (by rw [hv]; rfl), List.cons_append,
        visitMembers, fieldOf_key]
      dsimp only
      rw [hhead, Option.isSome_none, if_neg Bool.false_ne_true, ih hrest hupdate]
      congr 1
      funext g
      by_cases hg : g = f
      · subst hg
        simp [hnew, hv]
      · simp [hg]

/-- Entries that are no fields are left. -/
theorem visit_others {es : List (Text × Json)} (hes : ∀ e ∈ es, fieldOf e.1 = none)
    (rest : List (Text × Json)) (found : Field → Option Json) (collect : List (Text × Json)) :
    visitMembers (es ++ rest) found collect = visitMembers rest found (collect ++ es) := by
  induction es generalizing collect with
  | nil => simp
  | cons e es ih =>
    obtain ⟨hhead, htail⟩ := List.forall_mem_cons.mp hes
    rw [List.cons_append, visitMembers, hhead]
    dsimp only
    rw [ih htail, List.append_assoc, List.singleton_append]

/-- The entries of a record are sorted as they were written. -/
theorem visit_serialized (clock : TimeText) (flat : FlattenSerde R) (order : MapOrder)
    (log : EdenLog R) :
    visitMembers (headFields.filterMap (fieldEntry clock order log) ++
        flat.serialize log.request ++ tailFields.filterMap (fieldEntry clock order log))
      (fun _ => none) [] = some (fieldValue clock order log, flat.serialize log.request) := by
  have hhead : headFields.Nodup := by decide
  have htail : tailFields.Nodup := by decide
  have hapart : ∀ f ∈ tailFields, (if f ∈ headFields then fieldValue clock order log f
      else none) = none := by
    intro f hf
    have hnot : ∀ f ∈ tailFields, f ∉ headFields := by decide
    exact if_neg (hnot f hf)
  have hall : ∀ f : Field, f ∈ tailFields ∨ f ∈ headFields := by
    intro f
    cases f <;> decide
  have hvisit := visit_fields (fieldValue clock order log) htail []
    (flat.serialize log.request) hapart
  rw [List.append_nil] at hvisit
  unfold fieldEntry
  rw [List.append_assoc, visit_fields _ hhead _ _ fun _ _ => rfl,
    visit_others (flat.disjoint log.request), List.nil_append, hvisit, visitMembers]
  congr 2
  funext f
  rcases hall f with hf | hf
  · rw [if_pos hf]
  · rw [if_pos hf, ite_self]

/-- An optional field reads as it was. -/
theorem optionField_map {α : Type} {read : Json → Option α} (write : α → Json) {v : Option α}
    (hnull : ∀ a, write a ≠ .null) (hread : ∀ a, read (write a) = some a) :
    optionField read (v.map write) = some v := by
  cases v with
  | none => rfl
  | some a =>
    have hsome : optionField read (some (write a)) = (read (write a)).map some := by
      unfold optionField
      split
      · contradiction
      · rename_i heq
        exact absurd (Option.some.inj heq) (hnull a)
      · rename_i heq
        rw [← Option.some.inj heq]
    rw [Option.map_some, hsome, hread]
    rfl

/-- An optional string reads as it was. -/
theorem optionField_text (v : Option Text) : optionField readText (v.map .string) = some v :=
  optionField_map .string (fun _ h => by cases h) fun _ => rfl

/-- An optional number reads as it was. -/
theorem optionField_line (v : Option UInt32) :
    optionField readU32 (v.map fun n => .number (decimal n.toNat)) = some v := by
  refine optionField_map (fun n : UInt32 => Json.number (decimal n.toNat))
    (fun _ h => by cases h) fun n => ?_
  have hvalue : Nat.ofDigitChars 10 (decimal n.toNat) 0 = n.toNat := Nat.ofDigitChars_ten_toDigits
  have hdigits : (decimal n.toNat).all Char.isDigit = true :=
    List.all_eq_true.mpr fun _ => isDigit_decimal
  have hlt : n.toNat < 4294967296 := n.toNat_lt
  rw [readU32, hvalue, if_pos ⟨Nat.toDigits_ne_nil, hdigits, hlt⟩, UInt32.ofNat_toNat]

/-- A level reads as it was. -/
theorem read_level (level : LogLevel) :
    readVariant [.trace, .debug, .info, .warn, .error] levelStr (.string (levelStr level)) =
      some level := by
  cases level <;> decide +kernel

/-- An audience reads as it was. -/
theorem read_audience (audience : LogAudience) :
    readVariant [.internal, .client, .both] audienceVariant (.string (audienceVariant audience)) =
      some audience := by
  cases audience <;> decide +kernel

/-- A map of strings reads as it was, in the order in which it was visited. -/
theorem readFields_visit (es : List (Text × Text)) :
    readFields (.object (es.map fun e => (e.1, .string e.2))) = some (insertAll ∅ es) := by
  have hmap : (es.map fun e => (e.1, Json.string e.2)).mapM
      (fun e => (readText e.2).map fun v => (e.1, v)) = some es := by
    induction es with
    | nil => rfl
    | cons e es ih =>
      rw [List.map_cons, List.mapM_cons, ih]
      rfl
  rw [readFields, hmap]
  rfl

/-- Entries that were visited make the map they came from. -/
theorem pairs_visit (order : MapOrder) (m : Fields) :
    (pairs (insertAll ∅ (order.visit m))).Perm (pairs m) := by
  have hvisit := order.visit_perm m
  have hkeys : ((order.visit m).map Prod.fst).Nodup := by
    refine (hvisit.map Prod.fst).nodup_iff.mpr ?_
    rw [List.map_map]
    exact m.nodupKeys
  have hnew : ∀ e ∈ order.visit m, e.1 ∉ (∅ : Fields) := fun e _ => AList.notMem_empty e.1
  exact (pairs_insertAll hkeys hnew).trans hvisit

/-- A step that succeeds hands on its value. -/
theorem bind_of_eq {α β : Type} {x : Option α} {a : α} {f : α → Option β} (h : x = some a) :
    (x >>= f) = f a := by
  rw [h]
  rfl

/-- A record reads as it was exactly if its map of entries is not empty. -/
theorem deserialize_serialize (clock : TimeText) (flat : FlattenSerde R) (order : MapOrder)
    (log : EdenLog R) (htime : clock.read (clock.write log.timestamp) = some log.timestamp) :
    deserialize clock flat (serialize clock flat order log) =
      if log.additional.entries.isEmpty then none
      else some { log with additional := insertAll ∅ (order.visit log.additional) } := by
  have hvisit := visit_serialized clock flat order log
  have htimestamp : requiredField (fun v => (readText v).bind clock.read)
      (fieldValue clock order log .timestamp) = some log.timestamp := htime
  have hlevel : requiredField (readVariant [.trace, .debug, .info, .warn, .error] levelStr)
      (fieldValue clock order log .level) = some log.level := read_level log.level
  have haudience : requiredField (readVariant [.internal, .client, .both] audienceVariant)
      (fieldValue clock order log .audience) = some log.audience := read_audience log.audience
  have hmessage : requiredField readText (fieldValue clock order log .message) =
      some log.message := rfl
  have hline : optionField readU32 (fieldValue clock order log .line) = some log.line :=
    optionField_line log.line
  have hadditional : requiredField readFields (fieldValue clock order log .additional) =
      if log.additional.entries.isEmpty then none
      else some (insertAll ∅ (order.visit log.additional)) := by
    rw [fieldValue]
    split
    · rfl
    · exact readFields_visit _
  rw [serialize, deserialize]
  refine (bind_of_eq hvisit).trans ?_
  refine (bind_of_eq htimestamp).trans ?_
  refine (bind_of_eq hlevel).trans ?_
  refine (bind_of_eq haudience).trans ?_
  refine (bind_of_eq hmessage).trans ?_
  refine (bind_of_eq (optionField_text log.traceId)).trans ?_
  refine (bind_of_eq (optionField_text log.spanId)).trans ?_
  refine (bind_of_eq (optionField_text log.feature)).trans ?_
  refine (bind_of_eq (optionField_text log.function)).trans ?_
  refine (bind_of_eq (optionField_text log.file)).trans ?_
  refine (bind_of_eq hline).trans ?_
  refine (bind_of_eq (optionField_text log.errorCode)).trans ?_
  refine (bind_of_eq (optionField_text log.errorCategory)).trans ?_
  rw [hadditional]
  split
  · rfl
  · exact bind_of_eq (flat.round_trip log.request)

/-- The round trip through JSON gives the record back exactly if it has further
entries: without them the key of the map is not written, and reading fails. -/
theorem to_json_round_trip (serde : SerdeJson) (clock : TimeText) (flat : FlattenSerde R)
    (order : MapOrder) (log : EdenLog R)
    (htime : clock.read (clock.write log.timestamp) = some log.timestamp)
    (htext : serde.RoundTrips (serialize clock flat order log)) :
    (∃ log', EdenLog.fromJson serde clock flat (EdenLog.toJson serde clock flat order log) =
      some log' ∧ SameRecord log log') ↔ log.additional ≠ ∅ := by
  obtain ⟨text, hwrite, hread⟩ := htext
  have htrip : EdenLog.fromJson serde clock flat (EdenLog.toJson serde clock flat order log) =
      if log.additional.entries.isEmpty then none
      else some { log with additional := insertAll ∅ (order.visit log.additional) } := by
    rw [EdenLog.toJson, hwrite, EdenLog.fromJson, hread]
    exact deserialize_serialize clock flat order log htime
  have hempty : log.additional.entries.isEmpty = true ↔ log.additional = ∅ := by
    rw [List.isEmpty_iff]
    exact ⟨fun h => AList.ext h, fun h => h ▸ rfl⟩
  rw [htrip]
  constructor
  · rintro ⟨log', hlog, -⟩ hnone
    rw [if_pos (hempty.mpr hnone)] at hlog
    cases hlog
  · intro hsome
    refine ⟨_, if_neg fun h => hsome (hempty.mp h), rfl, ?_⟩
    exact pairs_visit order log.additional

/-! ## A writer and a reader -/

/-- A string in quotes. -/
def quote (s : Text) : Text :=
  '"' :: (s.flatMap fun c =>
    if c = '"' then ['\\', '"'] else if c = '\\' then ['\\', '\\']
    else if c.toNat < 32 then
      ['\\', 'u', '0', '0', (c.toNat / 16).digitChar, (c.toNat % 16).digitChar]
    else [c]) ++ ['"']

mutual

/-- A value without white space. -/
def compact : Json → Text
  | .null => "null".toList
  | .bool b => if b then "true".toList else "false".toList
  | .number ds => ds
  | .string s => quote s
  | .array es => '[' :: compactElements es ++ [']']
  | .object ms => '{' :: compactMembers ms ++ ['}']
termination_by structural v => v

/-- Elements between commas. -/
def compactElements : List Json → Text
  | [] => []
  | e :: es => compact e ++ (if es.isEmpty then [] else [',']) ++ compactElements es
termination_by structural es => es

/-- Members between commas. -/
def compactMembers : List (Text × Json) → Text
  | [] => []
  | m :: ms => compactMember m ++ (if ms.isEmpty then [] else [',']) ++ compactMembers ms
termination_by structural ms => ms

/-- A member. -/
def compactMember : Text × Json → Text
  | (k, v) => quote k ++ ':' :: compact v
termination_by structural m => m

end

mutual

/-- Whether two values are the same. -/
def sameJson : Json → Json → Bool
  | .null, .null => true
  | .bool a, .bool b => a == b
  | .number a, .number b => a == b
  | .string a, .string b => a == b
  | .array es, .array es' => sameElements es es'
  | .object ms, .object ms' => sameMembers ms ms'
  | _, _ => false
termination_by structural v => v

/-- Whether two lists of values are the same. -/
def sameElements : List Json → List Json → Bool
  | [], [] => true
  | e :: es, e' :: es' => sameJson e e' && sameElements es es'
  | _, _ => false
termination_by structural es => es

/-- Whether two lists of members are the same. -/
def sameMembers : List (Text × Json) → List (Text × Json) → Bool
  | [], [] => true
  | m :: ms, m' :: ms' => sameMember m m' && sameMembers ms ms'
  | _, _ => false
termination_by structural ms => ms

/-- Whether two members are the same. -/
def sameMember : Text × Json → Text × Json → Bool
  | (k, v), (k', v') => k == k' && sameJson v v'
termination_by structural m => m

end

/-- Values that are the same are equal. -/
theorem eq_of_sameJson : ∀ v w : Json, sameJson v w = true → v = w := by
  refine @Json.rec (fun v => ∀ w, sameJson v w = true → v = w)
    (fun es => ∀ es', sameElements es es' = true → es = es')
    (fun ms => ∀ ms', sameMembers ms ms' = true → ms = ms')
    (fun m => ∀ m', sameMember m m' = true → m = m')
    ?null ?bool ?number ?string ?array ?object ?noElement ?element ?noMember ?member ?pair
  case null =>
    intro w h
    cases w <;> first | rfl | cases h
  case bool =>
    intro b w h
    cases w <;> first | exact congrArg Json.bool (eq_of_beq h) | cases h
  case number =>
    intro ds w h
    cases w <;> first | exact congrArg Json.number (eq_of_beq h) | cases h
  case string =>
    intro s w h
    cases w <;> first | exact congrArg Json.string (eq_of_beq h) | cases h
  case array =>
    intro es ih w h
    cases w <;> first | exact congrArg Json.array (ih _ h) | cases h
  case object =>
    intro ms ih w h
    cases w <;> first | exact congrArg Json.object (ih _ h) | cases h
  case noElement =>
    intro es' h
    cases es' <;> first | rfl | cases h
  case element =>
    intro e es ihe ihes es' h
    cases es' with
    | nil => cases h
    | cons e' es' =>
      obtain ⟨hhead, htail⟩ := (Bool.and_eq_true _ _).mp h
      rw [ihe e' hhead, ihes es' htail]
  case noMember =>
    intro ms' h
    cases ms' <;> first | rfl | cases h
  case member =>
    intro m ms ihm ihms ms' h
    cases ms' with
    | nil => cases h
    | cons m' ms' =>
      obtain ⟨hhead, htail⟩ := (Bool.and_eq_true _ _).mp h
      rw [ihm m' hhead, ihms ms' htail]
  case pair =>
    intro k v ih m' h
    obtain ⟨hkey, hvalue⟩ := (Bool.and_eq_true _ _).mp h
    exact Prod.ext (eq_of_beq hkey) (ih m'.2 hvalue)

/-- Write without white space, and read. -/
def compactSerde : SerdeJson where
  toString := fun v => .ok (compact v)
  fromStr := fun text =>
    match parse text with
    | some v => .ok v
    | none => .error "expected value".toList

/-- A value that is read back from its text. -/
theorem compact_round_trips {v : Json} (h : (parse (compact v)).any (sameJson v) = true) :
    compactSerde.RoundTrips v := by
  obtain ⟨w, hw, hsame⟩ := (Option.any_eq_true _ _).mp h
  refine ⟨compact v, rfl, ?_⟩
  dsimp only [compactSerde]
  rw [hw, ← eq_of_sameJson v w hsame]

/-- The text of the first instant. -/
def epochText : TimeText where
  write := fun _ => "1970-01-01T00:00:00Z".toList
  read := fun text => if text = "1970-01-01T00:00:00Z".toList then some 0 else none

/-- A request block with one field. -/
def tenantSerde : FlattenSerde Text where
  serialize := fun tenant => [("tenant".toList, .string tenant)]
  deserialize := fun es => (es.find? fun e => decide (e.1 = "tenant".toList)).bind fun e =>
    readText e.2
  round_trip := fun _ => rfl
  disjoint := fun _ e he => by
    have hkey : fieldOf "tenant".toList = none := by decide +kernel
    rw [List.mem_singleton.mp he]
    exact hkey

/-- A record of a tenant. -/
def tenantRecord (additional : Fields) : EdenLog Text where
  timestamp := 0
  level := .error
  audience := .client
  message := "Error \"occurred\"".toList
  traceId := some "trace123".toList
  spanId := none
  feature := some "test".toList
  function := none
  file := none
  line := some 42
  request := "eden".toList
  errorCode := none
  errorCategory := some "io".toList
  additional := additional

/-- With an entry, the record comes back. -/
theorem to_json_round_trip_detail :
    (∃ log', EdenLog.fromJson compactSerde epochText tenantSerde
      (EdenLog.toJson compactSerde epochText tenantSerde .entries
        (tenantRecord (AList.insert ['k'] ['v'] ∅))) = some log' ∧
      SameRecord (tenantRecord (AList.insert ['k'] ['v'] ∅)) log') ↔
    (tenantRecord (AList.insert ['k'] ['v'] ∅)).additional ≠ ∅ :=
  to_json_round_trip compactSerde epochText tenantSerde .entries
    (tenantRecord (AList.insert ['k'] ['v'] ∅)) rfl (compact_round_trips (by decide +kernel))

/-- Without one, it does not. -/
theorem to_json_loses_record :
    ¬ ∃ log', EdenLog.fromJson compactSerde epochText tenantSerde
      (EdenLog.toJson compactSerde epochText tenantSerde .entries (tenantRecord ∅)) = some log' ∧
      SameRecord (tenantRecord ∅) log' := by
  have hnone : (EdenLog.fromJson compactSerde epochText tenantSerde
      (EdenLog.toJson compactSerde epochText tenantSerde .entries (tenantRecord ∅))).isNone =
      true := by decide +kernel
  rintro ⟨log', hlog, -⟩
  rw [hlog] at hnone
  cases hnone

end EdenLogger.LogSerde
