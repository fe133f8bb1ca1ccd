import EdenLogger.OtlpMapper

/-!
# Precedence of attributes

The mapper overwrites attributes by key. Each of its sources is a list of entries
that may have no value; the last entry with a value is the one a source defines,
and the map that is listed in the end holds what the highest source defines.
-/

namespace EdenLogger.AttributePrecedence

open ExporterConfig JsonText LogRecord OtlpMapper

/-! ## Overwriting by key -/

section Overwriting

variable {K A : Type} [DecidableEq K]

/-- Entries in the order in which they are stored; those without a value are skipped. -/
abbrev Source (K A : Type) := List (K × Option A)

/-- The last entry with the key that has a value is this one. -/
def Source.Last (source : Source K A) (k : K) (v : A) : Prop :=
  ∃ before after, source = before ++ (k, some v) :: after ∧ ∀ e ∈ after, e.1 = k → e.2 = none

/-- The source has a value for the key. -/
def Source.Defines (source : Source K A) (k : K) : Prop := ∃ v, (k, some v) ∈ source

/-- The value of the key is that of the first source that defines it. -/
def Wins (sources : List (Source K A)) (k : K) (v : A) : Prop :=
  ∃ higher source lower, sources = higher ++ source :: lower ∧
    (∀ s ∈ higher, ¬ s.Defines k) ∧ source.Last k v

/-- What an entry says of a key. -/
def valueFor (k : K) (e : K × Option A) : Option A := if e.1 = k then e.2 else none

/-- The value of the last entry that has one. -/
def Source.last (source : Source K A) (k : K) : Option A := source.reverse.findSome? (valueFor k)

/-- Store an entry that has a value. -/
def storeEntry (m : AList fun _ : K => A) (e : K × Option A) : AList fun _ : K => A :=
  match e.2 with
  | some v => m.insert e.1 v
  | none => m

/-- Store sources, the last one first. -/
def storeSources (sources : List (Source K A)) : AList fun _ : K => A :=
  sources.foldr (fun source m => List.foldl storeEntry m source) ∅

/-- An entry says nothing of a key. -/
theorem valueFor_eq_none {k : K} {e : K × Option A} :
    valueFor k e = none ↔ (e.1 = k → e.2 = none) := by
  unfold valueFor
  split
  · rename_i hk
    exact ⟨fun h _ => h, fun h => h hk⟩
  · rename_i hk
    exact ⟨fun _ h => absurd h hk, fun _ => rfl⟩

/-- An entry gives a value. -/
theorem valueFor_eq_some {k : K} {e : K × Option A} {v : A} :
    valueFor k e = some v ↔ e = (k, some v) := by
  unfold valueFor
  split
  · rename_i hk
    exact ⟨fun h => Prod.ext hk h, fun h => congrArg Prod.snd h⟩
  · rename_i hk
    refine ⟨fun h => ?_, fun h => ?_⟩
    · cases h
    · exact absurd (congrArg Prod.fst h) hk

/-- A value is found exactly if it is the last. -/
theorem last_eq_some {source : Source K A} {k : K} {v : A} :
    source.last k = some v ↔ source.Last k v := by
  unfold Source.last Source.Last
  rw [List.findSome?_eq_some_iff]
  constructor
  · rintro ⟨after, e, before, hsource, he, hafter⟩
    refine ⟨before.reverse, after.reverse, ?_, fun e' he' => ?_⟩
    · rw [← valueFor_eq_some.mp he, ← List.reverse_reverse source, hsource]
      simp
    · exact valueFor_eq_none.mp (hafter e' (List.mem_reverse.mp he'))
  · rintro ⟨before, after, rfl, hafter⟩
    refine ⟨after.reverse, (k, some v), before.reverse, by simp, valueFor_eq_some.mpr rfl, ?_⟩
    exact fun e he => valueFor_eq_none.mpr (hafter e (List.mem_reverse.mp he))

/-- No value is found exactly if the source does not define the key. -/
theorem last_eq_none {source : Source K A} {k : K} :
    source.last k = none ↔ ¬ source.Defines k := by
  unfold Source.last Source.Defines
  rw [List.findSome?_eq_none_iff, not_exists]
  constructor
  · intro h v hmem
    have hnone := valueFor_eq_none.mp (h _ (List.mem_reverse.mpr hmem)) rfl
    cases hnone
  · intro h e he
    refine valueFor_eq_none.mpr fun hk => ?_
    cases hv : e.2 with
    | none => rfl
    | some v =>
      refine (h v ?_).elim
      rw [← hk, ← hv]
      exact List.mem_reverse.mp he

/-- Storing entries leaves the last value, or what was there. -/
theorem lookup_foldl_storeEntry (source : Source K A) (m : AList fun _ : K => A) (k : K) :
    (source.foldl storeEntry m).lookup k = (source.last k).or (m.lookup k) := by
  induction source generalizing m with
  | nil => rfl
  | cons e source ih =>
    have hstored : (storeEntry m e).lookup k = (valueFor k e).or (m.lookup k) := by
      obtain ⟨key, value⟩ := e
      cases value with
      | none =>
        rw [valueFor_eq_none.mpr fun _ => rfl]
        rfl
      | some v =>
        unfold storeEntry
        dsimp only
        by_cases hk : key = k
        · subst hk
          rw [AList.lookup_insert, valueFor_eq_some.mpr rfl]
          rfl
        · rw [AList.lookup_insert_ne (Ne.symm hk), valueFor_eq_none.mpr fun h => absurd h hk]
          rfl
    rw [List.foldl_cons, ih, hstored]
    unfold Source.last
    rw [List.reverse_cons, List.findSome?_append, List.findSome?_singleton, Option.or_assoc]

/-- Storing sources leaves for each key the value of the first that has one. -/
theorem lookup_storeSources (sources : List (Source K A)) (k : K) :
    (storeSources sources).lookup k = sources.findSome? fun source => source.last k := by
  unfold storeSources
  induction sources with
  | nil => exact AList.lookup_empty k
  | cons source sources ih =>
    rw [List.foldr_cons, lookup_foldl_storeEntry, ih, List.findSome?_cons]
    cases source.last k <;> rfl

/-- That value is the one that wins. -/
theorem lookup_storeSources_iff {sources : List (Source K A)} {k : K} {v : A} :
    (storeSources sources).lookup k = some v ↔ Wins sources k v := by
  rw [lookup_storeSources, List.findSome?_eq_some_iff]
  unfold Wins
  simp only [last_eq_some, last_eq_none, and_comm]

/-- A key has a value exactly if a source defines it. -/
theorem lookup_storeSources_isSome {sources : List (Source K A)} {k : K} :
    ((storeSources sources).lookup k).isSome ↔ ∃ source ∈ sources, source.Defines k := by
  rw [lookup_storeSources, List.findSome?_isSome_iff]
  refine exists_congr fun source => and_congr_right fun _ => ?_
  rw [← Option.ne_none_iff_isSome, Ne, last_eq_none, not_not]

/-- A source that has each key once does not depend on its order. -/
theorem last_perm {source other : Source K A} (h : source.Perm other)
    (hkeys : (source.map Prod.fst).Nodup) (k : K) : source.last k = other.last k := by
  have hmem : ∀ {s : Source K A}, (s.map Prod.fst).Nodup → ∀ v, s.last k = some v ↔
      (k, some v) ∈ s := by
    intro s hs v
    rw [last_eq_some]
    constructor
    · rintro ⟨before, after, rfl, -⟩
      exact List.mem_append_right _ List.mem_cons_self
    · intro hv
      obtain ⟨before, after, rfl⟩ := List.append_of_mem hv
      refine ⟨before, after, rfl, fun e he hk => ?_⟩
      rw [List.map_append, List.map_cons] at hs
      have hfresh := (List.nodup_cons.mp (List.nodup_append.mp hs).2.1).1
      have hkey : e.1 ∈ after.map Prod.fst := List.mem_map_of_mem he
      rw [hk] at hkey
      exact absurd hkey hfresh
  refine Option.ext fun v => ?_
  rw [hmem hkeys v, hmem ((h.map Prod.fst).nodup_iff.mp hkeys) v, h.mem_iff]

/-- The order of such a source does not matter among others. -/
theorem storeSources_perm {source other : Source K A} (h : source.Perm other)
    (hkeys : (source.map Prod.fst).Nodup) (higher : List (Source K A)) (k : K) :
    (storeSources (higher ++ [source])).lookup k = (storeSources (higher ++ [other])).lookup k := by
  rw [lookup_storeSources, lookup_storeSources, List.findSome?_append, List.findSome?_append,
    List.findSome?_singleton, List.findSome?_singleton, last_perm h hkeys]

end Overwriting

/-! ## The sources of the mapper -/

variable {V R : Type} [RequestFields R]

/-- The value that a call writes. -/
def callValue : FieldCall → AnyValue V
  | .str _ value => stringValue value
  | .u64 _ value =>
    if (value.toNat : ℤ) ≤ Int64.maxValue.toInt then intValue (Int64.ofNat value.toNat)
    else stringValue (decimal value.toNat)
  | .i64 _ value => intValue value
  | .bool _ value => boolValue value
  | .display _ value => stringValue value.text

/-- The record's own attributes. An id is one of them if it has no bytes. -/
def intrinsicSource (log : EdenLog R) : Source Text (AnyValue V) :=
  let traceId := decodeHexId 16 log.traceId
  let spanId := if traceId.isSome then decodeHexId 8 log.spanId else none
  [("eden.audience".toList, some (stringValue (audienceStr log.audience))),
    ("eden.feature".toList, log.feature.map stringValue),
    ("code.function.name".toList, log.function.map stringValue),
    ("code.file.path".toList, log.file.map stringValue),
    ("code.line.number".toList, log.line.map fun line => intValue (Int64.ofNat line.toNat)),
    ("error.code".toList, log.errorCode.map stringValue),
    ("error.type".toList, log.errorCategory.map stringValue),
    ("eden.trace_id".toList, if traceId.isNone then log.traceId.map stringValue else none),
    ("eden.span_id".toList, if spanId.isNone then log.spanId.map stringValue else none)]

/-- The attributes that are supplied. -/
def suppliedSource (extra : List (KeyValue V)) : Source Text (AnyValue V) :=
  extra.map fun e => (e.key, e.value)

/-- What the request writes. -/
def requestSource (request : R) : Source Text (AnyValue V) :=
  (RequestFields.writeJson request).map fun c => (callKey c, some (callValue c))

/-- The further entries. -/
def additionalSource (additional : Fields) : Source Text (AnyValue V) :=
  additional.entries.map fun e => (e.1, some (stringValue e.2))

/-- The sources of a record's attributes, highest first. -/
def sources (log : EdenLog R) (extra : List (KeyValue V)) : List (Source Text (AnyValue V)) :=
  [intrinsicSource log, suppliedSource extra, requestSource log.request,
    additionalSource log.additional]

/-! ## The mapper stores its sources -/

/-- A number that fits is taken as it is. -/
theorem ofNat_toNat (n : UInt64) : Int64.ofNat n.toNat = n.toInt64 := by
  rw [← UInt64.toInt64_ofNat', UInt64.ofNat_toNat]

/-- A call of the request stores its entry. -/
theorem attributeWriter_eq (a : Attributes V) (call : FieldCall) :
    attributeWriter a call = storeEntry a (callKey call, some (callValue call)) := by
  cases call with
  | u64 key value =>
    unfold attributeWriter callValue storeEntry callKey
    have hmax : Int64.maxValue.toInt = 9223372036854775807 := by decide
    dsimp only
    rw [hmax, ofNat_toNat]
    by_cases hlt : value.toNat < 9223372036854775808
    · rw [if_pos hlt, if_pos (by omega)]
    · rw [if_neg hlt, if_neg (by omega)]
  | _ => rfl

/-- A supplied attribute is stored if it has a value. -/
theorem extraAttribute_eq (a : Attributes V) (e : KeyValue V) :
    extraAttribute a e = storeEntry a (e.key, e.value) := by
  cases e with
  | mk key value => cases value <;> rfl

/-- An optional string is stored if it is there. -/
theorem insertOptionalString_eq (a : Attributes V) (key : Text) (value : Option Text) :
    insertOptionalString a key value = storeEntry a (key, value.map stringValue) := by
  cases value <;> rfl

/-- The line is stored if it is there. -/
theorem insertLine_eq (a : Attributes V) (key : Text) (line : Option UInt32) :
    (match line with
      | some line => a.insert key (intValue line.toUInt64.toInt64)
      | none => a) =
      storeEntry a (key, line.map fun line => intValue (Int64.ofNat line.toNat)) := by
  cases line with
  | none => rfl
  | some line =>
    rw [Option.map_some, ← UInt32.toNat_toUInt64, ofNat_toNat]
    rfl

/-- An id is stored if it has no bytes. -/
theorem insertId_eq (a : Attributes V) (key : Text) (unread : Bool) (value : Option Text) :
    (if unread then insertOptionalString a key value else a) =
      storeEntry a (key, if unread then value.map stringValue else none) := by
  cases unread with
  | false => rfl
  | true => exact insertOptionalString_eq a key value

/-- The further entries in the order in which they are visited. -/
def visitedSource (order : MapOrder) (additional : Fields) : Source Text (AnyValue V) :=
  (order.visit additional).map fun e => (e.1, some (stringValue e.2))

/-- The attributes are the sources stored one after the other, the lowest first. -/
theorem attributes_eq (order : MapOrder) (log : EdenLog R) (observed : UInt64)
    (extra : List (KeyValue V)) :
    (mapWithAttributes order log observed extra).attributes =
      listAttributes (storeSources
        ([intrinsicSource log, suppliedSource extra, requestSource log.request] ++
          [visitedSource order log.additional])) := by
  unfold intrinsicSource suppliedSource requestSource visitedSource mapWithAttributes
    fieldAttributes storeSources
  simp only [List.cons_append, List.nil_append, List.foldr_cons, List.foldr_nil, List.foldl_map,
    List.foldl_cons, List.foldl_nil, ← attributeWriter_eq, ← extraAttribute_eq, ← insertId_eq,
    ← insertOptionalString_eq, ← insertLine_eq]
  rfl

/-- The order of the visit does not matter. -/
theorem lookup_visited (order : MapOrder) (log : EdenLog R) (extra : List (KeyValue V))
    (k : Text) :
    (storeSources ([intrinsicSource log, suppliedSource extra, requestSource log.request] ++
      [visitedSource order log.additional])).lookup k =
      (storeSources (sources log extra)).lookup k := by
  have hperm : (visitedSource (V := V) order log.additional).Perm
      (additionalSource log.additional) := by
    refine ((order.visit_perm log.additional).map _).trans ?_
    rw [List.map_map]
    rfl
  have hkeys : ((additionalSource (V := V) log.additional).map Prod.fst).Nodup := by
    unfold additionalSource
    rw [List.map_map]
    exact log.additional.nodupKeys
  exact storeSources_perm hperm ((hperm.map Prod.fst).nodup_iff.mpr hkeys) _ k

/-- What is listed is what is mapped. -/
theorem mem_listAttributes (a : Attributes V) (k : Text) (v : Option (AnyValue V)) :
    (⟨k, v⟩ : KeyValue V) ∈ listAttributes a ↔ ∃ w, v = some w ∧ a.lookup k = some w := by
  unfold listAttributes
  rw [List.mem_map]
  constructor
  · rintro ⟨e, he, heq⟩
    obtain ⟨rfl, rfl⟩ := KeyValue.mk.inj heq
    exact ⟨e.2, rfl, AList.mem_lookup_iff.mpr (List.mem_mergeSort.mp he)⟩
  · rintro ⟨w, rfl, hw⟩
    exact ⟨⟨k, w⟩, List.mem_mergeSort.mpr (AList.mem_lookup_iff.mp hw), rfl⟩

/-- The keys are listed in order, each once. -/
theorem listAttributes_sorted (a : Attributes V) :
    ((listAttributes a).map KeyValue.key).Pairwise (· < ·) := by
  unfold listAttributes
  rw [List.map_map, List.pairwise_map]
  have hle := @List.pairwise_mergeSort _
    (fun a b : Σ _ : Text, AnyValue V => decide (a.1 ≤ b.1))
    (fun a b c hab hbc => decide_eq_true (le_trans (of_decide_eq_true hab) (of_decide_eq_true hbc)))
    (fun a b => by simpa using le_total a.1 b.1) a.entries
  have hne : (a.entries.mergeSort fun a b => decide (a.1 ≤ b.1)).Pairwise
      fun a b : Σ _ : Text, AnyValue V => a.1 ≠ b.1 := by
    have hkeys := a.nodupKeys
    rw [← List.perm_nodupKeys (List.mergeSort_perm a.entries _)] at hkeys
    exact List.nodupKeys_iff_pairwise.mp hkeys
  exact (hle.and hne).imp fun h => lt_of_le_of_ne (of_decide_eq_true h.1) h.2

/-- Precedence of attributes. The keys are listed in order, each once. A key is
listed if a source defines it, with the value of the highest source that does, and
the numbers of the request that fit are kept as numbers. -/
theorem attribute_precedence (order : MapOrder) (log : EdenLog R) (observed : UInt64)
    (extra : List (KeyValue V)) :
    let attributes := (mapWithAttributes order log observed extra).attributes
    (attributes.map KeyValue.key).Pairwise (· < ·) ∧
    (∀ k, k ∈ attributes.map KeyValue.key ↔
      ∃ source ∈ sources log extra, source.Defines k) ∧
    (∀ k v, (⟨k, v⟩ : KeyValue V) ∈ attributes ↔
      ∃ w, v = some w ∧ Wins (sources log extra) k w) ∧
    (∀ key value, ((value.toNat : ℤ) ≤ Int64.maxValue.toInt →
        ∃ n : Int64, callValue (V := V) (.u64 key value) = intValue n ∧ n.toInt = value.toNat) ∧
      (Int64.maxValue.toInt < value.toNat →
        callValue (V := V) (.u64 key value) = stringValue (decimal value.toNat))) := by
  intro attributes
  have hattributes : attributes = listAttributes _ := attributes_eq order log observed extra
  have hlookup := lookup_visited order log extra
  have hmem : ∀ k v, (⟨k, v⟩ : KeyValue V) ∈ attributes ↔
      ∃ w, v = some w ∧ (storeSources (sources log extra)).lookup k = some w := by
    intro k v
    rw [hattributes, mem_listAttributes, hlookup k]
  refine ⟨?_, fun k => ?_, fun k v => ?_, fun key value => ⟨fun hle => ?_, fun hlt => ?_⟩⟩
  · rw [hattributes]
    exact listAttributes_sorted _
  · rw [← lookup_storeSources_isSome, Option.isSome_iff_exists, List.mem_map]
    constructor
    · rintro ⟨e, he, rfl⟩
      obtain ⟨w, -, hw⟩ := (hmem e.key e.value).mp he
      exact ⟨w, hw⟩
    · rintro ⟨w, hw⟩
      exact ⟨⟨k, some w⟩, (hmem k (some w)).mpr ⟨w, rfl, hw⟩, rfl⟩
  · rw [hmem k v]
    exact exists_congr fun w => and_congr_right fun _ => lookup_storeSources_iff
  · have hmax : Int64.maxValue.toInt = 2 ^ 63 - 1 := by decide
    refine ⟨Int64.ofNat value.toNat, if_pos hle, Int64.toInt_ofNat_of_lt ?_⟩
    omega
  · exact if_neg (by omega)

end EdenLogger.AttributePrecedence
