import EdenLogger.LogRecord
import EdenLogger.RightBias
import Mathlib.Data.Finmap

/-!
# Merging contexts

A merge overrides each field and each further entry that the second context
sets, and leaves the request block to the application. Up to the order of the
further entries, contexts then form a monoid, and a chain of merges keeps for
each field and each key what was set last.
-/

namespace EdenLogger.ContextMerge

open LogRecord RightBias

/-- The fields of a context that a merge overrides. -/
inductive Field where
  | traceId
  | spanId
  | feature
  | function
  | errorCode
  | errorCategory

variable {R : Type}

/-- What a context holds in a field. -/
def field (f : Field) (c : LogContext R) : Option Text :=
  match f with
  | .traceId => c.traceId
  | .spanId => c.spanId
  | .feature => c.feature
  | .function => c.function
  | .errorCode => c.errorCode
  | .errorCategory => c.errorCategory

/-- What a context holds under a key. -/
def entry (key : Text) (c : LogContext R) : Option Text :=
  c.additional.bind fun m => m.lookup key

/-- Two contexts hold the same, whatever the order of their further entries. -/
structure Agree (a b : LogContext R) : Prop where
  fields : ∀ f, field f a = field f b
  request : a.request = b.request
  additional : a.additional.map AList.toFinmap = b.additional.map AList.toFinmap

/-- Contexts with the same entries, and both with or without a map, agree there. -/
theorem additional_ext {a b : LogContext R} (hsome : a.additional.isSome = b.additional.isSome)
    (hentry : ∀ key, entry key a = entry key b) :
    a.additional.map AList.toFinmap = b.additional.map AList.toFinmap := by
  unfold entry at hentry
  cases ha : a.additional with
  | none =>
    cases hb : b.additional with
    | none => rfl
    | some m =>
      rw [ha, hb] at hsome
      cases hsome
  | some m =>
    cases hb : b.additional with
    | none =>
      rw [ha, hb] at hsome
      cases hsome
    | some m' =>
      rw [ha, hb] at hentry
      refine congrArg some (Finmap.ext_lookup fun key => ?_)
      rw [Finmap.lookup_toFinmap, Finmap.lookup_toFinmap]
      exact hentry key

/-- Entries inserted one by one override what was there. -/
theorem lookup_foldl_insert {entries : List (Σ _ : Text, Text)} (h : entries.NodupKeys)
    (m : Fields) (key : Text) :
    (entries.foldl (fun m e => m.insert e.1 e.2) m).lookup key =
      (entries.dlookup key).or (m.lookup key) := by
  induction entries generalizing m with
  | nil => rfl
  | cons e entries ih =>
    obtain ⟨hnew, htail⟩ := List.nodupKeys_cons.mp h
    rw [List.foldl_cons, ih htail]
    by_cases hk : key = e.1
    · subst hk
      rw [List.dlookup_eq_none.mpr hnew, List.dlookup_cons_eq, AList.lookup_insert]
      rfl
    · rw [List.dlookup_cons_ne _ _ hk, AList.lookup_insert_ne hk]

/-- The entries of the map that extends override. -/
theorem lookup_extend (m other : Fields) (key : Text) :
    (Fields.extend m other).lookup key = (other.lookup key).or (m.lookup key) :=
  lookup_foldl_insert other.nodupKeys m key

variable [RequestFields R]

/-- The laws of a request block's own merge. -/
structure RequestMonoid (R : Type) [RequestFields R] : Prop where
  assoc : ∀ a b c : R, RequestFields.merge (RequestFields.merge a b) c =
    RequestFields.merge a (RequestFields.merge b c)
  default_left : ∀ a : R, RequestFields.merge RequestFields.default a = a
  default_right : ∀ a : R, RequestFields.merge a RequestFields.default = a

/-- A field that the second context sets overrides. -/
theorem field_merge (f : Field) (a b : LogContext R) :
    field f (a.merge b) = (field f b).or (field f a) := by
  cases f <;> rfl

/-- An entry that the second context sets overrides. -/
theorem entry_merge (key : Text) (a b : LogContext R) :
    entry key (a.merge b) = (entry key b).or (entry key a) := by
  unfold entry LogContext.merge
  cases hb : b.additional with
  | none => rfl
  | some m =>
    have hextend := lookup_extend (a.additional.getD ∅) m key
    cases ha : a.additional with
    | none =>
      rw [ha, Option.getD_none, AList.lookup_empty] at hextend
      exact hextend
    | some m' =>
      rw [ha, Option.getD_some] at hextend
      exact hextend

/-- A merge has a map of further entries if one of the contexts has. -/
theorem isSome_merge (a b : LogContext R) :
    (a.merge b).additional.isSome = (b.additional.isSome || a.additional.isSome) := by
  unfold LogContext.merge
  cases hb : b.additional with
  | none => simp
  | some m => simp

/-- An empty context sets no field. -/
theorem field_new (f : Field) : field f (LogContext.new : LogContext R) = none := by
  cases f <;> rfl

/-- Nor an entry. -/
theorem entry_new (key : Text) : entry key (LogContext.new : LogContext R) = none := rfl

/-- Merges may be bracketed either way. -/
theorem merge_assoc (laws : RequestMonoid R) (a b c : LogContext R) :
    Agree ((a.merge b).merge c) (a.merge (b.merge c)) where
  fields f := by
    simp only [field_merge, Option.or_assoc]
  request := laws.assoc _ _ _
  additional := by
    refine additional_ext ?_ fun key => ?_
    · simp only [isSome_merge, Bool.or_assoc]
    · simp only [entry_merge, Option.or_assoc]

/-- Merging into an empty context gives the other one. -/
theorem merge_new_left (laws : RequestMonoid R) (c : LogContext R) :
    Agree (LogContext.new.merge c) c where
  fields f := by
    rw [field_merge, field_new, Option.or_none]
  request := laws.default_left _
  additional := by
    refine additional_ext ?_ fun key => ?_
    · rw [isSome_merge]
      exact Bool.or_false _
    · rw [entry_merge, entry_new, Option.or_none]

/-- Merging an empty context changes nothing. -/
theorem merge_new_right (laws : RequestMonoid R) (c : LogContext R) :
    Agree (c.merge LogContext.new) c where
  fields f := by
    rw [field_merge, field_new, Option.none_or]
  request := laws.default_right _
  additional := rfl

/-- Contexts form a right-biased monoid. However a chain of merges is
bracketed, each field and each key has the value of the last context that sets
it, and the request block is the merge of all request blocks. -/
theorem context_merge_right_biased (laws : RequestMonoid R) :
    (∀ a b c : LogContext R, Agree ((a.merge b).merge c) (a.merge (b.merge c))) ∧
    (∀ c : LogContext R, Agree (LogContext.new.merge c) c ∧ Agree (c.merge LogContext.new) c) ∧
    ∀ chain : Bracketing (LogContext R),
      (∀ f v, field f (chain.value LogContext.merge) = some v ↔
        LastSets (field f) chain.items v) ∧
      (∀ key v, entry key (chain.value LogContext.merge) = some v ↔
        LastSets (entry key) chain.items v) ∧
      (chain.value LogContext.merge).request =
        (chain.items.map LogContext.request).foldr RequestFields.merge RequestFields.default := by
  refine ⟨merge_assoc laws, fun c => ⟨merge_new_left laws c, merge_new_right laws c⟩, ?_⟩
  refine fun chain => ⟨fun f v => ?_, fun key v => ?_, ?_⟩
  · rw [chain.value_lastSet (field_merge f), lastSet_eq_some]
  · rw [chain.value_lastSet (entry_merge key), lastSet_eq_some]
  · exact chain.value_foldr (fun _ _ => rfl) laws.assoc laws.default_left laws.default_right

/-- The request block of the crate's own example. -/
structure AppRequest where
  tenantId : Option Text
  userId : Option Text

/-- Its fields are written if they are set, and override if they are set. -/
instance : RequestFields AppRequest where
  default := ⟨none, none⟩
  writeDisplay r :=
    (r.tenantId.map (FieldCall.str "tenant".toList)).toList ++
      (r.userId.map (FieldCall.str "user".toList)).toList
  writeJson r :=
    (r.tenantId.map (FieldCall.str "tenant_id".toList)).toList ++
      (r.userId.map (FieldCall.str "user_id".toList)).toList
  merge a b := ⟨b.tenantId.or a.tenantId, b.userId.or a.userId⟩

/-- Its merge has the laws. -/
theorem appRequest_monoid : RequestMonoid AppRequest where
  assoc _ _ _ := congrArg₂ AppRequest.mk Option.or_assoc.symm Option.or_assoc.symm
  default_left _ := congrArg₂ AppRequest.mk Option.or_none Option.or_none
  default_right _ := congrArg₂ AppRequest.mk Option.none_or Option.none_or

/-- Three contexts. The second is the last that sets a feature, and the first
and the third each set a part of the request block. -/
def appChain : Bracketing (LogContext AppRequest) :=
  .join
    (.join
      (.single ((LogContext.new.withFeature "api".toList).withRequest ⟨some ['t'], none⟩))
      (.single (LogContext.new.withFeature "auth".toList)))
    (.single (LogContext.new.withRequest ⟨none, some ['u']⟩))

/-- Their merge has the feature of the second and both parts of the request. -/
theorem context_merge_right_biased_app :
    field .feature (appChain.value LogContext.merge) = some "auth".toList ∧
      (appChain.value LogContext.merge).request = ⟨some ['t'], some ['u']⟩ := by
  obtain ⟨hfield, -, hrequest⟩ := (context_merge_right_biased appRequest_monoid).2.2 appChain
  refine ⟨(hfield .feature _).mpr ?_, hrequest⟩
  exact ⟨[_], _, [_], rfl, rfl, List.forall_mem_singleton.mpr rfl⟩

end EdenLogger.ContextMerge
