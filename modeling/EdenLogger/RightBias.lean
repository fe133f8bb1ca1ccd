import Mathlib.Data.List.Basic

/-!
# Values that are set last

Optional values are overlaid from left to right: the last one that is set is
kept. Values may be combined in any bracketing, so a combined value is
described by the list of what it was made from, in order.
-/

namespace EdenLogger.RightBias

variable {A B : Type}

/-- The last of the items that set a value set this one. -/
def LastSets (f : A → Option B) (items : List A) (v : B) : Prop :=
  ∃ before item after, items = before ++ item :: after ∧ f item = some v ∧
    ∀ later ∈ after, f later = none

/-- The value that was set last. -/
def lastSet (f : A → Option B) (items : List A) : Option B := items.reverse.findSome? f

/-- Values of later items override. -/
theorem lastSet_append (f : A → Option B) (left right : List A) :
    lastSet f (left ++ right) = (lastSet f right).or (lastSet f left) := by
  unfold lastSet
  rw [List.reverse_append, List.findSome?_append]

/-- One item sets its own value. -/
theorem lastSet_singleton (f : A → Option B) (item : A) : lastSet f [item] = f item := by
  unfold lastSet
  rw [List.reverse_singleton, List.findSome?_singleton]

/-- The computed value is the one that was set last. -/
theorem lastSet_eq_some {f : A → Option B} {items : List A} {v : B} :
    lastSet f items = some v ↔ LastSets f items v := by
  unfold lastSet LastSets
  rw [List.findSome?_eq_some_iff]
  constructor
  · rintro ⟨after, item, before, hitems, hitem, hafter⟩
    refine ⟨before.reverse, item, after.reverse, ?_, hitem, ?_⟩
    · rw [← List.reverse_reverse items, hitems]
      simp
    · exact fun later hl => hafter later (List.mem_reverse.mp hl)
  · rintro ⟨before, item, after, rfl, hitem, hafter⟩
    refine ⟨after.reverse, item, before.reverse, by simp, hitem, ?_⟩
    exact fun later hl => hafter later (List.mem_reverse.mp hl)

/-- A way to combine items pairwise. -/
inductive Bracketing (A : Type) where
  | single (item : A)
  | join (left right : Bracketing A)

/-- The items, in order. -/
def Bracketing.items : Bracketing A → List A
  | .single item => [item]
  | .join left right => left.items ++ right.items

/-- The combined value. -/
def Bracketing.value (op : A → A → A) : Bracketing A → A
  | .single item => item
  | .join left right => op (left.value op) (right.value op)

/-- A part whose later value overrides has the value that was set last. -/
theorem Bracketing.value_lastSet {op : A → A → A} {f : A → Option B}
    (hop : ∀ a b, f (op a b) = (f b).or (f a)) (chain : Bracketing A) :
    f (chain.value op) = lastSet f chain.items := by
  induction chain with
  | single item => exact (lastSet_singleton f item).symm
  | join left right ihl ihr => rw [value, items, hop, ihl, ihr, lastSet_append]

/-- A part that is combined by an associative operation with an identity is the
combination of all parts, in order. -/
theorem Bracketing.value_foldr {op : A → A → A} {f : A → B} {mul : B → B → B} {one : B}
    (hop : ∀ a b, f (op a b) = mul (f a) (f b))
    (hassoc : ∀ a b c, mul (mul a b) c = mul a (mul b c))
    (hleft : ∀ a, mul one a = a) (hright : ∀ a, mul a one = a) (chain : Bracketing A) :
    f (chain.value op) = (chain.items.map f).foldr mul one := by
  have happend : ∀ xs ys : List B,
      (xs ++ ys).foldr mul one = mul (xs.foldr mul one) (ys.foldr mul one) := by
    intro xs ys
    induction xs with
    | nil => exact (hleft _).symm
    | cons x xs ih => rw [List.cons_append, List.foldr_cons, ih, List.foldr_cons, hassoc]
  induction chain with
  | single item => exact (hright _).symm
  | join left right ihl ihr => rw [value, items, hop, ihl, ihr, List.map_append, happend]

end EdenLogger.RightBias
