import Mathlib.Data.List.Nodup
import Mathlib.Data.List.Perm.Lattice

/-!
# Histories of concurrent calls

Calls are numbered in the order in which they begin. Each call has an operation,
a program counter, and the numbers of the calls that had finished when it began.
An order of the calls agrees with real time if no call stands in front of one
that had finished when it began. Orders are built while the calls take steps.
-/

namespace EdenLogger.CallHistory

/-- A call. -/
structure Call (ο π : Type*) where
  op : ο
  pc : π
  /-- The calls that had finished when it began. -/
  after : List ℕ

variable {ο π : Type*} {calls : List (Call ο π)} {order : List ℕ} {i n : ℕ} {c : Call ο π}

/-- The calls that have finished. -/
def finished (isDone : π → Bool) (calls : List (Call ο π)) : List ℕ :=
  (List.range calls.length).filter fun i => calls[i]?.any fun c => isDone c.pc

/-- The calls before a call. -/
def afterOf (calls : List (Call ο π)) (i : ℕ) : List ℕ := (calls[i]?.map Call.after).getD []

/-- The operations in an order. -/
def opsOf (calls : List (Call ο π)) (order : List ℕ) : List ο :=
  order.filterMap fun i => calls[i]?.map Call.op

/-- No call stands in front of one that had finished when it began. -/
def RealTime (calls : List (Call ο π)) (order : List ℕ) : Prop :=
  order.Pairwise fun a b => b ∉ afterOf calls a

/-- A finished call has a number and is done. -/
theorem mem_finished {isDone : π → Bool} (h : i ∈ finished isDone calls) :
    ∃ c, calls[i]? = some c ∧ isDone c.pc = true := by
  obtain ⟨-, hdone⟩ := List.mem_filter.mp h
  exact (Option.any_eq_true _ _).mp hdone

/-- A done call is finished. -/
theorem finished_of_done {isDone : π → Bool} (hi : calls[i]? = some c)
    (hdone : isDone c.pc = true) : i ∈ finished isDone calls := by
  obtain ⟨hlt, -⟩ := List.getElem?_eq_some_iff.mp hi
  refine List.mem_filter.mpr ⟨List.mem_range.mpr hlt, ?_⟩
  rw [hi]
  exact hdone

/-! ## Steps of a call -/

/-- What a step leaves of the call that takes it, it leaves of every call. -/
theorem map_call_set {β : Type*} (f : Call ο π → β) (hi : calls[i]? = some c) (p : π)
    (hf : f { c with pc := p } = f c) (j : ℕ) :
    (calls.set i { c with pc := p })[j]?.map f = calls[j]?.map f := by
  obtain ⟨hlt, -⟩ := List.getElem?_eq_some_iff.mp hi
  by_cases hij : i = j
  · subst hij
    rw [List.getElem?_set_self hlt, hi, Option.map_some, Option.map_some, hf]
  · rw [List.getElem?_set_ne hij]

/-- A step leaves what came before each call. -/
@[simp] theorem afterOf_set (hi : calls[i]? = some c) (p : π) (j : ℕ) :
    afterOf (calls.set i { c with pc := p }) j = afterOf calls j := by
  unfold afterOf
  rw [map_call_set Call.after hi p rfl]

/-- A step leaves the operations. -/
@[simp] theorem opsOf_set (hi : calls[i]? = some c) (p : π) (order : List ℕ) :
    opsOf (calls.set i { c with pc := p }) order = opsOf calls order := by
  unfold opsOf
  exact List.filterMap_congr fun j _ => map_call_set Call.op hi p rfl j

/-- A step leaves an order in agreement with real time. -/
theorem RealTime.set (h : RealTime calls order) (hi : calls[i]? = some c) (p : π) :
    RealTime (calls.set i { c with pc := p }) order := by
  unfold RealTime at h ⊢
  simpa only [afterOf_set hi] using h

/-! ## Beginning calls -/

/-- A call that begins leaves what came before the others. -/
theorem afterOf_append (hn : n < calls.length) (c : Call ο π) :
    afterOf (calls ++ [c]) n = afterOf calls n := by
  unfold afterOf
  rw [List.getElem?_append_left hn]

/-- What came before a call that begins. -/
theorem afterOf_new (calls : List (Call ο π)) (c : Call ο π) :
    afterOf (calls ++ [c]) calls.length = c.after := by
  unfold afterOf
  rw [List.getElem?_concat_length]
  rfl

/-- A call that begins leaves the operations of the others. -/
theorem opsOf_append (h : ∀ j ∈ order, j < calls.length) (c : Call ο π) :
    opsOf (calls ++ [c]) order = opsOf calls order := by
  unfold opsOf
  refine List.filterMap_congr fun j hj => ?_
  rw [List.getElem?_append_left (h j hj)]

/-- A call that begins leaves an order of the others in agreement with real time. -/
theorem RealTime.append (h : RealTime calls order) (hlt : ∀ j ∈ order, j < calls.length)
    (c : Call ο π) : RealTime (calls ++ [c]) order := by
  refine h.imp_of_mem fun ha _ hnot => ?_
  rw [afterOf_append (hlt _ ha)]
  exact hnot

/-! ## Extending an order -/

/-- A call that was not done when any of them began can be put behind them. -/
theorem RealTime.concat (h : RealTime calls order) (hnew : ∀ a ∈ order, n ∉ afterOf calls a) :
    RealTime calls (order ++ [n]) := by
  refine List.pairwise_append.mpr ⟨h, List.pairwise_singleton _ _, fun a ha b hb => ?_⟩
  rw [List.mem_singleton.mp hb]
  exact hnew a ha

/-- A call can be put in front of those that were not done when it began. -/
theorem RealTime.cons (h : RealTime calls order) (hnew : ∀ b ∈ order, b ∉ afterOf calls n) :
    RealTime calls (n :: order) := List.pairwise_cons.mpr ⟨hnew, h⟩

/-- An order that has every call once. -/
theorem perm_range (hnodup : order.Nodup) (hmem : ∀ i, i ∈ order ↔ i < calls.length) :
    order.Perm (List.range calls.length) := by
  refine (List.perm_ext_iff_of_nodup hnodup List.nodup_range).mpr fun i => ?_
  rw [hmem, List.mem_range]

end EdenLogger.CallHistory
