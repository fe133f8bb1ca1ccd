import Mathlib.Data.List.Nodup
import Mathlib.Data.List.Sublists

/-!
# Order of two elements in a list

An element precedes another one in a list if the pair is a sublist. The
relation passes to longer lists, and in a list without repetitions it passes
to every sublist that holds both elements, so a stage that forwards a sublist
of what it received cannot swap two of its elements.
-/

namespace EdenLogger.PairOrder

variable {α : Type*} {l l' : List α} {a b : α}

/-- The first element occurs before the second one. -/
def Precedes (l : List α) (a b : α) : Prop := [a, b].Sublist l

/-- A longer list keeps the order of its parts. -/
theorem Precedes.mono (h : Precedes l a b) (hs : l.Sublist l') : Precedes l' a b := h.trans hs

/-- The first element occurs. -/
theorem Precedes.mem_left (h : Precedes l a b) : a ∈ l := h.subset List.mem_cons_self

/-- What a list holds precedes what is appended to it. -/
theorem Precedes.append (ha : a ∈ l) (hb : b ∈ l') : Precedes (l ++ l') a b :=
  (List.singleton_sublist.mpr ha).append (List.singleton_sublist.mpr hb)

/-- Selecting a class of elements keeps the order within the class. -/
theorem Precedes.filter {p : α → Bool} (h : Precedes l a b) (ha : p a = true) (hb : p b = true) :
    Precedes (l.filter p) a b := by
  have hf := List.Sublist.filter p h
  rwa [List.filter_cons_of_pos ha, List.filter_cons_of_pos hb, List.filter_nil] at hf

/-- In a list without repetitions two elements have one order only. -/
theorem Precedes.ne (h : Precedes l a b) (hn : l.Nodup) : a ≠ b := by
  have hp := hn.sublist h
  simp only [List.nodup_cons, List.mem_singleton] at hp
  exact hp.1

/-- A sublist that holds both elements has them in the order of the list. -/
theorem Precedes.restrict (h : Precedes l' a b) (hn : l'.Nodup) (hs : l.Sublist l') (ha : a ∈ l)
    (hb : b ∈ l) : Precedes l a b := by
  have hab := h.ne hn
  unfold Precedes at h ⊢
  induction hs with
  | slnil => exact h
  | @cons l l' c hs ih =>
    obtain ⟨hc, hn⟩ := List.nodup_cons.mp hn
    refine ih ?_ hn ha hb
    cases h with
    | cons _ h => exact h
    | cons_cons _ h => exact absurd (hs.subset ha) hc
  | @cons_cons l l' c hs ih =>
    obtain ⟨hc, hn⟩ := List.nodup_cons.mp hn
    cases h with
    | cons _ h =>
      -- the list's head is neither of the two
      have ha' : a ∈ l := (List.mem_cons.mp ha).resolve_left fun e =>
        hc (e ▸ h.subset List.mem_cons_self)
      have hb' : b ∈ l := (List.mem_cons.mp hb).resolve_left fun e =>
        hc (e ▸ h.subset (List.mem_cons_of_mem _ List.mem_cons_self))
      exact (ih h hn ha' hb').cons c
    | cons_cons _ h =>
      have hb' := (List.mem_cons.mp hb).resolve_left (Ne.symm hab)
      exact (List.singleton_sublist.mpr hb').cons_cons _

/-- What precedes an element of a front part is in the front part. -/
theorem Precedes.mem_front (h : Precedes (l ++ l') a b) (hn : (l ++ l').Nodup) (hb : b ∈ l) :
    a ∈ l := by
  by_contra ha
  have ha' := (List.mem_append.mp h.mem_left).resolve_left ha
  have hba : Precedes (l ++ l') b a := Precedes.append hb ha'
  have hr : Precedes [a, b] b a :=
    hba.restrict hn h (List.mem_cons_of_mem _ List.mem_cons_self) List.mem_cons_self
  have he := List.Sublist.eq_of_length hr rfl
  injection he with he
  exact h.ne hn he.symm

end EdenLogger.PairOrder
