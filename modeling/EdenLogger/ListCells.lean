import Mathlib.Data.List.Perm.Basic
import Mathlib.Data.List.Count
import Mathlib.Data.List.Forall2
import Mathlib.Algebra.BigOperators.Group.List.Basic
import Mathlib.Algebra.Ring.Nat

/-!
# Replacing one cell of a list

A table of parties or queues is a list, and one of them moves at a time. The
rules say what a replaced cell does to sums, collected elements and
statements about all or some of the cells.
-/

namespace EdenLogger.ListCells

variable {α β : Type*} {l : List α} {i : ℕ} {a b : α}

/-- A list with the cell in the middle, before and after the replacement. -/
theorem split_cell (h : l[i]? = some a) :
    ∃ l₁ l₂, l = l₁ ++ a :: l₂ ∧ ∀ b, l.set i b = l₁ ++ b :: l₂ := by
  obtain ⟨hi, rfl⟩ := List.getElem?_eq_some_iff.mp h
  refine ⟨l.take i, l.drop (i + 1), ?_, fun b => ?_⟩
  · rw [← List.drop_eq_getElem_cons hi, List.take_append_drop]
  · exact List.set_eq_take_append_cons_drop.trans (if_pos hi)

/-- Replacing a cell by itself changes nothing. -/
theorem set_self (h : l[i]? = some a) : l.set i a = l := by
  obtain ⟨l₁, l₂, hl, hs⟩ := split_cell h
  rw [hs, ← hl]

/-- A sum over the cells is the replaced cell's share and the rest. -/
theorem sum_map_split (f : α → ℕ) (h : l[i]? = some a) :
    ∃ m, (l.map f).sum = m + f a ∧ ∀ b, ((l.set i b).map f).sum = m + f b := by
  obtain ⟨l₁, l₂, hl, hs⟩ := split_cell h
  refine ⟨(l₁.map f).sum + (l₂.map f).sum, ?_, fun b => ?_⟩
  · rw [hl]
    simp only [List.map_append, List.map_cons, List.sum_append, List.sum_cons]
    omega
  · rw [hs]
    simp only [List.map_append, List.map_cons, List.sum_append, List.sum_cons]
    omega

/-- What the cells hold together changes by what the replaced cell holds. -/
theorem flatMap_set_perm (f : α → List β) (h : l[i]? = some a) (b : α) :
    ((l.set i b).flatMap f ++ f a).Perm (l.flatMap f ++ f b) := by
  obtain ⟨l₁, l₂, hl, hs⟩ := split_cell h
  rw [hs, hl]
  simp only [List.flatMap_append, List.flatMap_cons, List.append_assoc]
  refine List.Perm.append_left _ ?_
  calc (f b ++ (l₂.flatMap f ++ f a)).Perm ((l₂.flatMap f ++ f a) ++ f b) :=
        List.perm_append_comm
    List.Perm _ ((f a ++ l₂.flatMap f) ++ f b) := List.perm_append_comm.append_right _
    List.Perm _ (f a ++ (l₂.flatMap f ++ f b)) := by rw [List.append_assoc]

/-- A cell that holds the same leaves what the cells hold together. -/
theorem flatMap_set_eq (f : α → List β) (h : l[i]? = some a) (hf : f b = f a) :
    (l.set i b).flatMap f = l.flatMap f := by
  obtain ⟨l₁, l₂, hl, hs⟩ := split_cell h
  rw [hs, hl]
  simp only [List.flatMap_append, List.flatMap_cons, hf]

/-- A cell that holds a sublist leaves a sublist of what the cells hold together. -/
theorem flatMap_set_sublist (f : α → List β) (h : l[i]? = some a) (hf : (f b).Sublist (f a)) :
    ((l.set i b).flatMap f).Sublist (l.flatMap f) := by
  obtain ⟨l₁, l₂, hl, hs⟩ := split_cell h
  rw [hs, hl]
  simp only [List.flatMap_append, List.flatMap_cons]
  exact (List.Sublist.refl _).append (hf.append (List.Sublist.refl _))

/-- If only one cell holds anything, the cells hold together what it holds. -/
theorem flatMap_of_single (f : α → List β) (h : l[i]? = some a)
    (hf : ∀ {j : ℕ} {c : α}, l[j]? = some c → j ≠ i → f c = []) : l.flatMap f = f a := by
  induction l generalizing i with
  | nil => cases h
  | cons c rest ih =>
    rw [List.flatMap_cons]
    cases i with
    | zero =>
      cases h
      have hr : rest.flatMap f = [] := List.flatMap_eq_nil_iff.mpr fun d hd => by
        obtain ⟨j, hj⟩ := List.mem_iff_getElem?.mp hd
        exact hf (j := j + 1) hj (by omega)
      rw [hr, List.append_nil]
    | succ i =>
      rw [hf (j := 0) rfl (by omega), List.nil_append]
      exact ih h fun hj hn => hf (j := _ + 1) hj (by omega)

/-- A cell with a key of its own, moved to the front. -/
theorem perm_cons_filter [DecidableEq β] {f : α → β} (hn : (l.map f).Nodup) (h : a ∈ l) :
    l.Perm (a :: l.filter fun b => f b ≠ f a) := by
  induction l with
  | nil => cases h
  | cons c rest ih =>
    rw [List.map_cons, List.nodup_cons] at hn
    rcases List.mem_cons.mp h with rfl | h
    · have hr : ∀ b ∈ rest, f b ≠ f a := fun b hb e => hn.1 (e ▸ List.mem_map_of_mem hb)
      rw [List.filter_cons_of_neg (by simp), List.filter_eq_self.mpr (by simpa using hr)]
    · have hc : f c ≠ f a := fun e => hn.1 (e ▸ List.mem_map_of_mem h)
      rw [List.filter_cons_of_pos (by simpa using hc)]
      exact ((ih hn.2 h).cons c).trans (List.Perm.swap a c _)

/-- What holds of all cells and of the replacement holds of all cells. -/
theorem forall_mem_set {p : α → Prop} (h : ∀ c ∈ l, p c) (hb : p b) :
    ∀ c ∈ l.set i b, p c := by
  intro c hc
  rcases List.mem_or_eq_of_mem_set hc with hc | rfl
  · exact h c hc
  · exact hb

/-- Some cell still has a property that the replaced cell passes on. -/
theorem exists_mem_set {p : α → Prop} (hi : l[i]? = some a) (h : ∃ c ∈ l, p c)
    (hab : p a → p b) : ∃ c ∈ l.set i b, p c := by
  obtain ⟨l₁, l₂, hl, hs⟩ := split_cell hi
  obtain ⟨c, hc, hp⟩ := h
  rw [hs]
  rw [hl, List.mem_append, List.mem_cons] at hc
  rcases hc with hc | rfl | hc
  · exact ⟨c, List.mem_append_left _ hc, hp⟩
  · exact ⟨b, List.mem_append_right _ List.mem_cons_self, hab hp⟩
  · exact ⟨c, List.mem_append_right _ (List.mem_cons_of_mem _ hc), hp⟩

/-- Reading a replaced table: the replacement, or another cell unchanged. -/
theorem cell_of_set {j : ℕ} {c : α} (h : (l.set i b)[j]? = some c) :
    (j = i ∧ c = b) ∨ (j ≠ i ∧ l[j]? = some c) := by
  rw [List.getElem?_set] at h
  split at h
  · rename_i hij
    split at h
    · exact Or.inl ⟨hij.symm, (Option.some.inj h).symm⟩
    · exact absurd h (by simp)
  · rename_i hij
    exact Or.inr ⟨fun h' => hij h'.symm, h⟩

/-- A property of the cell at an index that the replacement takes over. -/
theorem exists_cell_set {p : α → Prop} {j : ℕ} (hi : l[i]? = some a) (hab : p a → p b)
    (h : ∃ c, l[j]? = some c ∧ p c) : ∃ c, (l.set i b)[j]? = some c ∧ p c := by
  obtain ⟨c, hj, hc⟩ := h
  by_cases hij : i = j
  · subst hij
    obtain rfl := Option.some.inj (hi.symm.trans hj)
    obtain ⟨hlt, -⟩ := List.getElem?_eq_some_iff.mp hi
    exact ⟨b, List.getElem?_set_self hlt, hab hc⟩
  · exact ⟨c, (List.getElem?_set_ne hij).trans hj, hc⟩

/-- A property of the cell at an index that the replacement has from the replaced cell. -/
theorem exists_cell_of_set {p : α → Prop} {j : ℕ} (hi : l[i]? = some a) (hba : p b → p a)
    (h : ∃ c, (l.set i b)[j]? = some c ∧ p c) : ∃ c, l[j]? = some c ∧ p c := by
  obtain ⟨c, hj, hc⟩ := h
  rcases cell_of_set hj with ⟨rfl, rfl⟩ | ⟨-, hj⟩
  · exact ⟨a, hi, hba hc⟩
  · exact ⟨c, hj, hc⟩

/-- Reading a table with one more cell. -/
theorem cell_of_append {j : ℕ} {c : α} (h : (l ++ [b])[j]? = some c) :
    l[j]? = some c ∨ (j = l.length ∧ c = b) := by
  rw [List.getElem?_append] at h
  split at h
  · exact Or.inl h
  · rename_i hj
    obtain ⟨hk, hc⟩ := List.getElem?_eq_some_iff.mp h
    simp only [List.length_singleton] at hk
    refine Or.inr ⟨by omega, ?_⟩
    have hz : j - l.length = 0 := by omega
    simpa [hz] using hc.symm

/-! ## Two tables side by side -/

variable {R : α → β → Prop} {l' : List β}

/-- Tables related cell by cell stay so when related cells replace a pair. -/
theorem forall₂_set {c : β} (h : List.Forall₂ R l l') (i : ℕ) (hc : R b c) :
    List.Forall₂ R (l.set i b) (l'.set i c) := by
  induction h generalizing i with
  | nil => exact .nil
  | cons hr ht ih =>
    cases i with
    | zero => exact .cons hc ht
    | succ i => exact .cons hr (ih i)

/-- A replacement related to whatever was related to the replaced cell. -/
theorem forall₂_set_right {c d : β} (h : List.Forall₂ R l l') (hi : l'[i]? = some c)
    (hd : ∀ a, R a c → R a d) : List.Forall₂ R l (l'.set i d) := by
  induction h generalizing i with
  | nil => cases hi
  | cons hr ht ih =>
    cases i with
    | zero =>
      cases hi
      exact .cons (hd _ hr) ht
    | succ i => exact .cons hr (ih hi)

/-- Every cell of one table has a cell of the other beside it. -/
theorem forall₂_cell {c : β} (h : List.Forall₂ R l l') (hi : l'[i]? = some c) :
    ∃ a, l[i]? = some a ∧ R a c := by
  induction h generalizing i with
  | nil => cases hi
  | cons hr ht ih =>
    cases i with
    | zero =>
      cases hi
      exact ⟨_, rfl, hr⟩
    | succ i => exact ih hi

/-- Bounds of cells add up. -/
theorem sum_le_of_forall₂ {f : α → ℕ} {ns : List ℕ}
    (h : List.Forall₂ (fun n a => n ≤ f a) ns l) : ns.sum ≤ (l.map f).sum := by
  induction h with
  | nil => exact Nat.le_refl 0
  | cons hr ht ih =>
    simp only [List.map_cons, List.sum_cons]
    omega

/-- Zeros are below everything. -/
theorem forall₂_zero {f : α → ℕ} {ns : List ℕ} (h : List.Forall₂ (fun n a => n ≤ f a) ns l) :
    List.Forall₂ (fun n a => n ≤ f a) (ns.map fun _ => 0) l := by
  induction h with
  | nil => exact .nil
  | cons hr ht ih => exact .cons (Nat.zero_le _) ih

/-- A sum of zeros. -/
theorem sum_map_zero (l : List α) : (l.map fun _ => 0).sum = 0 := by
  induction l with
  | nil => rfl
  | cons a rest ih => simp only [List.map_cons, List.sum_cons, ih]

end EdenLogger.ListCells
