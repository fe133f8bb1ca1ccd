import EdenLogger.SinkDispatch

/-!
# What the writers keep

One writer at a time holds the lock, and a registration is in the hands of one
operation at a time. Between its store and its count a registering writer has
one slot more than the count, and a releasing one has one less. Registry,
registrations and caches agree at every step.
-/

namespace EdenLogger.SinkDispatch

open MachineWord RunRules ListCells SinkRegistry

variable {K : Type} [DecidableEq K] {s s' : State K} {a : Action K}

/-! ## Moves -/

/-- What a writer's step does. -/
inductive WriterMove (s : State K) (n : ℕ) (w : Writer K) : State K → Prop
  | acquire (hpc : w.pc = .lock) (hl : s.lock = none) :
      WriterMove s n w
        { s with lock := some n, writers := s.writers.set n { w with pc := .check } }
  | allocate {key : K} {fate : Fate} {p : ℕ} {g : Registry K} (hpc : w.pc = .check)
      (hop : w.op = .register key fate) (hg : Grown s.sinks.registry key p g)
      (he : g.active p = none) :
      WriterMove s n w
        { s with
          sinks := { s.sinks with registry := g }
          writers := s.writers.set n { w with pc := .store p } }
  | refuse {key : K} {fate : Fate} (hpc : w.pc = .check) (hop : w.op = .register key fate) :
      WriterMove s n w { s with writers := s.writers.set n { w with pc := .unlock false } }
  | find {p : ℕ} (hpc : w.pc = .check) (hop : ∀ key fate, w.op ≠ .register key fate)
      (hh : ∃ i c, w.holder = some i ∧ s.sinks.holders[i]? = some ⟨⟨p, some c⟩, .live⟩) :
      WriterMove s n w { s with writers := s.writers.set n { w with pc := .store p } }
  | register {key : K} {fate : Fate} {p : ℕ} (hpc : w.pc = .store p)
      (hop : w.op = .register key fate) :
      WriterMove s n w
        { s with
          sinks := occupySlot s.sinks p fate
          writers := s.writers.set n
            { w with pc := .count, holder := some s.sinks.holders.length } }
  | replace {i p : ℕ} (hpc : w.pc = .store p) (hop : w.op = .replace i) :
      WriterMove s n w
        { s with
          sinks := exchangeSlot s.sinks i p
          writers := s.writers.set n { w with pc := .unlock true, holder := some i } }
  | release {i p : ℕ} {fate : Fate} (hpc : w.pc = .store p) (hop : w.op = .release i fate) :
      WriterMove s n w
        { s with
          sinks := emptySlot s.sinks i p fate
          writers := s.writers.set n { w with pc := .count, holder := some i } }
  | count (hpc : w.pc = .count) :
      WriterMove s n w
        { s with
          sinks := countSlot s.sinks w.op
          writers := s.writers.set n { w with pc := .unlock true } }
  | unlock {ok : Bool} (hpc : w.pc = .unlock ok) :
      WriterMove s n w
        { s with lock := none, writers := s.writers.set n { w with pc := .returned ok } }

/-- The registration of an operation that looks for its slot. -/
def Seeks (s : Sinks K) (w : Writer K) : Prop :=
  ∃ i p c, w.holder = some i ∧ s.holders[i]? = some ⟨⟨p, some c⟩, .live⟩ ∧
    ∀ q, w.pc = .store q → q = p

/-- A writer's own facts. -/
structure WriterOk (s : Sinks K) (w : Writer K) : Prop where
  /-- An operation on a registration has that registration. -/
  named : ∀ i, w.op = .replace i ∨ (∃ fate, w.op = .release i fate) → w.holder = some i
  /-- Registrations exist. -/
  range : ∀ i, w.holder = some i → i < s.holders.length
  /-- Up to its store such an operation finds its registration active. -/
  seeks : (∀ key fate, w.op ≠ .register key fate) →
    w.pc = .lock ∨ w.pc = .check ∨ (∃ p, w.pc = .store p) → Seeks s w
  /-- Up to its store a registering writer has no registration. -/
  unmade : ∀ key fate, w.op = .register key fate →
    w.pc = .lock ∨ w.pc = .check ∨ (∃ p, w.pc = .store p) → w.holder = none
  /-- It stores into the empty slot of its type. -/
  empty : ∀ key fate p, w.op = .register key fate → w.pc = .store p →
    s.registry.get key = some p ∧ s.registry.active p = none
  /-- Behind its store it has made a registration of that slot. -/
  made : ∀ key fate, w.op = .register key fate →
    w.pc = .count ∨ w.pc = .unlock true ∨ w.pc = .returned true →
    ∃ i h, w.holder = some i ∧ s.holders[i]? = some h ∧
      s.registry.get key = some h.registration.slot ∧
      (w.pc = .count → h.registration.callback ≠ none)
  /-- Only stores and releases are counted. -/
  counts : ∀ i, w.op = .replace i → w.pc ≠ .count

/-- The writers together. -/
structure WriterLaw (s : State K) : Prop where
  /-- Everyone's own facts. -/
  each : ∀ {n : ℕ} {w : Writer K}, s.writers[n]? = some w → WriterOk s.sinks w
  /-- Whoever is past the lock holds it. -/
  lock : ∀ {n : ℕ} {w : Writer K}, s.writers[n]? = some w → w.pc.locked = true → s.lock = some n
  /-- The holder of the lock is past it. -/
  held : ∀ {n : ℕ}, s.lock = some n → ∃ w, s.writers[n]? = some w ∧ w.pc.locked = true
  /-- A registration is in the hands of one operation. -/
  alone : ∀ {n n' i : ℕ} {w w' : Writer K}, s.writers[n]? = some w → s.writers[n']? = some w' →
    w.holder = some i → w'.holder = some i → w.pc.isReturned = false →
    w'.pc.isReturned = false → n = n'
  /-- A registration was made by one writer. -/
  maker : ∀ {n n' i : ℕ} {w w' : Writer K} {key key' : K} {fate fate' : Fate},
    s.writers[n]? = some w → s.writers[n']? = some w' → w.op = .register key fate →
    w'.op = .register key' fate' → w.holder = some i → w'.holder = some i → n = n'
  /-- A registration without a callback is being released or was. -/
  kept : ∀ {i : ℕ} {h : Holder}, s.sinks.holders[i]? = some h → h.registration.callback = none →
    ∃ w ∈ s.writers, ∃ fate, w.op = .release i fate

/-- A writer's step is one of its moves. -/
theorem WriterLaw.move (hw : WriterLaw s) (ha : Agreed s.sinks) {n : ℕ} {w : Writer K}
    (hn : s.writers[n]? = some w) (hs : writerStep s n w = some s') : WriterMove s n w s' := by
  have hok := hw.each hn
  obtain ⟨op, pc, holder⟩ := w
  unfold writerStep at hs
  split at hs
  · rename_i hpc
    rw [ha.wellformed.clean, if_neg Bool.false_ne_true] at hs
    split_ifs at hs with hl
    cases hs
    exact .acquire hpc (Option.isNone_iff_eq_none.mp hl)
  · rename_i hpc
    obtain ⟨e, he, rfl⟩ := Option.map_eq_some_iff.mp hs
    cases op with
    | register key fate =>
      rw [checkSlot, Option.map_eq_some_iff] at he
      obtain ⟨⟨p, g⟩, hentry, rfl⟩ := he
      have hg := ha.wellformed.grow hentry
      obtain ⟨slot, hd, hslot⟩ := hg.wellformed.downcast hg.entry
      simp only [hd]
      split
      · rename_i hc
        -- an occupied slot is not a new one
        rcases hg.fresh with ⟨-, rfl⟩ | ⟨-, hnone⟩
        · exact .refuse hpc rfl
        · rw [← hg.active, Registry.active, hslot] at hnone
          rw [show slot.callback = none from hnone] at hc
          cases hc
      · rename_i hc
        refine .allocate hpc rfl hg ?_
        rw [Registry.active, hslot]
        simpa using hc
    | replace i =>
      obtain ⟨j, p, c, hj, hh, -⟩ := hok.seeks (by simp) (Or.inr (Or.inl hpc))
      have hi : holder = some i := hok.named i (Or.inl rfl)
      cases hi.symm.trans hj
      simp only [checkSlot, hh, Option.map_some, ha.registration hh rfl, if_true] at he
      cases he
      exact .find hpc (by simp) ⟨i, c, hj, hh⟩
    | release i fate =>
      obtain ⟨j, p, c, hj, hh, -⟩ := hok.seeks (by simp) (Or.inr (Or.inl hpc))
      have hi : holder = some i := hok.named i (Or.inr ⟨fate, rfl⟩)
      cases hi.symm.trans hj
      simp only [checkSlot, hh, Option.map_some, ha.registration hh rfl, if_true] at he
      cases he
      exact .find hpc (by simp) ⟨i, c, hj, hh⟩
  · rename_i p hpc
    cases hs
    cases op with
    | register key fate => exact .register hpc rfl
    | replace i => exact .replace hpc rfl
    | release i fate => exact .release hpc rfl
  · rename_i hpc
    cases hs
    exact .count hpc
  · rename_i ok hpc
    cases hs
    exact .unlock hpc
  · cases hs

/-! ## Steps of one writer beside the others -/

/-- What changes leave of the registrations that are not in the mover's hands. -/
structure HolderFrame (s s' : Sinks K) (own : ℕ → Prop) : Prop where
  /-- Other registrations are the same. -/
  keep : ∀ {i : ℕ} {h : Holder}, ¬ own i → s.holders[i]? = some h → s'.holders[i]? = some h
  /-- No registration changes its slot. -/
  slot : ∀ {i : ℕ} {h : Holder}, s.holders[i]? = some h →
    ∃ h', s'.holders[i]? = some h' ∧ h'.registration.slot = h.registration.slot
  /-- Entries stay. -/
  get : ∀ {key : K} {p : ℕ}, s.registry.get key = some p → s'.registry.get key = some p

/-- A change of the registry that keeps its entries. -/
theorem HolderFrame.of_holders {s s' : Sinks K} (h : s'.holders = s.holders)
    (hg : ∀ {key : K} {p : ℕ}, s.registry.get key = some p → s'.registry.get key = some p) :
    HolderFrame s s' fun _ => False :=
  ⟨fun _ hi => by rw [h]; exact hi, fun hi => ⟨_, by rw [h]; exact hi, rfl⟩, hg⟩

/-- One more registration. -/
theorem HolderFrame.of_append {s s' : Sinks K} {holder : Holder}
    (h : s'.holders = s.holders ++ [holder])
    (hg : ∀ {key : K} {p : ℕ}, s.registry.get key = some p → s'.registry.get key = some p) :
    HolderFrame s s' fun _ => False := by
  have hold : ∀ {i : ℕ} {old : Holder}, s.holders[i]? = some old → s'.holders[i]? = some old := by
    intro i old hi
    rw [h, List.getElem?_append_left (List.getElem?_eq_some_iff.mp hi).1]
    exact hi
  exact ⟨fun _ hi => hold hi, fun hi => ⟨_, hold hi, rfl⟩, hg⟩

/-- A registration in the mover's hands. -/
theorem HolderFrame.of_set {s s' : Sinks K} {i : ℕ} {old new : Holder}
    (h : s'.holders = s.holders.set i new) (ho : s.holders[i]? = some old)
    (hs : new.registration.slot = old.registration.slot)
    (hg : ∀ {key : K} {p : ℕ}, s.registry.get key = some p → s'.registry.get key = some p) :
    HolderFrame s s' fun j => j = i := by
  have hlt := (List.getElem?_eq_some_iff.mp ho).1
  have hne : ∀ {j : ℕ} {h : Holder}, j ≠ i → s.holders[j]? = some h → s'.holders[j]? = some h := by
    intro j holder hj hh
    rw [h, List.getElem?_set_ne (Ne.symm hj)]
    exact hh
  refine ⟨hne, fun {j holder} hj => ?_, hg⟩
  by_cases he : j = i
  · subst he
    rw [ho] at hj
    cases hj
    exact ⟨new, by rw [h, List.getElem?_set_self hlt], hs⟩
  · exact ⟨holder, hne he hj, rfl⟩

/-- Another writer's facts survive. -/
theorem WriterOk.frame {s s' : Sinks K} {own : ℕ → Prop} {w : Writer K} (h : WriterOk s w)
    (hf : HolderFrame s s' own) (hl : w.pc.locked = false)
    (ho : ∀ i, w.pc.isReturned = false → w.holder = some i → ¬ own i) : WriterOk s' w where
  named := h.named
  range := fun i hi => by
    obtain ⟨h', hh, -⟩ := hf.slot (List.getElem?_eq_getElem (h.range i hi))
    exact (List.getElem?_eq_some_iff.mp hh).1
  seeks := fun hop hpc => by
    obtain ⟨i, p, c, hi, hh, hq⟩ := h.seeks hop hpc
    have hret : w.pc.isReturned = false := by
      rcases hpc with hpc | hpc | ⟨p, hpc⟩ <;> simp [hpc, WriterPc.isReturned]
    exact ⟨i, p, c, hi, hf.keep (ho i hret hi) hh, hq⟩
  unmade := h.unmade
  empty := fun key fate p hop hpc => by
    rw [hpc] at hl
    cases hl
  made := fun key fate hop hpc => by
    obtain ⟨i, holder, hi, hh, hget, -⟩ := h.made key fate hop hpc
    obtain ⟨h', hh', hs⟩ := hf.slot hh
    refine ⟨i, h', hi, hh', by rw [hs]; exact hf.get hget, fun hc => ?_⟩
    rw [hc] at hl
    cases hl
  counts := h.counts

/-- A step of one writer keeps the law if it keeps the writer's own facts. -/
theorem WriterLaw.update (h : WriterLaw s) {n : ℕ} {w : Writer K} {sinks : Sinks K}
    {own : ℕ → Prop} (hn : s.writers[n]? = some w) (w' : Writer K) (lock : Option ℕ)
    (hop : w'.op = w.op)
    (hret : w.pc.isReturned = false) (hf : HolderFrame s.sinks sinks own)
    (hown : ∀ i, own i → w.holder = some i) (hok : WriterOk sinks w')
    (hothers : ∀ {n' : ℕ} {w'' : Writer K}, n' ≠ n → s.writers[n']? = some w'' →
      w''.pc.locked = false)
    (hlock : lock = if w'.pc.locked then some n else none)
    (hholder : w'.holder = w.holder ∨ w'.holder = some s.sinks.holders.length)
    (hkept : ∀ {i : ℕ} {holder : Holder}, sinks.holders[i]? = some holder →
      holder.registration.callback = none →
      (∃ old, s.sinks.holders[i]? = some old ∧ old.registration.callback = none) ∨
        ∃ fate, w.op = .release i fate) :
    WriterLaw { s with sinks := sinks, lock := lock, writers := s.writers.set n w' } := by
  have hlt := (List.getElem?_eq_some_iff.mp hn).1
  -- nobody else has the mover's registration, be it its old or a new one
  have hfresh : ∀ {n' i : ℕ} {w'' : Writer K}, n' ≠ n → s.writers[n']? = some w'' →
      w''.holder = some i → w'.holder = some i → w'.holder = w.holder := by
    intro n' i w'' hne hn' hi hi'
    rcases hholder with he | he
    · exact he
    · rw [he] at hi'
      cases hi'
      exact absurd ((h.each hn').range _ hi) (Nat.lt_irrefl _)
  constructor
  case each =>
    intro n' w'' hn'
    rcases cell_of_set hn' with ⟨rfl, rfl⟩ | ⟨hne, hn'⟩
    · exact hok
    · refine (h.each hn').frame hf (hothers hne hn') fun i hr hi ho => hne ?_
      exact h.alone hn' hn hi (hown i ho) hr hret
  case lock =>
    intro n' w'' hn' hl
    rcases cell_of_set hn' with ⟨rfl, rfl⟩ | ⟨hne, hn'⟩
    · rw [hlock, if_pos hl]
    · rw [hothers hne hn'] at hl
      cases hl
  case held =>
    intro n' hl
    rw [hlock] at hl
    split_ifs at hl with hlocked
    cases hl
    exact ⟨w', List.getElem?_set_self hlt, hlocked⟩
  case alone =>
    intro n₁ n₂ i w₁ w₂ h₁ h₂ hi₁ hi₂ hr₁ hr₂
    rcases cell_of_set h₁ with ⟨rfl, rfl⟩ | ⟨hne₁, h₁'⟩
    · rcases cell_of_set h₂ with ⟨rfl, -⟩ | ⟨hne₂, h₂'⟩
      · rfl
      · exact h.alone hn h₂' (hfresh hne₂ h₂' hi₂ hi₁ ▸ hi₁) hi₂ hret hr₂
    · rcases cell_of_set h₂ with ⟨rfl, rfl⟩ | ⟨hne₂, h₂'⟩
      · exact h.alone h₁' hn hi₁ (hfresh hne₁ h₁' hi₁ hi₂ ▸ hi₂) hr₁ hret
      · exact h.alone h₁' h₂' hi₁ hi₂ hr₁ hr₂
  case maker =>
    intro n₁ n₂ i w₁ w₂ key₁ key₂ fate₁ fate₂ h₁ h₂ ho₁ ho₂ hi₁ hi₂
    rcases cell_of_set h₁ with ⟨rfl, rfl⟩ | ⟨hne₁, h₁'⟩
    · rcases cell_of_set h₂ with ⟨rfl, -⟩ | ⟨hne₂, h₂'⟩
      · rfl
      · rw [hop] at ho₁
        exact h.maker hn h₂' ho₁ ho₂ (hfresh hne₂ h₂' hi₂ hi₁ ▸ hi₁) hi₂
    · rcases cell_of_set h₂ with ⟨rfl, rfl⟩ | ⟨hne₂, h₂'⟩
      · rw [hop] at ho₂
        exact h.maker h₁' hn ho₁ ho₂ hi₁ (hfresh hne₁ h₁' hi₁ hi₂ ▸ hi₂)
      · exact h.maker h₁' h₂' ho₁ ho₂ hi₁ hi₂
  case kept =>
    intro i holder hi hc
    rcases hkept hi hc with ⟨old, ho, hc⟩ | ⟨fate, hw⟩
    · obtain ⟨w'', hm, fate, hw⟩ := h.kept ho hc
      exact exists_mem_set hn ⟨w'', hm, fate, hw⟩ fun ⟨fate, hw⟩ => ⟨fate, hop.trans hw⟩
    · exact ⟨w', List.mem_set (List.getElem?_eq_some_iff.mp hn).1 w', fate, hop.trans hw⟩

/-! ## What the count owes the slots -/

/-- The operation between its store and its count. -/
def counting (s : State K) : Option (WriterOp K) :=
  (s.lock.bind fun n => s.writers[n]?).bind fun w => if w.pc = .count then some w.op else none

/-- The count, next to the occupied slots and an operation in between. -/
def Counted (g : Registry K) : Option (WriterOp K) → Prop
  | some (.register _ _) => g.activeSinks + 1 = occupied g
  | some (.release _ _) => g.activeSinks = occupied g + 1 ∧ g.activeSinks ≤ wordMax
  | some (.replace _) => g.activeSinks = occupied g
  | none => g.activeSinks = occupied g

/-- Registry, registrations, caches and writers at every step. -/
structure Law (s : State K) : Prop extends WriterLaw s where
  agreed : Agreed s.sinks
  /-- The count is exact up to the operation in between. -/
  counted : Counted s.sinks.registry (counting s)

/-- Whoever may take a step finds no other writer past the lock. -/
theorem WriterLaw.others (h : WriterLaw s) {n : ℕ} (hl : s.lock = none ∨ s.lock = some n)
    {n' : ℕ} {w : Writer K} (hne : n' ≠ n) (hn' : s.writers[n']? = some w) :
    w.pc.locked = false := by
  by_contra hlocked
  have hlock := h.lock hn' (by simpa using hlocked)
  rcases hl with hl | hl
  · rw [hl] at hlock
    cases hlock
  · rw [hl] at hlock
    cases hlock
    exact hne rfl

omit [DecidableEq K] in
/-- A writer past the lock stands at its count or nobody does. -/
theorem counting_eq {n : ℕ} {w : Writer K} (hn : s.writers[n]? = some w) (hl : s.lock = some n) :
    counting s = if w.pc = .count then some w.op else none := by
  rw [counting, hl, Option.bind_some, hn, Option.bind_some]

omit [DecidableEq K] in
/-- The same after its step. -/
theorem counting_set {n : ℕ} {w : Writer K} {sinks : Sinks K}
    (hn : s.writers[n]? = some w) (w' : Writer K) (lock : Option ℕ)
    (hlock : lock = if w'.pc.locked then some n else none) :
    counting { s with sinks := sinks, lock := lock, writers := s.writers.set n w' } =
      if w'.pc = .count then some w'.op else none := by
  have hlt := (List.getElem?_eq_some_iff.mp hn).1
  unfold counting
  subst hlock
  split
  · simp only [Option.bind_some, List.getElem?_set_self hlt]
  · rename_i hl
    have hc : w'.pc ≠ .count := fun hc => hl (by rw [hc]; rfl)
    rw [if_neg hc]
    rfl

omit [DecidableEq K] in
/-- A change of the count after a store. -/
theorem Counted.settle {g : Registry K} (hle : occupied g ≤ wordMax) :
    ∀ {op : WriterOp K}, (∀ i, op ≠ .replace i) → Counted g (some op) →
    ∀ {s : Sinks K}, s.registry = g → Counted (countSlot s op).registry none := by
  intro op hop h s hg
  subst hg
  cases op with
  | register key fate =>
    have hc : s.registry.activeSinks + 1 = occupied s.registry := h
    have hr : (countSlot s (.register key fate)).registry =
        s.registry.recount (wrappingAdd s.registry.activeSinks 1) := rfl
    rw [hr, Counted, activeSinks_recount, occupied_recount, wrappingAdd_of_lt (by omega), hc]
  | replace i => exact absurd rfl (hop i)
  | release i fate =>
    have hc : s.registry.activeSinks = occupied s.registry + 1 := h.1
    have hr : (countSlot s (.release i fate)).registry =
        s.registry.recount (wrappingSub s.registry.activeSinks 1) := rfl
    rw [hr, Counted, activeSinks_recount, occupied_recount, wrappingSub_of_le (by omega) h.2, hc,
      Nat.add_sub_cancel]

omit [DecidableEq K] in
@[simp] theorem countSlot_holders (s : Sinks K) (op : WriterOp K) :
    (countSlot s op).holders = s.holders := by
  cases op with
  | register key fate => rw [countSlot]
  | replace i => rw [countSlot]
  | release i fate => rw [countSlot]

@[simp] theorem countSlot_get (s : Sinks K) (op : WriterOp K) (key : K) :
    (countSlot s op).registry.get key = s.registry.get key := by
  cases op with
  | register key fate => rw [countSlot, get_recount]
  | replace i => rw [countSlot]
  | release i fate => rw [countSlot, get_recount]

omit [DecidableEq K] in
/-- Kept registrations of an unchanged table. -/
theorem kept_same {s s' : Sinks K} {op : WriterOp K} (h : s'.holders = s.holders) {i : ℕ}
    {holder : Holder} (hi : s'.holders[i]? = some holder)
    (hc : holder.registration.callback = none) :
    (∃ old, s.holders[i]? = some old ∧ old.registration.callback = none) ∨
      ∃ fate, op = .release i fate := by
  rw [h] at hi
  exact Or.inl ⟨holder, hi, hc⟩

/-- Acquiring the lock. -/
theorem Law.acquire (h : Law s) {n : ℕ} {w : Writer K} (hn : s.writers[n]? = some w)
    (hpc : w.pc = .lock) (hl : s.lock = none) :
    Law { s with lock := some n, writers := s.writers.set n { w with pc := .check } } := by
  have hok := h.each hn
  have hsafe : WriterOk s.sinks { w with pc := .check } :=
    { named := hok.named
      range := hok.range
      seeks := fun hop _ => by
        obtain ⟨i, p, c, hi, hh, -⟩ := hok.seeks hop (Or.inl hpc)
        exact ⟨i, p, c, hi, hh, fun q hq => by cases hq⟩
      unmade := fun key fate hop _ => hok.unmade key fate hop (Or.inl hpc)
      empty := fun key fate p hop hq => by cases hq
      made := fun key fate hop hq => by rcases hq with hq | hq | hq <;> cases hq
      counts := fun i hop hq => by cases hq }
  have hlaw := h.toWriterLaw.update hn { w with pc := .check } (some n) rfl
    (by rw [hpc]; rfl) (HolderFrame.of_holders rfl id) (fun _ hf => hf.elim) hsafe
    (fun hne hn' => h.others (Or.inl hl) hne hn') rfl (Or.inl rfl) (kept_same rfl)
  refine ⟨hlaw, h.agreed, ?_⟩
  have hc := h.counted
  rw [show counting s = none by rw [counting, hl]; rfl] at hc
  rw [counting_set hn { w with pc := .check } (some n) rfl]
  exact hc

/-- Looking at the slot, with an entry allocated for a new type. -/
theorem Law.check (h : Law s) {n : ℕ} {w : Writer K} (hn : s.writers[n]? = some w)
    (hpc : w.pc = .check) {g : Registry K} {pc : WriterPc}
    (hg : Agreed { s.sinks with registry := g })
    (hget : ∀ {key : K} {p : ℕ}, s.sinks.registry.get key = some p → g.get key = some p)
    (hcount : Counted s.sinks.registry none → Counted g none)
    (hnext : (∃ p, pc = .store p) ∨ pc = .unlock false)
    (hseek : (∀ key fate, w.op ≠ .register key fate) → ∀ p, pc = .store p →
      ∃ i c, w.holder = some i ∧ s.sinks.holders[i]? = some ⟨⟨p, some c⟩, .live⟩)
    (hempty : ∀ key fate p, w.op = .register key fate → pc = .store p →
      g.get key = some p ∧ g.active p = none) :
    Law { s with
      sinks := { s.sinks with registry := g }
      writers := s.writers.set n { w with pc := pc } } := by
  have hok := h.each hn
  have hlock := h.lock hn (by rw [hpc]; rfl)
  have hlocked : pc.locked = true ∧ pc ≠ .count := by
    rcases hnext with ⟨p, rfl⟩ | rfl
    · exact ⟨rfl, fun hc => by cases hc⟩
    · exact ⟨rfl, fun hc => by cases hc⟩
  have hframe : HolderFrame s.sinks { s.sinks with registry := g } fun _ => False :=
    HolderFrame.of_holders rfl hget
  have hsafe : WriterOk { s.sinks with registry := g } { w with pc := pc } :=
    { named := hok.named
      range := hok.range
      seeks := fun hop hq => by
        have hstore : ∃ p, pc = .store p := by
          rcases hnext with hs | rfl
          · exact hs
          · rcases hq with hq | hq | ⟨p, hq⟩ <;> cases hq
        obtain ⟨p, rfl⟩ := hstore
        obtain ⟨i, c, hi, hh⟩ := hseek hop p rfl
        exact ⟨i, p, c, hi, hh, fun q hq => by cases hq; rfl⟩
      unmade := fun key fate hop _ => hok.unmade key fate hop (Or.inr (Or.inl hpc))
      empty := hempty
      made := fun key fate hop hq => by
        rcases hnext with ⟨p, rfl⟩ | rfl <;> rcases hq with hq | hq | hq <;> cases hq
      counts := fun i _ => hlocked.2 }
  have hlaw := h.toWriterLaw.update hn { w with pc := pc } s.lock rfl
    (by rw [hpc]; rfl) hframe (fun _ hf => hf.elim) hsafe
    (fun hne hn' => h.others (Or.inr hlock) hne hn') (by rw [if_pos hlocked.1, hlock]) (Or.inl rfl)
    (kept_same rfl)
  refine ⟨hlaw, hg, ?_⟩
  have hc := h.counted
  rw [counting_eq hn hlock, if_neg (by rw [hpc]; decide)] at hc
  rw [counting_set hn { w with pc := pc } s.lock (by rw [if_pos hlocked.1, hlock]),
    if_neg hlocked.2]
  exact hcount hc

/-- Storing a new registration's callback. -/
theorem Law.register (h : Law s) {n : ℕ} {w : Writer K} (hn : s.writers[n]? = some w) {key : K}
    {fate : Fate} {p : ℕ} (hpc : w.pc = .store p) (hop : w.op = .register key fate) :
    Law { s with
      sinks := occupySlot s.sinks p fate
      writers :=
        s.writers.set n { w with pc := .count, holder := some s.sinks.holders.length } } := by
  have hok := h.each hn
  have hlock := h.lock hn (by rw [hpc]; rfl)
  obtain ⟨hget, hempty⟩ := hok.empty key fate p hop hpc
  obtain ⟨slot, hs, -⟩ := h.agreed.wellformed.typed hget
  have hsafe : WriterOk (occupySlot s.sinks p fate)
      { w with pc := .count, holder := some s.sinks.holders.length } :=
    { named := fun i hi => by
        rcases hi with hi | ⟨fate', hi⟩
        · cases hop.symm.trans hi
        · cases hop.symm.trans hi
      range := fun i hi => by
        cases hi
        simp [occupySlot]
      seeks := fun hno _ => absurd hop (hno key fate)
      unmade := fun key' fate' _ hq => by rcases hq with hq | hq | ⟨q, hq⟩ <;> cases hq
      empty := fun key' fate' q _ hq => by cases hq
      made := fun key' fate' hop' _ => by
        cases hop.symm.trans hop'
        exact ⟨_, _, rfl, List.getElem?_concat_length, hget, fun _ hc => by cases hc⟩
      counts := fun i hi => by cases hop.symm.trans hi }
  have hframe : HolderFrame s.sinks (occupySlot s.sinks p fate) fun _ => False :=
    HolderFrame.of_append rfl id
  have hlaw := h.toWriterLaw.update hn
    { w with pc := .count, holder := some s.sinks.holders.length } s.lock rfl (by rw [hpc]; rfl)
    hframe (fun _ hf => hf.elim) hsafe
    (fun hne hn' => h.others (Or.inr hlock) hne hn') hlock (Or.inr rfl)
    (fun {i holder} hi hc => by
      rcases cell_of_append hi with hi | ⟨-, rfl⟩
      · exact Or.inl ⟨holder, hi, hc⟩
      · cases hc)
  refine ⟨hlaw, h.agreed.occupy hs hempty fate, ?_⟩
  have hc := h.counted
  rw [counting_eq hn hlock, if_neg (by rw [hpc]; exact fun e => by cases e)] at hc
  rw [counting_set hn { w with pc := .count, holder := some s.sinks.holders.length } s.lock hlock,
    if_pos rfl, hop]
  exact (congrArg (· + 1) hc).trans (occupied_swap_empty hs hempty).symm

/-- The registration a writer is about to change. -/
theorem Law.sought (h : Law s) {n i : ℕ} {w : Writer K} (hn : s.writers[n]? = some w) {p : ℕ}
    (hpc : w.pc = .store p) (hop : w.op = .replace i ∨ ∃ fate, w.op = .release i fate) :
    w.holder = some i ∧ ∃ c, s.sinks.holders[i]? = some ⟨⟨p, some c⟩, .live⟩ ∧
      s.sinks.registry.active p = some c := by
  have hok := h.each hn
  have hno : ∀ key fate, w.op ≠ .register key fate := fun key fate hr => by
    rcases hop with hop | ⟨fate', hop⟩
    · cases hr.symm.trans hop
    · cases hr.symm.trans hop
  obtain ⟨j, q, c, hj, hh, hq⟩ := hok.seeks hno (Or.inr (Or.inr ⟨p, hpc⟩))
  have hi := hok.named i hop
  cases hi.symm.trans hj
  cases hq p hpc
  exact ⟨hi, c, hh, h.agreed.registration hh rfl⟩

/-- A writer behind its store has no facts to keep but its registration. -/
theorem WriterOk.stored {s : Sinks K} {i : ℕ} {op : WriterOp K} {pc : WriterPc}
    (hop : op = .replace i ∨ ∃ fate, op = .release i fate) (hi : i < s.holders.length)
    (hpc : pc = .unlock true ∨ pc = .count ∧ ∃ fate, op = .release i fate) :
    WriterOk s ⟨op, pc, some i⟩ where
  named := fun j hj => by
    rcases hop with rfl | ⟨fate, rfl⟩ <;> rcases hj with hj | ⟨fate', hj⟩ <;> cases hj <;> rfl
  range := fun j hj => by cases hj; exact hi
  seeks := fun _ hq => by
    rcases hpc with rfl | ⟨rfl, -⟩ <;> rcases hq with hq | hq | ⟨p, hq⟩ <;> cases hq
  unmade := fun key fate hr _ => by
    rcases hop with rfl | ⟨fate', rfl⟩ <;> cases hr
  empty := fun key fate p hr _ => by
    rcases hop with rfl | ⟨fate', rfl⟩ <;> cases hr
  made := fun key fate hr _ => by
    rcases hop with rfl | ⟨fate', rfl⟩ <;> cases hr
  counts := fun j hj hc => by
    rcases hpc with rfl | ⟨-, fate, rfl⟩
    · cases hc
    · cases hj

/-- Storing a replacement. -/
theorem Law.replace (h : Law s) {n i : ℕ} {w : Writer K} (hn : s.writers[n]? = some w) {p : ℕ}
    (hpc : w.pc = .store p) (hop : w.op = .replace i) :
    Law { s with
      sinks := exchangeSlot s.sinks i p
      writers := s.writers.set n { w with pc := .unlock true, holder := some i } } := by
  have hlock := h.lock hn (by rw [hpc]; rfl)
  obtain ⟨hi, c, hh, ha⟩ := h.sought hn hpc (Or.inl hop)
  obtain ⟨slot, hs, -⟩ := slot_of_active ha
  have hlt := (List.getElem?_eq_some_iff.mp hh).1
  have hnew : ∀ m, some s.sinks.registry.nextCallback = some m →
      s.sinks.registry.nextCallback ≤ m ∧ m < (s.sinks.registry.swap p).nextCallback :=
    fun m hm => by
      cases hm
      exact ⟨Nat.le_refl _, Nat.lt_succ_self _⟩
  have hagreed :=
    h.agreed.change .live hh (slotChange_swap h.agreed.wellformed hs) hnew (Or.inl rfl)
  have hframe : HolderFrame s.sinks (exchangeSlot s.sinks i p) fun j => j = i :=
    HolderFrame.of_set rfl hh rfl id
  have hlaw := h.toWriterLaw.update hn { w with pc := .unlock true, holder := some i } s.lock rfl
    (by rw [hpc]; rfl) hframe (fun j hj => hj ▸ hi)
    (WriterOk.stored (Or.inl hop) (by rw [exchangeSlot, List.length_set]; exact hlt) (Or.inl rfl))
    (fun hne hn' => h.others (Or.inr hlock) hne hn') hlock (Or.inl hi.symm)
    (fun {j holder} hj hc => by
      rcases cell_of_set hj with ⟨rfl, rfl⟩ | ⟨-, hj⟩
      · cases hc
      · exact Or.inl ⟨holder, hj, hc⟩)
  refine ⟨hlaw, hagreed, ?_⟩
  have hc := h.counted
  rw [counting_eq hn hlock, if_neg (by rw [hpc]; exact fun e => by cases e)] at hc
  rw [counting_set hn { w with pc := .unlock true, holder := some i } s.lock hlock,
    if_neg (fun e => by cases e)]
  exact Eq.trans hc (occupied_swap ha).symm

/-- Emptying a slot. -/
theorem Law.release (h : Law s) {n i : ℕ} {w : Writer K} (hn : s.writers[n]? = some w) {p : ℕ}
    {fate : Fate} (hpc : w.pc = .store p) (hop : w.op = .release i fate) :
    Law { s with
      sinks := emptySlot s.sinks i p fate
      writers := s.writers.set n { w with pc := .count, holder := some i } } := by
  have hlock := h.lock hn (by rw [hpc]; rfl)
  obtain ⟨hi, c, hh, ha⟩ := h.sought hn hpc (Or.inr ⟨fate, hop⟩)
  obtain ⟨slot, hs, -⟩ := slot_of_active ha
  have hlt := (List.getElem?_eq_some_iff.mp hh).1
  have hagreed := h.agreed.change fate hh (slotChange_none h.agreed.wellformed hs)
    (fun m hm => by cases hm) (Or.inr ⟨rfl, rfl⟩)
  have hframe : HolderFrame s.sinks (emptySlot s.sinks i p fate) fun j => j = i :=
    HolderFrame.of_set rfl hh rfl id
  have hlaw := h.toWriterLaw.update hn { w with pc := .count, holder := some i } s.lock rfl
    (by rw [hpc]; rfl) hframe (fun j hj => hj ▸ hi)
    (WriterOk.stored (Or.inr ⟨fate, hop⟩) (by rw [emptySlot, List.length_set]; exact hlt)
      (Or.inr ⟨rfl, fate, hop⟩))
    (fun hne hn' => h.others (Or.inr hlock) hne hn') hlock (Or.inl hi.symm)
    (fun {j holder} hj hc => by
      rcases cell_of_set hj with ⟨rfl, rfl⟩ | ⟨-, hj⟩
      · exact Or.inr ⟨fate, hop⟩
      · exact Or.inl ⟨holder, hj, hc⟩)
  refine ⟨hlaw, hagreed, ?_⟩
  have hc := h.counted
  rw [counting_eq hn hlock, if_neg (by rw [hpc]; exact fun e => by cases e)] at hc
  rw [counting_set hn { w with pc := .count, holder := some i } s.lock hlock, if_pos rfl, hop]
  have ho := occupied_store_none ha
  have hle := h.agreed.wellformed.occupied_le
  have hc' : s.sinks.registry.activeSinks = occupied s.sinks.registry := hc
  exact ⟨hc'.trans ho.symm, hc'.trans_le hle⟩

/-- Changing the count. -/
theorem Law.count (h : Law s) {n : ℕ} {w : Writer K} (hn : s.writers[n]? = some w)
    (hpc : w.pc = .count) :
    Law { s with
      sinks := countSlot s.sinks w.op
      writers := s.writers.set n { w with pc := .unlock true } } := by
  have hok := h.each hn
  have hlock := h.lock hn (by rw [hpc]; rfl)
  have hno : ∀ i, w.op ≠ .replace i := fun i hop => hok.counts i hop hpc
  have hsame := countSlot_holders s.sinks w.op
  have hget := countSlot_get s.sinks w.op
  have hagreed : Agreed (countSlot s.sinks w.op) := by
    cases w.op with
    | register key fate =>
      rw [countSlot]
      exact h.agreed.recount _
    | replace i => exact h.agreed
    | release i fate =>
      rw [countSlot]
      exact h.agreed.recount _
  have hsafe : WriterOk (countSlot s.sinks w.op) { w with pc := .unlock true } :=
    { named := hok.named
      range := fun i hi => by
        rw [hsame]
        exact hok.range i hi
      seeks := fun _ hq => by rcases hq with hq | hq | ⟨p, hq⟩ <;> cases hq
      unmade := fun key fate _ hq => by rcases hq with hq | hq | ⟨p, hq⟩ <;> cases hq
      empty := fun key fate p _ hq => by cases hq
      made := fun key fate hop _ => by
        obtain ⟨i, holder, hi, hh, hg, -⟩ := hok.made key fate hop (Or.inl hpc)
        exact ⟨i, holder, hi, by rw [hsame]; exact hh, by rw [hget]; exact hg,
          fun hc => by cases hc⟩
      counts := fun i _ hc => by cases hc }
  have hframe : HolderFrame s.sinks (countSlot s.sinks w.op) fun _ => False :=
    HolderFrame.of_holders hsame fun {key p} hg => by
      rw [hget]
      exact hg
  have hlaw := h.toWriterLaw.update hn { w with pc := .unlock true } s.lock rfl (by rw [hpc]; rfl)
    hframe (fun _ hf => hf.elim) hsafe (fun hne hn' => h.others (Or.inr hlock) hne hn') hlock
    (Or.inl rfl) (kept_same hsame)
  refine ⟨hlaw, hagreed, ?_⟩
  have hc := h.counted
  rw [counting_eq hn hlock, if_pos hpc] at hc
  rw [counting_set hn { w with pc := .unlock true } s.lock hlock, if_neg (fun e => by cases e)]
  exact hc.settle h.agreed.wellformed.occupied_le hno rfl

/-- Releasing the lock. -/
theorem Law.unlock (h : Law s) {n : ℕ} {w : Writer K} (hn : s.writers[n]? = some w) {ok : Bool}
    (hpc : w.pc = .unlock ok) :
    Law { s with lock := none, writers := s.writers.set n { w with pc := .returned ok } } := by
  have hok := h.each hn
  have hlock := h.lock hn (by rw [hpc]; rfl)
  have hsafe : WriterOk s.sinks { w with pc := .returned ok } :=
    { named := hok.named
      range := hok.range
      seeks := fun _ hq => by rcases hq with hq | hq | ⟨p, hq⟩ <;> cases hq
      unmade := fun key fate _ hq => by rcases hq with hq | hq | ⟨p, hq⟩ <;> cases hq
      empty := fun key fate p _ hq => by cases hq
      made := fun key fate hop hq => by
        have ht : ok = true := by
          rcases hq with hq | hq | hq <;> cases hq
          rfl
        subst ht
        obtain ⟨i, holder, hi, hh, hg, -⟩ := hok.made key fate hop (Or.inr (Or.inl hpc))
        exact ⟨i, holder, hi, hh, hg, fun hc => by cases hc⟩
      counts := fun i _ hc => by cases hc }
  have hframe : HolderFrame s.sinks s.sinks fun _ => False := HolderFrame.of_holders rfl id
  have hlaw := h.toWriterLaw.update hn { w with pc := .returned ok } none rfl (by rw [hpc]; rfl)
    hframe (fun _ hf => hf.elim) hsafe (fun hne hn' => h.others (Or.inr hlock) hne hn') rfl
    (Or.inl rfl) (kept_same rfl)
  refine ⟨hlaw, h.agreed, ?_⟩
  have hc := h.counted
  rw [counting_eq hn hlock, if_neg (by rw [hpc]; exact fun e => by cases e)] at hc
  rw [counting_set hn { w with pc := .returned ok } none rfl, if_neg (fun e => by cases e)]
  exact hc

/-- A writer's step keeps the law. -/
theorem Law.write (h : Law s) {n : ℕ} {w : Writer K} (hn : s.writers[n]? = some w)
    (hm : WriterMove s n w s') : Law s' := by
  cases hm with
  | acquire hpc hl => exact h.acquire hn hpc hl
  | @allocate key fate p g hpc hop hg he =>
    refine h.check hn hpc (h.agreed.allocate hg) hg.mono (fun hc => ?_) (Or.inl ⟨p, rfl⟩)
      (fun hno => absurd hop (hno key fate)) fun key' fate' q hop' hq => ?_
    · have hc' : s.sinks.registry.activeSinks = occupied s.sinks.registry := hc
      exact hg.activeSinks.trans (hc'.trans hg.occupied.symm)
    · cases hop.symm.trans hop'
      cases hq
      exact ⟨hg.entry, he⟩
  | refuse hpc hop =>
    exact h.check hn hpc h.agreed id id (Or.inr rfl) (fun _ p hq => by cases hq)
      fun key' fate' q _ hq => by cases hq
  | @find p hpc hop hh =>
    refine h.check hn hpc h.agreed id id (Or.inl ⟨p, rfl⟩) (fun _ q hq => ?_)
      fun key' fate' q hop' => absurd hop' (hop key' fate')
    cases hq
    exact hh
  | register hpc hop => exact h.register hn hpc hop
  | replace hpc hop => exact h.replace hn hpc hop
  | release hpc hop => exact h.release hn hpc hop
  | count hpc => exact h.count hn hpc
  | unlock hpc => exact h.unlock hn hpc

end EdenLogger.SinkDispatch
