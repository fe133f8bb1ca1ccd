import EdenLogger.SinkRegistry
import Mathlib.Data.List.Nodup

/-!
# Registrations, caches and the registry agree

Every operation finds the four copies of the active callbacks equal and leaves
them so. The count is exact, a slot changes hands only through the one
registration that holds it, and an address that a thread cached stays the
address of its type's slot.
-/

namespace EdenLogger.SinkRegistry

open MachineWord RunRules ListCells

variable {K : Type} [DecidableEq K] {g : Registry K}

/-! ## What each copy holds -/

/-- A change of one slot's callback, with what it leaves alone. -/
structure SlotChange (g : Registry K) (p : ℕ) (c : Option ℕ) (g' : Registry K) : Prop where
  wellformed : Wellformed g'
  /-- The slot has the new callback, the others their own. -/
  active : ∀ q, g'.active q = if q = p then c else g.active q
  /-- The map is the same. -/
  get : ∀ key, g'.get key = g.get key
  /-- Callbacks are allocated forward. -/
  next : g.nextCallback ≤ g'.nextCallback

/-- A fresh callback becomes active in a slot. -/
theorem slotChange_swap (h : Wellformed g) {p : ℕ} {slot : SinkSlot K}
    (hs : g.slots[p]? = some slot) : SlotChange g p (some g.nextCallback) (g.swap p) where
  wellformed := h.swap p
  active := active_store hs _
  get := fun _ => rfl
  next := Nat.le_succ _

/-- A slot becomes empty. -/
theorem slotChange_none (h : Wellformed g) {p : ℕ} {slot : SinkSlot K}
    (hs : g.slots[p]? = some slot) : SlotChange g p none (g.store p none) where
  wellformed := h.store p none
  active := active_store hs none
  get := fun _ => rfl
  next := Nat.le_refl _

/-- Map, slots, registrations and caches agree. -/
structure Agreed (s : Sinks K) : Prop where
  wellformed : Wellformed s.registry
  /-- A registration's callback is the active one of its slot. -/
  registration : ∀ {i : ℕ} {h : Holder} {c : ℕ}, s.holders[i]? = some h →
    h.registration.callback = some c → s.registry.active h.registration.slot = some c
  /-- An occupied slot is held. -/
  held : ∀ {p c : ℕ}, s.registry.active p = some c →
    ∃ (i : ℕ) (h : Holder), s.holders[i]? = some h ∧ h.registration = ⟨p, some c⟩
  /-- Two registrations do not hold one callback. -/
  distinct : ∀ {i j : ℕ} {h h' : Holder} {c : ℕ}, s.holders[i]? = some h →
    s.holders[j]? = some h' → h.registration.callback = some c →
    h'.registration.callback = some c → i = j
  /-- Held callbacks were allocated. -/
  fresh : ∀ {i : ℕ} {h : Holder} {c : ℕ}, s.holders[i]? = some h →
    h.registration.callback = some c → c < s.registry.nextCallback
  /-- No registration released its slot twice. -/
  released : s.released.Nodup
  /-- A registration that released its slot has no callback. -/
  spent : ∀ i ∈ s.released, ∃ h, s.holders[i]? = some h ∧ h.registration.callback = none
  /-- A cached address is the map's. -/
  cached : ∀ cache ∈ s.caches, ∀ e ∈ cache, s.registry.get e.1 = some e.2

/-- The copies agree, and the count is the number of occupied slots. -/
structure Consistent (s : Sinks K) : Prop extends Agreed s where
  /-- `ACTIVE_SINKS` counts the slots that hold a callback. -/
  count : s.registry.activeSinks = occupied s.registry

/-- What an operation does, with whether it succeeds. -/
inductive SinkMove (s : Sinks K) : SinkOp K → Bool → Sinks K → Prop
  | idle {op : SinkOp K} {ok : Bool} : SinkMove s op ok s
  | registered {op : SinkOp K} {key : K} {p : ℕ} {g : Registry K} {fate : Fate}
      (hop : op = .register key ∧ fate = .live ∨ op = .install key ∧ fate = .forgotten)
      (hg : Grown s.registry key p g) (he : s.registry.active p = none)
      (hi : s.registry.installed key = none) :
      SinkMove s op true
        { s with
          registry := g.activate p
          holders := s.holders ++ [⟨⟨p, some s.registry.nextCallback⟩, fate⟩] }
  | replaced {i p c : ℕ} (hl : s.live i = some ⟨p, some c⟩)
      (ha : s.registry.active p = some c) :
      SinkMove s (.replace i) true
        { s with
          registry := s.registry.swap p
          holders := s.holders.set i ⟨⟨p, some s.registry.nextCallback⟩, .live⟩ }
  | released {op : SinkOp K} {i p c : ℕ} {fate : Fate}
      (hop : op = .disable i ∧ fate = .live ∨ op = .drop i ∧ fate = .dropped)
      (hl : s.live i = some ⟨p, some c⟩) (ha : s.registry.active p = some c) :
      SinkMove s op true
        { s with
          registry := s.registry.deactivate p
          holders := s.holders.set i ⟨⟨p, none⟩, fate⟩
          released := s.released ++ [i] }
  | discarded {i p : ℕ} (hl : s.live i = some ⟨p, none⟩) :
      SinkMove s (.drop i) true { s with holders := s.holders.set i ⟨⟨p, none⟩, .dropped⟩ }
  | spawned : SinkMove s .spawn true { s with caches := s.caches ++ [[]] }
  | cached {thread p : ℕ} {key : K} {cache : List (K × ℕ)}
      (hc : s.caches[thread]? = some cache) (hp : s.registry.get key = some p) :
      SinkMove s (.lookup thread key) true
        { s with caches := s.caches.set thread (cache ++ [(key, p)]) }

omit [DecidableEq K] in
/-- A live registration is one that was handed out. -/
theorem holder_of_live {s : Sinks K} {i : ℕ} {r : SinkRegistration} (h : s.live i = some r) :
    s.holders[i]? = some ⟨r, .live⟩ := by
  obtain ⟨holder, hh, rfl⟩ := Option.map_eq_some_iff.mp h
  rw [Option.filter_eq_some_iff] at hh
  obtain ⟨hi, hf⟩ := hh
  rw [hi]
  obtain ⟨r, fate⟩ := holder
  simp only [decide_eq_true_eq] at hf
  rw [hf]

/-- A locked lookup finds nothing for a type without an entry. -/
theorem resolveSink_none (h : Wellformed g) {key : K} (hp : g.get key = none)
    (cache : List (K × ℕ)) : resolveSink g cache key = (none, cache) := by
  rw [resolveSink, h.clean, if_neg Bool.false_ne_true, hp]
  rfl

/-- A locked lookup finds the map's entry and caches it. -/
theorem resolveSink_some (h : Wellformed g) {key : K} {p : ℕ} (hp : g.get key = some p)
    (cache : List (K × ℕ)) : resolveSink g cache key = (some p, cache ++ [(key, p)]) := by
  obtain ⟨slot, hd, -⟩ := h.downcast hp
  rw [resolveSink, h.clean, if_neg Bool.false_ne_true, hp, Option.filter_some, hd,
    Option.isSome_some, if_pos rfl]

/-- A live registration that is not spent is active. -/
theorem Agreed.active_of_live {s : Sinks K} (h : Agreed s) {i p c : ℕ}
    (hl : s.live i = some ⟨p, some c⟩) : s.registry.active p = some c :=
  h.registration (holder_of_live hl) rfl

/-- Every operation on a consistent state does one of these things. -/
theorem Consistent.move {s s' : Sinks K} (h : Consistent s) {op : SinkOp K} {ok : Bool}
    (hop : operate s op = some (ok, s')) : SinkMove s op ok s' := by
  have hand : ∀ {key : K} {fate : Fate}, handOut s key fate = some (ok, s') →
      (op = .register key ∧ fate = .live ∨ op = .install key ∧ fate = .forgotten) →
      SinkMove s op ok s' := by
    intro key fate hh hfate
    rw [handOut, Option.map_eq_some_iff] at hh
    obtain ⟨e, he, hr⟩ := hh
    rcases registerSink_cases h.wellformed he with ⟨p, g, hg, ha, hi, rfl⟩ | ⟨-, rfl⟩
    · cases hr
      exact .registered hfate hg ha hi
    · cases hr
      exact .idle
  cases op with
  | register key => exact hand hop (Or.inl ⟨rfl, rfl⟩)
  | install key => exact hand hop (Or.inr ⟨rfl, rfl⟩)
  | replace i =>
    simp only [operate, Option.map_eq_some_iff] at hop
    obtain ⟨⟨p, callback⟩, hl, hr⟩ := hop
    cases callback with
    | none =>
      have hself := set_self (holder_of_live hl)
      simp only [replace, hself, Except.isOk, Except.toBool] at hr
      cases hr
      exact .idle
    | some c =>
      have ha := h.active_of_live hl
      simp only [replace, h.wellformed.clean, ha, Bool.false_eq_true, if_false, if_true,
        Except.isOk, Except.toBool] at hr
      cases hr
      exact .replaced hl ha
  | disable i =>
    simp only [operate, Option.map_eq_some_iff] at hop
    obtain ⟨⟨p, callback⟩, hl, hr⟩ := hop
    cases callback with
    | none =>
      have hself := set_self (holder_of_live hl)
      simp only [putBack, disable, hself, Bool.false_eq_true, if_false] at hr
      cases hr
      exact .idle
    | some c =>
      have ha := h.active_of_live hl
      simp only [putBack, disable, h.wellformed.clean, ha, Bool.false_eq_true, if_false,
        if_true] at hr
      cases hr
      exact .released (Or.inl ⟨rfl, rfl⟩) hl ha
  | drop i =>
    simp only [operate, Option.map_eq_some_iff] at hop
    obtain ⟨⟨p, callback⟩, hl, hr⟩ := hop
    cases callback with
    | none =>
      simp only [putBack, disable, Bool.false_eq_true, if_false] at hr
      cases hr
      exact .discarded hl
    | some c =>
      have ha := h.active_of_live hl
      simp only [putBack, disable, h.wellformed.clean, ha, Bool.false_eq_true, if_false,
        if_true] at hr
      cases hr
      exact .released (Or.inr ⟨rfl, rfl⟩) hl ha
  | spawn =>
    cases hop
    exact .spawned
  | lookup thread key =>
    simp only [operate, Option.map_eq_some_iff] at hop
    obtain ⟨cache, hc, hr⟩ := hop
    have hself : s.caches.set thread cache = s.caches := set_self hc
    unfold cachedSink at hr
    split at hr
    · cases hr
      rw [hself]
      exact .idle
    · cases hp : s.registry.get key with
      | none =>
        rw [resolveSink_none h.wellformed hp] at hr
        cases hr
        rw [hself]
        exact .idle
      | some p =>
        rw [resolveSink_some h.wellformed hp] at hr
        cases hr
        exact .cached hc hp

/-! ## Every sequence keeps the copies equal -/

/-- A holder whose callback changes together with its slot's. -/
theorem Agreed.change {s : Sinks K} (h : Agreed s) {i p c : ℕ} {c' : Option ℕ}
    {fate : Fate} {g : Registry K} {released : List ℕ} (fate' : Fate)
    (hi : s.holders[i]? = some ⟨⟨p, some c⟩, fate⟩) (hg : SlotChange s.registry p c' g)
    (hc : ∀ n, c' = some n → s.registry.nextCallback ≤ n ∧ n < g.nextCallback)
    (hr : released = s.released ∨ released = s.released ++ [i] ∧ c' = none) :
    Agreed { s with
      registry := g
      holders := s.holders.set i ⟨⟨p, c'⟩, fate'⟩
      released := released } := by
  have hactive := h.registration hi rfl
  have hlt := (List.getElem?_eq_some_iff.mp hi).1
  -- another holder with a callback has another slot
  have hother : ∀ {j : ℕ} {holder : Holder} {n : ℕ}, j ≠ i → s.holders[j]? = some holder →
      holder.registration.callback = some n → holder.registration.slot ≠ p := by
    intro j holder n hne hj hn hp
    have ha := h.registration hj hn
    rw [hp, hactive] at ha
    cases ha
    exact hne (h.distinct hj hi hn rfl)
  have hspent : i ∉ s.released := fun hm => by
    obtain ⟨holder, hh, hn⟩ := h.spent i hm
    rw [hi] at hh
    cases hh
    cases hn
  constructor
  case wellformed => exact hg.wellformed
  case registration =>
    intro j holder n hj hn
    rw [hg.active]
    rcases cell_of_set hj with ⟨rfl, rfl⟩ | ⟨hne, hj⟩
    · rw [if_pos rfl]
      exact hn
    · rw [if_neg (hother hne hj hn)]
      exact h.registration hj hn
  case held =>
    intro q n hq
    rw [hg.active] at hq
    split_ifs at hq with he
    · subst he
      subst hq
      exact ⟨i, ⟨⟨q, some n⟩, fate'⟩, List.getElem?_set_self hlt, rfl⟩
    · obtain ⟨j, holder, hj, hreg⟩ := h.held hq
      have hne : i ≠ j := fun e => he (by
        rw [← e, hi] at hj
        cases hj
        cases hreg
        rfl)
      exact ⟨j, holder, (List.getElem?_set_ne hne).trans hj, hreg⟩
  case distinct =>
    intro j k holder holder' n hj hk hn hn'
    rcases cell_of_set hj with ⟨rfl, rfl⟩ | ⟨-, hj'⟩
    · rcases cell_of_set hk with ⟨rfl, -⟩ | ⟨-, hk'⟩
      · rfl
      · exact absurd (h.fresh hk' hn') (Nat.not_lt.mpr (hc n hn).1)
    · rcases cell_of_set hk with ⟨rfl, rfl⟩ | ⟨-, hk'⟩
      · exact absurd (h.fresh hj' hn) (Nat.not_lt.mpr (hc n hn').1)
      · exact h.distinct hj' hk' hn hn'
  case fresh =>
    intro j holder n hj hn
    rcases cell_of_set hj with ⟨rfl, rfl⟩ | ⟨-, hj⟩
    · exact (hc n hn).2
    · exact (h.fresh hj hn).trans_le hg.next
  case released =>
    rcases hr with rfl | ⟨rfl, -⟩
    · exact h.released
    · exact List.nodup_append.mpr ⟨h.released, List.nodup_singleton i, fun a ha b hb => by
        rw [List.mem_singleton.mp hb]
        exact fun e => hspent (e ▸ ha)⟩
  case spent =>
    intro j hj
    have hcase : j ∈ s.released ∨ j = i ∧ c' = none := by
      rcases hr with rfl | ⟨rfl, hn⟩
      · exact Or.inl hj
      · exact (List.mem_append.mp hj).imp_right fun hj => ⟨List.mem_singleton.mp hj, hn⟩
    rcases hcase with hj | ⟨rfl, rfl⟩
    · obtain ⟨holder, hh, hn⟩ := h.spent j hj
      have hne : i ≠ j := fun e => hspent (e ▸ hj)
      exact ⟨holder, (List.getElem?_set_ne hne).trans hh, hn⟩
    · exact ⟨_, List.getElem?_set_self hlt, rfl⟩
  case cached =>
    intro cache hm e he
    rw [hg.get]
    exact h.cached cache hm e he

/-- An allocated entry. -/
theorem Agreed.allocate {s : Sinks K} (h : Agreed s) {key : K} {p : ℕ} {g : Registry K}
    (hg : Grown s.registry key p g) : Agreed { s with registry := g } :=
  { h with
    wellformed := hg.wellformed
    registration := fun hj hn => by
      rw [hg.active]
      exact h.registration hj hn
    held := fun hq => by
      rw [hg.active] at hq
      exact h.held hq
    fresh := fun hj hn => by
      rw [hg.nextCallback]
      exact h.fresh hj hn
    cached := fun cache hm e he => hg.mono (h.cached cache hm e he) }

/-- A new holder of a slot that was empty. -/
theorem Agreed.occupy {s : Sinks K} (h : Agreed s) {p : ℕ} {slot : SinkSlot K}
    (hs : s.registry.slots[p]? = some slot) (he : s.registry.active p = none) (fate : Fate) :
    Agreed { s with
      registry := s.registry.swap p
      holders := s.holders ++ [⟨⟨p, some s.registry.nextCallback⟩, fate⟩] } := by
  have hch := slotChange_swap h.wellformed hs
  constructor
  case wellformed => exact hch.wellformed
  case registration =>
    intro j holder n hj hn
    rw [hch.active]
    rcases cell_of_append hj with hj | ⟨rfl, rfl⟩
    · have ha := h.registration hj hn
      rw [if_neg (fun e => by rw [e, he] at ha; cases ha)]
      exact ha
    · rw [if_pos rfl]
      exact hn
  case held =>
    intro q n hq
    rw [hch.active] at hq
    split_ifs at hq with hqp
    · subst hqp
      cases hq
      exact ⟨s.holders.length, ⟨⟨q, some s.registry.nextCallback⟩, fate⟩, by simp, rfl⟩
    · obtain ⟨j, holder, hj, hreg⟩ := h.held hq
      exact ⟨j, holder, by
        rw [List.getElem?_append_left (List.getElem?_eq_some_iff.mp hj).1]
        exact hj, hreg⟩
  case distinct =>
    intro j k holder holder' n hj hk hn hn'
    rcases cell_of_append hj with hj | ⟨rfl, rfl⟩
    · rcases cell_of_append hk with hk | ⟨rfl, rfl⟩
      · exact h.distinct hj hk hn hn'
      · cases hn'
        exact absurd (h.fresh hj hn) (Nat.lt_irrefl _)
    · rcases cell_of_append hk with hk | ⟨rfl, -⟩
      · cases hn
        exact absurd (h.fresh hk hn') (Nat.lt_irrefl _)
      · rfl
  case fresh =>
    intro j holder n hj hn
    rcases cell_of_append hj with hj | ⟨-, rfl⟩
    · exact Nat.lt_succ_of_lt (h.fresh hj hn)
    · cases hn
      exact Nat.lt_succ_self _
  case released => exact h.released
  case spent =>
    intro j hj
    obtain ⟨holder, hh, hn⟩ := h.spent j hj
    exact ⟨holder, by
      rw [List.getElem?_append_left (List.getElem?_eq_some_iff.mp hh).1]
      exact hh, hn⟩
  case cached =>
    intro cache hm e hmem
    rw [hch.get]
    exact h.cached cache hm e hmem

/-- The count is no part of the agreement. -/
theorem Agreed.recount {s : Sinks K} (h : Agreed s) (n : ℕ) :
    Agreed { s with registry := s.registry.recount n } :=
  { h with wellformed := h.wellformed.recount n }

/-- A registration that is dropped without a callback. -/
theorem Agreed.discard {s : Sinks K} (h : Agreed s) {i p : ℕ} {fate : Fate}
    (hi : s.holders[i]? = some ⟨⟨p, none⟩, fate⟩) (fate' : Fate) :
    Agreed { s with holders := s.holders.set i ⟨⟨p, none⟩, fate'⟩ } := by
  -- the holder keeps its registration
  have hsame : ∀ {j : ℕ} {holder : Holder},
      (s.holders.set i ⟨⟨p, none⟩, fate'⟩)[j]? = some holder →
      ∃ old, s.holders[j]? = some old ∧ old.registration = holder.registration := by
    intro j holder hj
    exact exists_cell_of_set (b := ⟨⟨p, none⟩, fate'⟩)
      (p := fun old => old.registration = holder.registration) hi id ⟨holder, hj, rfl⟩
  have hback : ∀ {j : ℕ} {old : Holder}, s.holders[j]? = some old →
      ∃ holder, (s.holders.set i ⟨⟨p, none⟩, fate'⟩)[j]? = some holder ∧
        holder.registration = old.registration := by
    intro j old hj
    exact exists_cell_set (b := ⟨⟨p, none⟩, fate'⟩)
      (p := fun holder => holder.registration = old.registration) hi id ⟨old, hj, rfl⟩
  exact
    { h with
      registration := fun hj hn => by
        obtain ⟨old, ho, hr⟩ := hsame hj
        rw [← hr] at hn ⊢
        exact h.registration ho hn
      held := fun hq => by
        obtain ⟨j, old, ho, hreg⟩ := h.held hq
        obtain ⟨holder, hh, hr⟩ := hback ho
        exact ⟨j, holder, hh, hr.trans hreg⟩
      distinct := fun hj hk hn hn' => by
        obtain ⟨old, ho, hr⟩ := hsame hj
        obtain ⟨old', ho', hr'⟩ := hsame hk
        rw [← hr] at hn
        rw [← hr'] at hn'
        exact h.distinct ho ho' hn hn'
      fresh := fun hj hn => by
        obtain ⟨old, ho, hr⟩ := hsame hj
        rw [← hr] at hn
        exact h.fresh ho hn
      spent := fun j hj => by
        obtain ⟨old, ho, hn⟩ := h.spent j hj
        obtain ⟨holder, hh, hr⟩ := hback ho
        exact ⟨holder, hh, by rw [hr, hn]⟩ }

/-- A thread caches the map's entry. -/
theorem Agreed.cache {s : Sinks K} (h : Agreed s) {thread p : ℕ} {key : K}
    {cache : List (K × ℕ)} (hc : s.caches[thread]? = some cache)
    (hp : s.registry.get key = some p) :
    Agreed { s with caches := s.caches.set thread (cache ++ [(key, p)]) } := by
  refine { h with cached := forall_mem_set h.cached fun e he => ?_ }
  rcases List.mem_append.mp he with he | he
  · exact h.cached _ (List.mem_of_getElem? hc) e he
  · rw [List.mem_singleton.mp he]
    exact hp

/-- A thread appears. -/
theorem Agreed.spawn {s : Sinks K} (h : Agreed s) :
    Agreed { s with caches := s.caches ++ [[]] } := by
  refine { h with cached := fun cache hm => ?_ }
  rcases List.mem_append.mp hm with hm | hm
  · exact h.cached cache hm
  · rw [List.mem_singleton.mp hm]
    intro e he
    cases he

/-- Every operation keeps the copies equal. -/
theorem Consistent.step {s s' : Sinks K} (h : Consistent s) {op : SinkOp K} {ok : Bool}
    (hm : SinkMove s op ok s') : Consistent s' := by
  cases hm with
  | idle => exact h
  | @registered op key p g fate hop hg he hi =>
    obtain ⟨slot, hs, -⟩ := hg.wellformed.typed hg.entry
    have hcount : g.activeSinks = occupied g := by rw [hg.activeSinks, h.count, hg.occupied]
    have hempty := (hg.active p).trans he
    have ho :=
      ((h.toAgreed.allocate hg).occupy hs hempty fate).recount (wrappingAdd g.activeSinks 1)
    rw [hg.nextCallback] at ho
    exact ⟨ho, count_activate hg.wellformed hcount hs hempty⟩
  | @replaced i p c hl ha =>
    obtain ⟨slot, hs, -⟩ := slot_of_active ha
    have hch := slotChange_swap h.wellformed hs
    have hnew : ∀ n, some s.registry.nextCallback = some n →
        s.registry.nextCallback ≤ n ∧ n < (s.registry.swap p).nextCallback := fun n hn => by
      cases hn
      exact ⟨Nat.le_refl _, Nat.lt_succ_self _⟩
    exact ⟨h.toAgreed.change .live (holder_of_live hl) hch hnew (Or.inl rfl),
      h.count.trans (occupied_swap ha).symm⟩
  | @released op i p c fate hop hl ha =>
    obtain ⟨slot, hs, -⟩ := slot_of_active ha
    have hch := slotChange_none h.wellformed hs
    have hr := (h.toAgreed.change fate (holder_of_live hl) hch (fun n hn => by cases hn)
      (Or.inr ⟨rfl, rfl⟩)).recount (wrappingSub s.registry.activeSinks 1)
    exact ⟨hr, (count_deactivate h.wellformed h.count ha).2⟩
  | discarded hl => exact ⟨h.toAgreed.discard (holder_of_live hl) .dropped, h.count⟩
  | spawned => exact ⟨h.toAgreed.spawn, h.count⟩
  | cached hc hp => exact ⟨h.toAgreed.cache hc hp, h.count⟩

/-- At process start. -/
theorem Consistent.new (K : Type) [DecidableEq K] : Consistent (Sinks.new K) where
  wellformed := ⟨rfl, Nat.zero_le _, fun hp => (by cases hp), fun hp => (by cases hp)⟩
  count := rfl
  registration := fun hj => by cases hj
  held := fun hp => by cases hp
  distinct := fun hj => by cases hj
  fresh := fun hj => by cases hj
  released := List.nodup_nil
  spent := fun j hj => by cases hj
  cached := fun cache hm => by cases hm

/-- The copies are equal after every sequence of operations. -/
theorem consistent {ok : Sinks K → SinkOp K → Prop} {s : Sinks K}
    (h : ReachWhile step ok (Sinks.new K) s) : Consistent s :=
  h.invariant (Consistent.new K) fun t u op ht _ hu => by
    obtain ⟨⟨b, u'⟩, hop, rfl⟩ := Option.map_eq_some_iff.mp hu
    exact ht.step (ht.move hop)

/-! ## What callers may rely on -/

/-- A lookup returns the map's entry, cached or not. -/
theorem Agreed.cachedSink {s : Sinks K} (h : Agreed s) {cache : List (K × ℕ)}
    (hc : cache ∈ s.caches) (key : K) :
    (cachedSink s.registry cache key).1 = s.registry.get key := by
  unfold SinkRegistry.cachedSink
  split
  · rename_i e he
    have hkey : e.1 = key := by simpa using List.find?_some he
    rw [← hkey, h.cached cache hc e (List.mem_of_find?_eq_some he)]
  · cases hg : s.registry.get key with
    | none => rw [resolveSink_none h.wellformed hg]
    | some p => rw [resolveSink_some h.wellformed hg]

/-- A registration is replaced as long as it was not disabled. -/
theorem Consistent.replace_iff {s : Sinks K} (h : Consistent s) {i : ℕ} {r : SinkRegistration}
    (hl : s.live i = some r) : (replace s.registry r).1 = .ok () ↔ r.callback ≠ none := by
  obtain ⟨p, callback⟩ := r
  cases callback with
  | none => simp [replace]
  | some c => simp [replace, h.wellformed.clean, h.active_of_live hl]

/-- A registration releases its slot as long as it was not disabled. -/
theorem Consistent.disable_iff {s : Sinks K} (h : Consistent s) {i : ℕ} {r : SinkRegistration}
    (hl : s.live i = some r) : (disable s.registry r).1 = true ↔ r.callback ≠ none := by
  obtain ⟨p, callback⟩ := r
  cases callback with
  | none => simp [disable]
  | some c => simp [disable, h.wellformed.clean, h.active_of_live hl]

/-- Entries stay. -/
theorem get_of_run {ok : Sinks K → SinkOp K → Prop} {s t : Sinks K} (h : Consistent s)
    (hr : ReachWhile step ok s t) {key : K} {p : ℕ} (hp : s.registry.get key = some p) :
    t.registry.get key = some p := by
  have hboth : Consistent t ∧ t.registry.get key = some p := by
    refine hr.invariant (I := fun t => Consistent t ∧ t.registry.get key = some p) ⟨h, hp⟩ ?_
    rintro t u op ⟨ht, hp⟩ - hu
    obtain ⟨⟨b, u'⟩, hop, rfl⟩ := Option.map_eq_some_iff.mp hu
    have hm := ht.move hop
    refine ⟨ht.step hm, ?_⟩
    cases hm with
    | registered hfate hg he hi => exact hg.mono hp
    | _ => exact hp
  exact hboth.2

/-- What the registry promises. -/
structure RegistrySound (s : Sinks K) : Prop where
  /-- `ACTIVE_SINKS` counts the slots that hold a callback. -/
  count : s.registry.activeSinks = occupied s.registry
  /-- An occupied slot is held by exactly one registration with the active callback. -/
  holder : ∀ p c, s.registry.active p = some c →
    ∃! i : ℕ, (s.holders[i]?).map Holder.registration = some ⟨p, some c⟩
  /-- The callback a registration stores is the active one. -/
  registration : ∀ (i p c : ℕ), (s.holders[i]?).map Holder.registration = some ⟨p, some c⟩ →
    s.registry.active p = some c
  /-- Registering succeeds exactly if the slot is empty. -/
  register : ∀ key ok s', operate s (.register key) = some (ok, s') ∨
    operate s (.install key) = some (ok, s') → (ok = true ↔ s.registry.installed key = none)
  /-- Replacing succeeds exactly if the registration was not disabled. -/
  replace : ∀ i r, s.live i = some r →
    ((replace s.registry r).1 = .ok () ↔ r.callback ≠ none)
  /-- So does releasing the slot, and the count does not underflow. -/
  disable : ∀ i r, s.live i = some r →
    ((disable s.registry r).1 = true ↔ r.callback ≠ none) ∧
      ((disable s.registry r).1 = true → 1 ≤ s.registry.activeSinks)
  /-- No registration released its slot twice. -/
  released : s.released.Nodup
  /-- A failed operation changes nothing. -/
  failed : ∀ op s', operate s op = some (false, s') → s' = s
  /-- A thread's lookup returns the map's entry. -/
  cached : ∀ cache ∈ s.caches, ∀ key, (cachedSink s.registry cache key).1 = s.registry.get key
  /-- An entry's slot was made for its type. -/
  typed : ∀ key p, s.registry.get key = some p → (s.registry.downcast key p).isSome

/-- A consistent registry keeps its promises. -/
theorem Consistent.sound {s : Sinks K} (h : Consistent s) : RegistrySound s where
  count := h.count
  holder := fun p c hp => by
    obtain ⟨i, holder, hi, hr⟩ := h.held hp
    have hself : (s.holders[i]?).map Holder.registration = some ⟨p, some c⟩ := by
      rw [hi, Option.map_some, hr]
    refine ⟨i, hself, fun j hj => ?_⟩
    obtain ⟨holder', hj, hr'⟩ := Option.map_eq_some_iff.mp hj
    exact h.distinct hj hi (by rw [hr']) (by rw [hr])
  registration := fun i p c hi => by
    obtain ⟨holder, hi, hr⟩ := Option.map_eq_some_iff.mp hi
    have ha := h.registration (c := c) hi (by rw [hr])
    rwa [hr] at ha
  register := fun key ok s' hop => by
    have hhand : ∃ fate, handOut s key fate = some (ok, s') := by
      rcases hop with hop | hop
      · exact ⟨_, hop⟩
      · exact ⟨_, hop⟩
    obtain ⟨fate, hhand⟩ := hhand
    rw [handOut, Option.map_eq_some_iff] at hhand
    obtain ⟨e, he, hr⟩ := hhand
    rcases registerSink_cases h.wellformed he with ⟨p, g, -, -, hi, rfl⟩ | ⟨hi, rfl⟩
    · cases hr
      exact ⟨fun _ => hi, fun _ => rfl⟩
    · cases hr
      exact ⟨fun hf => (by cases hf), fun hn => absurd hn hi⟩
  replace := fun i r hl => h.replace_iff hl
  disable := fun i r hl => ⟨h.disable_iff hl, fun hd => by
    obtain ⟨p, callback⟩ := r
    cases callback with
    | none => exact absurd rfl ((h.disable_iff hl).mp hd)
    | some c => exact (count_deactivate h.wellformed h.count (h.active_of_live hl)).1⟩
  released := h.released
  failed := fun op s' hop => by
    cases h.move hop with
    | idle => rfl
  cached := fun cache hc key => h.cachedSink hc key
  typed := fun key p hp => by
    obtain ⟨slot, hd, -⟩ := h.wellformed.downcast hp
    rw [hd]
    rfl

/-- After every sequence of operations on any types the registry keeps its
promises, and the slots it has it keeps. -/
theorem registry_sound {s : Sinks K} (h : Reach step (Sinks.new K) s) :
    RegistrySound s ∧ ∀ t, Reach step s t → ∀ key p, s.registry.get key = some p →
      t.registry.get key = some p :=
  ⟨(consistent h).sound, fun _ ht _ _ hp => get_of_run (consistent h) ht hp⟩

/-- A sink that is replaced, disabled twice and installed again, next to one
of another type. -/
def reinstalling : List (SinkOp ℕ) :=
  [.spawn, .register 7, .install 9, .lookup 0 7, .replace 0, .disable 0, .disable 0, .register 7,
    .lookup 0 7]

/-- The slot of type seven has its third callback, and the cache still names it. -/
theorem registry_sound_reinstalled : ∃ s : Sinks ℕ, Reach step (Sinks.new ℕ) s ∧
    RegistrySound s ∧ s.registry.activeSinks = 2 ∧ s.registry.installed 7 = some 3 ∧
    s.released = [0] ∧ s.caches = [[(7, 0)]] := by
  obtain ⟨s, hs, hp⟩ := exists_reach step (Sinks.new ℕ) reinstalling
    (fun s => decide (s.registry.activeSinks = 2 ∧ s.registry.installed 7 = some 3 ∧
      s.released = [0] ∧ s.caches = [[(7, 0)]])) (by decide +kernel)
  exact ⟨s, hs, (registry_sound hs).1, of_decide_eq_true hp⟩

end EdenLogger.SinkRegistry
