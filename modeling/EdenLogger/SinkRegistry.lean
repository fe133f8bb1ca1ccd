import EdenLogger.MachineWord
import EdenLogger.RunRules
import EdenLogger.ListCells

/-!
# The registry of typed sinks

Sinks are keyed by record type. A slot is allocated when a type is first
registered and never removed, so threads cache its address. Registrations,
slots, the active count and the caches hold copies of one fact: which callback
is active for a type. Callbacks stand for their allocations, so comparing them
is comparing pointers.
-/

namespace EdenLogger.SinkRegistry

open MachineWord RunRules ListCells

variable {K : Type}

/-- The slot of one type. -/
structure SinkSlot (K : Type) where
  /-- The type the slot was made for. -/
  key : K
  /-- The active callback. -/
  callback : Option ℕ

/-- A managed registration. -/
structure SinkRegistration where
  /-- Address of its slot. -/
  slot : ℕ
  /-- Its callback, until it is disabled. -/
  callback : Option ℕ
  deriving DecidableEq

/-- Why an operation fails. -/
inductive SinkError where
  | inactive
  | poisoned
  | stale
  | typeMismatch
  | alreadyInstalled
  deriving DecidableEq, Repr

/-- The error's text. -/
def SinkError.text : SinkError → String
  | .inactive => "eden_logger sink registration is inactive"
  | .poisoned => "eden_logger sink registry poisoned"
  | .stale => "eden_logger sink registration is stale"
  | .typeMismatch => "eden_logger sink registry type mismatch"
  | .alreadyInstalled => "eden_logger sink already installed"

/-- The process-wide registry. -/
structure Registry (K : Type) where
  /-- The map from types to slot addresses. -/
  sinks : List (K × ℕ)
  /-- The slots, by address. -/
  slots : List (SinkSlot K)
  /-- `ACTIVE_SINKS`. -/
  activeSinks : ℕ
  /-- The next callback's allocation. -/
  nextCallback : ℕ
  /-- Whether the lock is poisoned. -/
  poisoned : Bool

/-- The registry at process start. -/
def Registry.new (K : Type) : Registry K := ⟨[], [], 0, 0, false⟩

namespace Registry

/-- The active callback of a slot. -/
def active (g : Registry K) (p : ℕ) : Option ℕ := (g.slots[p]?).bind SinkSlot.callback

/-- Store a slot's callback. -/
def store (g : Registry K) (p : ℕ) (c : Option ℕ) : Registry K :=
  { g with slots := g.slots.modify p fun slot => { slot with callback := c } }

/-- Write `ACTIVE_SINKS`. -/
def recount (g : Registry K) (n : ℕ) : Registry K := { g with activeSinks := n }

/-- Make a fresh callback active in a slot. -/
def swap (g : Registry K) (p : ℕ) : Registry K :=
  { g.store p (some g.nextCallback) with nextCallback := g.nextCallback + 1 }

/-- Make a fresh callback active in an empty slot, and count it. -/
def activate (g : Registry K) (p : ℕ) : Registry K :=
  (g.swap p).recount (wrappingAdd g.activeSinks 1)

/-- Empty a slot, and discount it. -/
def deactivate (g : Registry K) (p : ℕ) : Registry K :=
  (g.store p none).recount (wrappingSub g.activeSinks 1)

variable [DecidableEq K]

/-- The map's entry of a type. -/
def get (g : Registry K) (key : K) : Option ℕ :=
  (g.sinks.find? fun e => decide (e.1 = key)).map Prod.snd

/-- The slot at an address, if it was made for the type. -/
def downcast (g : Registry K) (key : K) (p : ℕ) : Option (SinkSlot K) :=
  (g.slots[p]?).filter fun slot => decide (slot.key = key)

/-- The map's entry of a type, allocated if there is none. Addresses are words. -/
def entry (g : Registry K) (key : K) : Option (ℕ × Registry K) :=
  match g.get key with
  | some p => some (p, g)
  | none =>
    if g.slots.length < wordMax then
      some (g.slots.length, { g with
        sinks := g.sinks ++ [(key, g.slots.length)]
        slots := g.slots ++ [⟨key, none⟩] })
    else none

/-- The active callback of a type. -/
def installed (g : Registry K) (key : K) : Option ℕ := (g.get key).bind g.active

end Registry

variable [DecidableEq K]

/-- `register_sink`, with the registration it returns. -/
def registerSink (g : Registry K) (key : K) :
    Option (Except SinkError SinkRegistration × Registry K) :=
  if g.poisoned then some (.error .poisoned, g)
  else (g.entry key).map fun e =>
    match e.2.downcast key e.1 with
    | none => (.error .typeMismatch, e.2)
    | some slot =>
      if slot.callback.isSome then (.error .alreadyInstalled, e.2)
      else (.ok ⟨e.1, some e.2.nextCallback⟩, e.2.activate e.1)

/-- `SinkRegistration::replace`. -/
def replace (g : Registry K) (r : SinkRegistration) :
    Except SinkError Unit × SinkRegistration × Registry K :=
  match r.callback with
  | none => (.error .inactive, r, g)
  | some current =>
    if g.poisoned then (.error .poisoned, r, g)
    else if g.active r.slot = some current then
      (.ok (), { r with callback := some g.nextCallback }, g.swap r.slot)
    else (.error .stale, r, g)

/-- `SinkRegistration::disable`. -/
def disable (g : Registry K) (r : SinkRegistration) : Bool × SinkRegistration × Registry K :=
  match r.callback with
  | none => (false, r, g)
  | some current =>
    if g.poisoned then (false, r, g)
    else if g.active r.slot = some current then
      (true, { r with callback := none }, g.deactivate r.slot)
    else (false, { r with callback := none }, g)

/-- The part of `cached_sink` under the read lock. -/
def resolveSink (g : Registry K) (cache : List (K × ℕ)) (key : K) : Option ℕ × List (K × ℕ) :=
  if g.poisoned then (none, cache)
  else
    match (g.get key).filter fun p => (g.downcast key p).isSome with
    | none => (none, cache)
    | some p => (some p, cache ++ [(key, p)])

/-- `cached_sink` on a thread with a cache. -/
def cachedSink (g : Registry K) (cache : List (K × ℕ)) (key : K) : Option ℕ × List (K × ℕ) :=
  match cache.find? fun e => decide (e.1 = key) with
  | some e => (some e.2, cache)
  | none => resolveSink g cache key

/-! ## Sequences of operations -/

/-- What became of a registration value. -/
inductive Fate where
  | live
  | dropped
  | forgotten
  deriving DecidableEq

/-- A registration value that was handed out. -/
structure Holder where
  /-- Its fields. -/
  registration : SinkRegistration
  /-- Whether its owner still has it. -/
  fate : Fate

/-- The registry with the registrations handed out and the threads' caches. -/
structure Sinks (K : Type) where
  registry : Registry K
  /-- Registrations by number. -/
  holders : List Holder
  /-- Caches by thread. -/
  caches : List (List (K × ℕ))
  /-- Registrations that released their slot, a history variable. -/
  released : List ℕ

/-- Process start. -/
def Sinks.new (K : Type) : Sinks K := ⟨.new K, [], [], []⟩

/-- Operations. -/
inductive SinkOp (K : Type) where
  | register (key : K)
  | install (key : K)
  | replace (i : ℕ)
  | disable (i : ℕ)
  | drop (i : ℕ)
  /-- A thread appears, with an empty cache. -/
  | spawn
  /-- A thread looks a type up. -/
  | lookup (thread : ℕ) (key : K)

/-- A registration its owner still has. -/
def Sinks.live (s : Sinks K) (i : ℕ) : Option SinkRegistration :=
  ((s.holders[i]?).filter fun h => decide (h.fate = .live)).map Holder.registration

/-- Register, and keep or forget the registration. -/
def handOut (s : Sinks K) (key : K) (fate : Fate) : Option (Bool × Sinks K) :=
  (registerSink s.registry key).map fun e =>
    match e.1 with
    | .ok r => (true, { s with registry := e.2, holders := s.holders ++ [⟨r, fate⟩] })
    | .error _ => (false, { s with registry := e.2 })

/-- Disable a registration and leave it to its owner or drop it. -/
def putBack (s : Sinks K) (i : ℕ) (fate : Fate) (r : SinkRegistration) : Bool × Sinks K :=
  let e := disable s.registry r
  (e.1, { s with
    registry := e.2.2
    holders := s.holders.set i ⟨e.2.1, fate⟩
    released := if e.1 then s.released ++ [i] else s.released })

/-- One operation, and whether it succeeded. -/
def operate (s : Sinks K) : SinkOp K → Option (Bool × Sinks K)
  | .register key => handOut s key .live
  | .install key => handOut s key .forgotten
  | .replace i => (s.live i).map fun r =>
    let e := replace s.registry r
    (e.1.isOk, { s with registry := e.2.2, holders := s.holders.set i ⟨e.2.1, .live⟩ })
  | .disable i => (s.live i).map (putBack s i .live)
  | .drop i => (s.live i).map fun r => (true, (putBack s i .dropped r).2)
  | .spawn => some (true, { s with caches := s.caches ++ [[]] })
  | .lookup thread key => (s.caches[thread]?).map fun cache =>
    let e := cachedSink s.registry cache key
    (e.1.isSome, { s with caches := s.caches.set thread e.2 })

/-- One operation. -/
def step (s : Sinks K) (op : SinkOp K) : Option (Sinks K) := (operate s op).map Prod.snd

/-! ## The registry by itself -/

/-- One for an occupied slot. -/
def occupancy (slot : SinkSlot K) : ℕ := if slot.callback.isSome then 1 else 0

/-- Slots with a callback. -/
def occupied (g : Registry K) : ℕ := (g.slots.map occupancy).sum

/-- The map and the slots agree. -/
structure Wellformed (g : Registry K) : Prop where
  /-- No thread panicked under the lock. -/
  clean : g.poisoned = false
  /-- Addresses are words. -/
  bound : g.slots.length ≤ wordMax
  /-- An entry's slot was made for its type. -/
  typed : ∀ {key : K} {p : ℕ}, g.get key = some p → ∃ slot, g.slots[p]? = some slot ∧ slot.key = key
  /-- Every slot is the entry of its type. -/
  owned : ∀ {p : ℕ} {slot : SinkSlot K}, g.slots[p]? = some slot → g.get slot.key = some p

variable {g : Registry K}

theorem Wellformed.downcast (h : Wellformed g) {key : K} {p : ℕ} (hp : g.get key = some p) :
    ∃ slot, g.downcast key p = some slot ∧ g.slots[p]? = some slot := by
  obtain ⟨slot, hs, hk⟩ := h.typed hp
  exact ⟨slot, by rw [Registry.downcast, hs, Option.filter_some, if_pos (by simpa using hk)], hs⟩

omit [DecidableEq K] in
/-- Storing replaces the callback of one slot. -/
theorem slots_store {p : ℕ} {slot : SinkSlot K} (hp : g.slots[p]? = some slot) (c : Option ℕ) :
    (g.store p c).slots = g.slots.set p { slot with callback := c } := by
  refine List.ext_getElem? fun q => ?_
  rw [Registry.store, List.getElem?_modify]
  by_cases hq : p = q
  · subst hq
    rw [List.getElem?_set_self (List.getElem?_eq_some_iff.mp hp).1, hp]
    simp
  · rw [List.getElem?_set_ne hq]
    simp [hq]

omit [DecidableEq K] in
/-- Storing a callback is reading it back. -/
theorem active_store {p : ℕ} {slot : SinkSlot K} (hp : g.slots[p]? = some slot) (c : Option ℕ)
    (q : ℕ) : (g.store p c).active q = if q = p then c else g.active q := by
  rw [Registry.active, slots_store hp]
  by_cases hq : q = p
  · rw [hq, List.getElem?_set_self (List.getElem?_eq_some_iff.mp hp).1, if_pos rfl]
    rfl
  · rw [List.getElem?_set_ne (Ne.symm hq), if_neg hq]
    rfl

omit [DecidableEq K] in
/-- Storing a callback changes the number of occupied slots by the slot's. -/
theorem occupied_store {p : ℕ} {slot : SinkSlot K} (hp : g.slots[p]? = some slot)
    (c : Option ℕ) :
    occupied (g.store p c) + occupancy slot = occupied g + if c.isSome then 1 else 0 := by
  obtain ⟨m, hm, hb⟩ := sum_map_split occupancy hp
  have hn : occupancy { slot with callback := c } = if c.isSome then 1 else 0 := rfl
  have hs := hb { slot with callback := c }
  rw [hn] at hs
  rw [occupied, occupied, slots_store hp]
  omega

theorem Wellformed.store (h : Wellformed g) (p : ℕ) (c : Option ℕ) :
    Wellformed (g.store p c) where
  clean := h.clean
  bound := by
    rw [Registry.store, List.length_modify]
    exact h.bound
  typed := fun {key q} hq => by
    obtain ⟨slot, hs, hk⟩ := h.typed (show g.get key = some q from hq)
    refine ⟨if p = q then { slot with callback := c } else slot, ?_, ?_⟩
    · rw [Registry.store, List.getElem?_modify, hs]
      split <;> rfl
    · split <;> exact hk
  owned := fun {q slot} hq => by
    rw [Registry.store, List.getElem?_modify, Option.map_eq_map, Option.map_eq_some_iff] at hq
    obtain ⟨slot', hs, rfl⟩ := hq
    have := h.owned hs
    split <;> exact this

/-- What allocating an entry does. -/
structure Grown (g : Registry K) (key : K) (p : ℕ) (g' : Registry K) : Prop where
  /-- The registry still agrees with itself. -/
  wellformed : Wellformed g'
  /-- The entry is there. -/
  entry : g'.get key = some p
  /-- A slot that was there keeps its callback, a new one has none. -/
  active : ∀ q, g'.active q = g.active q
  /-- So the slots are as occupied as before. -/
  occupied : occupied g' = occupied g
  /-- Entries stay. -/
  mono : ∀ {key' : K} {q : ℕ}, g.get key' = some q → g'.get key' = some q
  /-- The count is not touched. -/
  activeSinks : g'.activeSinks = g.activeSinks
  /-- No callback is allocated. -/
  nextCallback : g'.nextCallback = g.nextCallback
  /-- A type without an entry gets an empty slot, and an entry stays what it was. -/
  fresh : g.get key = some p ∧ g' = g ∨ g.get key = none ∧ g.active p = none

/-- The map after an entry was added behind the others. -/
theorem get_append (g : Registry K) (key key' : K) (p : ℕ) (slots : List (SinkSlot K))
    (hk : g.get key = none) :
    ({ g with sinks := g.sinks ++ [(key, p)], slots := slots } : Registry K).get key' =
      if key' = key then some p else g.get key' := by
  simp only [Registry.get, List.find?_append] at hk ⊢
  by_cases he : key' = key
  · subst he
    rw [Option.map_eq_none_iff] at hk
    simp [hk]
  · simp [he, Ne.symm he]

theorem Wellformed.grow (h : Wellformed g) {key : K} {p : ℕ} {g' : Registry K}
    (he : g.entry key = some (p, g')) : Grown g key p g' := by
  unfold Registry.entry at he
  split at he
  · rename_i q hq
    cases he
    exact ⟨h, hq, fun _ => rfl, rfl, id, rfl, rfl, Or.inl ⟨hq, rfl⟩⟩
  · rename_i hq
    split_ifs at he with hlt
    cases he
    have hget := fun key' =>
      get_append g key key' g.slots.length (g.slots ++ [⟨key, none⟩]) hq
    have hold : ∀ {key' : K} {q : ℕ}, g.get key' = some q →
        ({ g with
            sinks := g.sinks ++ [(key, g.slots.length)]
            slots := g.slots ++ [⟨key, none⟩] } : Registry K).get key' = some q := by
      intro key' q hk
      rw [hget, if_neg (fun e => by rw [e, hq] at hk; cases hk)]
      exact hk
    refine ⟨⟨h.clean, ?_, ?_, ?_⟩, ?_, ?_, ?_, hold, rfl, rfl, Or.inr ⟨hq, ?_⟩⟩
    · simp only [List.length_append, List.length_singleton]
      exact hlt
    · intro key' q hk
      rw [hget] at hk
      split_ifs at hk with he
      · cases hk
        exact ⟨⟨key, none⟩, by simp, he.symm⟩
      · obtain ⟨slot, hs, hkey⟩ := h.typed hk
        refine ⟨slot, ?_, hkey⟩
        rw [List.getElem?_append_left (List.getElem?_eq_some_iff.mp hs).1]
        exact hs
    · intro q slot hs
      rcases cell_of_append hs with hs | ⟨rfl, rfl⟩
      · exact hold (h.owned hs)
      · rw [hget, if_pos rfl]
    · rw [hget, if_pos rfl]
    · intro q
      simp only [Registry.active]
      rcases Nat.lt_trichotomy q g.slots.length with hlt | rfl | hgt
      · rw [List.getElem?_append_left hlt]
      · simp
      · have hlen : (g.slots ++ [(⟨key, none⟩ : SinkSlot K)]).length ≤ q := by
          rw [List.length_append, List.length_singleton]
          exact hgt
        rw [List.getElem?_eq_none hlen, List.getElem?_eq_none hgt.le]
    · simp [SinkRegistry.occupied, occupancy]
    · rw [Registry.active, List.getElem?_eq_none (Nat.le_refl _)]
      rfl

/-! ## Operations on one slot -/

omit [DecidableEq K] in
/-- An active callback is in a slot. -/
theorem slot_of_active {p c : ℕ} (h : g.active p = some c) :
    ∃ slot, g.slots[p]? = some slot ∧ occupancy slot = 1 := by
  obtain ⟨slot, hs, hc⟩ := Option.bind_eq_some_iff.mp h
  exact ⟨slot, hs, by rw [occupancy, hc, Option.isSome_some, if_pos rfl]⟩

omit [DecidableEq K] in
/-- An empty slot counts for nothing. -/
theorem occupancy_of_empty {p : ℕ} {slot : SinkSlot K} (hs : g.slots[p]? = some slot)
    (h : g.active p = none) : occupancy slot = 0 := by
  rw [Registry.active, hs] at h
  rw [occupancy, show slot.callback = none from h]
  rfl

omit [DecidableEq K] in
/-- No more slots are occupied than there are. -/
theorem occupied_le (g : Registry K) : occupied g ≤ g.slots.length := by
  unfold occupied
  induction g.slots with
  | nil => exact Nat.le_refl 0
  | cons slot rest ih =>
    have : occupancy slot ≤ 1 := by
      unfold occupancy
      split <;> omega
    simp only [List.map_cons, List.sum_cons, List.length_cons]
    omega

omit [DecidableEq K] in
@[simp] theorem activeSinks_recount (g : Registry K) (n : ℕ) : (g.recount n).activeSinks = n := rfl

omit [DecidableEq K] in
@[simp] theorem slots_recount (g : Registry K) (n : ℕ) : (g.recount n).slots = g.slots := rfl

omit [DecidableEq K] in
@[simp] theorem active_recount (g : Registry K) (n : ℕ) : (g.recount n).active = g.active := rfl

omit [DecidableEq K] in
@[simp] theorem occupied_recount (g : Registry K) (n : ℕ) :
    occupied (g.recount n) = occupied g := rfl

omit [DecidableEq K] in
@[simp] theorem next_recount (g : Registry K) (n : ℕ) :
    (g.recount n).nextCallback = g.nextCallback := rfl

@[simp] theorem get_recount (g : Registry K) (n : ℕ) (key : K) :
    (g.recount n).get key = g.get key := rfl

theorem Wellformed.recount (h : Wellformed g) (n : ℕ) : Wellformed (g.recount n) :=
  ⟨h.clean, h.bound, h.typed, h.owned⟩

theorem Wellformed.swap (h : Wellformed g) (p : ℕ) : Wellformed (g.swap p) :=
  have hs := h.store p (some g.nextCallback)
  ⟨hs.clean, hs.bound, hs.typed, hs.owned⟩

omit [DecidableEq K] in
/-- A slot that becomes occupied adds one. -/
theorem occupied_swap_empty {p : ℕ} {slot : SinkSlot K} (hs : g.slots[p]? = some slot)
    (he : g.active p = none) : occupied (g.swap p) = occupied g + 1 := by
  have ho := occupied_store hs (some g.nextCallback)
  rw [occupancy_of_empty hs he, Option.isSome_some, if_pos rfl] at ho
  exact ho

omit [DecidableEq K] in
/-- A slot that changes hands adds nothing. -/
theorem occupied_swap {p c : ℕ} (he : g.active p = some c) :
    occupied (g.swap p) = occupied g := by
  obtain ⟨slot, hs, ho⟩ := slot_of_active he
  have hstore := occupied_store hs (some g.nextCallback)
  rw [ho, Option.isSome_some, if_pos rfl] at hstore
  exact Nat.add_right_cancel hstore

omit [DecidableEq K] in
/-- A slot that becomes empty takes one away. -/
theorem occupied_store_none {p c : ℕ} (he : g.active p = some c) :
    occupied (g.store p none) + 1 = occupied g := by
  obtain ⟨slot, hs, ho⟩ := slot_of_active he
  have hstore := occupied_store hs none
  rwa [ho, Option.isSome_none, if_neg Bool.false_ne_true, Nat.add_zero] at hstore

omit [DecidableEq K] in
/-- An active callback is counted. -/
theorem occupied_pos {p c : ℕ} (he : g.active p = some c) : 1 ≤ occupied g := by
  have := occupied_store_none he
  omega

omit [DecidableEq K] in
/-- The callbacks of two slots are both counted. -/
theorem occupied_two {p p' c c' : ℕ} (he : g.active p = some c) (he' : g.active p' = some c')
    (hne : p' ≠ p) : 2 ≤ occupied g := by
  obtain ⟨slot, hs, -⟩ := slot_of_active he
  have hrest : (g.store p none).active p' = some c' := by
    rw [active_store hs, if_neg hne]
    exact he'
  have h1 := occupied_store_none he
  have h2 := occupied_pos hrest
  omega

/-- No more slots are occupied than there are words. -/
theorem Wellformed.occupied_le (h : Wellformed g) : occupied g ≤ wordMax :=
  (SinkRegistry.occupied_le g).trans h.bound

/-- An exact addition to the count. -/
theorem wrappingAdd_of_lt {n : ℕ} (h : n + 1 ≤ wordMax) : wrappingAdd n 1 = n + 1 := by
  unfold wrappingAdd size
  unfold wordMax at h
  omega

/-- Making a callback active in an empty slot counts it. -/
theorem count_activate (h : Wellformed g) (hc : g.activeSinks = occupied g) {p : ℕ}
    {slot : SinkSlot K} (hs : g.slots[p]? = some slot) (he : g.active p = none) :
    (g.activate p).activeSinks = occupied (g.activate p) := by
  have ho := occupied_swap_empty hs he
  have hle := (h.swap p).occupied_le
  rw [Registry.activate, activeSinks_recount, occupied_recount, hc,
    wrappingAdd_of_lt (by omega), ho]

/-- Emptying a slot discounts it, and there was something to discount. -/
theorem count_deactivate (h : Wellformed g) (hc : g.activeSinks = occupied g) {p c : ℕ}
    (he : g.active p = some c) :
    1 ≤ g.activeSinks ∧ (g.deactivate p).activeSinks = occupied (g.deactivate p) := by
  have ho := occupied_store_none he
  have hle := h.occupied_le
  refine ⟨by omega, ?_⟩
  rw [Registry.deactivate, activeSinks_recount, occupied_recount,
    wrappingSub_of_le (by omega) (by omega)]
  omega

/-- Registering takes an empty slot of the type, or fails and changes nothing. -/
theorem registerSink_cases (h : Wellformed g) {key : K}
    {e : Except SinkError SinkRegistration × Registry K} (he : registerSink g key = some e) :
    (∃ p g', Grown g key p g' ∧ g.active p = none ∧ g.installed key = none ∧
      e = (.ok ⟨p, some g.nextCallback⟩, g'.activate p)) ∨
    (g.installed key ≠ none ∧ e = (.error .alreadyInstalled, g)) := by
  rw [registerSink, h.clean, if_neg Bool.false_ne_true, Option.map_eq_some_iff] at he
  obtain ⟨⟨p, g'⟩, hentry, rfl⟩ := he
  have hg := h.grow hentry
  obtain ⟨slot, hd, hs⟩ := hg.wellformed.downcast hg.entry
  have hactive : g.active p = slot.callback := by
    rw [← hg.active, Registry.active, hs]
    rfl
  simp only [hd]
  split
  · rename_i hc
    refine Or.inr ?_
    rcases hg.fresh with ⟨hget, rfl⟩ | ⟨-, hnone⟩
    · refine ⟨fun hn => ?_, rfl⟩
      rw [Registry.installed, hget, Option.bind_some, hactive] at hn
      rw [hn] at hc
      cases hc
    · rw [hactive] at hnone
      rw [hnone] at hc
      cases hc
  · rename_i hc
    have hnone : slot.callback = none := by simpa using hc
    refine Or.inl ⟨p, g', hg, hactive.trans hnone, ?_, by rw [hg.nextCallback]⟩
    rcases hg.fresh with ⟨hget, -⟩ | ⟨hget, -⟩
    · rw [Registry.installed, hget, Option.bind_some, hactive, hnone]
    · rw [Registry.installed, hget]
      rfl

end EdenLogger.SinkRegistry
