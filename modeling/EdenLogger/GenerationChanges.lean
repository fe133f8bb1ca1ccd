import EdenLogger.ProcessMoves
import EdenLogger.HandleProgram

/-!
# Changes of generations

A handle's registration is the active one of its slot, and belongs to the
generation the handle names, as long as nobody began to take it down. Other
code cannot reach it. So a replacement never fails, and a failed
reconfiguration or installation leaves at most a generation that was given up
before anyone used it.
-/

namespace EdenLogger.GenerationChanges

open MachineWord RunRules ExporterConfig GenerationState GenerationStep SinkRegistry
open ExporterProcess GenerationMoves GenerationFrames ListCells ProcessMoves HandleProgram

variable {K L : Type} [DecidableEq K] {p p' : Process K L}

/-! ## What a use of the registry leaves alone -/

/-- Two slots do not have one callback. -/
theorem active_unique {s : Sinks K} (h : Agreed s) {q q' c : ℕ}
    (hq : s.registry.active q = some c) (hq' : s.registry.active q' = some c) : q = q' := by
  obtain ⟨i, holder, hi, hr⟩ := h.held hq
  obtain ⟨j, holder', hj, hr'⟩ := h.held hq'
  have hij := h.distinct hi hj (by rw [hr]) (by rw [hr'])
  subst hij
  cases hi.symm.trans hj
  rw [hr] at hr'
  cases hr'
  rfl

/-- What an operation leaves alone, if it does not touch a registration. -/
structure SinkFrame (s s' : Sinks K) (touched : ℕ → Prop) : Prop where
  /-- Callbacks are allocated forward. -/
  next : s.registry.nextCallback ≤ s'.registry.nextCallback
  /-- Entries stay. -/
  get : ∀ {key : K} {q : ℕ}, s.registry.get key = some q → s'.registry.get key = some q
  /-- Only fresh callbacks become active. -/
  active : ∀ {q c : ℕ}, c < s.registry.nextCallback → s'.registry.active q = some c →
    s.registry.active q = some c
  /-- Other registrations are the same. -/
  holder : ∀ {i : ℕ} {holder : Holder}, ¬ touched i → s.holders[i]? = some holder →
    s'.holders[i]? = some holder

/-- The registrations an operation is about. -/
def touches (op : SinkOp K) (i : ℕ) : Prop := op = .replace i ∨ op = .disable i ∨ op = .drop i

/-- A change of one slot activates fresh callbacks only. -/
theorem active_of_change {g g' : Registry K} {q c : ℕ} {c' : Option ℕ} (hc : SlotChange g q c' g')
    (hnew : ∀ n, c' = some n → g.nextCallback ≤ n) {q' : ℕ} (hlt : c < g.nextCallback)
    (ha : g'.active q' = some c) : g.active q' = some c := by
  rw [hc.active] at ha
  split_ifs at ha with hq
  · exact absurd (hnew c ha) (Nat.not_le.mpr hlt)
  · exact ha

/-- The count does not matter to a slot's change. -/
theorem SlotChange.recount {g g' : Registry K} {q : ℕ} {c : Option ℕ} (hc : SlotChange g q c g')
    (n : ℕ) : SlotChange g q c (g'.recount n) where
  wellformed := hc.wellformed.recount n
  active := by
    rw [active_recount]
    exact hc.active
  get := by
    intro key
    rw [get_recount]
    exact hc.get key
  next := by
    rw [next_recount]
    exact hc.next

/-- Every operation keeps to the registration it is about. -/
theorem SinkMove.frame {s s' : Sinks K} {op : SinkOp K} {ok : Bool} (hm : SinkMove s op ok s')
    (h : Agreed s) : SinkFrame s s' (touches op) := by
  have hset : ∀ {i j : ℕ} {holder new : Holder}, ¬ touches op j → touches op i →
      s.holders[j]? = some holder → (s.holders.set i new)[j]? = some holder := by
    intro i j holder new hj hi hh
    have hne : i ≠ j := fun he => hj (he ▸ hi)
    exact (List.getElem?_set_ne hne).trans hh
  cases hm with
  | idle => exact ⟨Nat.le_refl _, id, fun _ ha => ha, fun _ hi => hi⟩
  | @registered op key slot g fate hop hg he hi =>
    obtain ⟨cell, hs, -⟩ := hg.wellformed.typed hg.entry
    have hc : SlotChange g slot (some g.nextCallback) (g.activate slot) :=
      SlotChange.recount (slotChange_swap hg.wellformed hs) _
    refine ⟨hg.nextCallback.symm.trans_le hc.next, fun hp => ?_, fun hlt ha => ?_, fun _ hj =>
      (List.getElem?_append_left (List.getElem?_eq_some_iff.mp hj).1).trans hj⟩
    · exact (hc.get _).trans (hg.mono hp)
    · rw [← hg.active]
      exact active_of_change hc (fun n hn => (Option.some.inj hn).le)
        (hlt.trans_eq hg.nextCallback.symm) ha
  | @replaced i slot c hl ha =>
    obtain ⟨cell, hs, -⟩ := slot_of_active ha
    have hc := slotChange_swap h.wellformed hs
    exact ⟨hc.next, id, active_of_change hc fun n hn => (Option.some.inj hn).le,
      fun hj => hset hj (Or.inl rfl)⟩
  | @released op i slot c fate hop hl ha =>
    obtain ⟨cell, hs, -⟩ := slot_of_active ha
    have hc : SlotChange s.registry slot none (s.registry.deactivate slot) :=
      SlotChange.recount (slotChange_none h.wellformed hs) _
    refine ⟨hc.next, fun hp => (hc.get _).trans hp, fun hlt ha =>
      active_of_change hc (fun n hn => by cases hn) hlt ha, fun hj => hset hj ?_⟩
    rcases hop with ⟨rfl, -⟩ | ⟨rfl, -⟩
    · exact Or.inr (Or.inl rfl)
    · exact Or.inr (Or.inr rfl)
  | discarded hl =>
    exact ⟨Nat.le_refl _, id, fun _ ha => ha, fun hj => hset hj (Or.inr (Or.inr rfl))⟩
  | spawned => exact ⟨Nat.le_refl _, id, fun _ ha => ha, fun _ hi => hi⟩
  | cached hc hp => exact ⟨Nat.le_refl _, id, fun _ ha => ha, fun _ hi => hi⟩

/-! ## What a generation keeps -/

omit [DecidableEq K] in
/-- Only the step that takes a callback down retires it. -/
theorem retired_of_move {x : Exporter L} {s s' : State L} {a : GenerationStep.Action L}
    (hm : Move x s a s')
    (hno : a = .control → s.control.program.head? ≠ some .unregister) :
    s'.world.retired = s.world.retired := by
  cases hm with
  | producer hi hm => exact (producer_frame hm).retired
  | worker ha hm => exact (worker_frame hm).retired
  | flush hj hm => rw [(flush_world hm).1]
  | @control op rest hp hr =>
    have hop : op ≠ .unregister := by
      rintro rfl
      rw [hp] at hno
      exact hno rfl rfl
    cases op with
    | unregister => exact absurd rfl hop
    | storeShuttingDown =>
      simp only [controlStep]
      split <;> rfl
    | _ => rfl
  | _ => rfl

omit [DecidableEq K] in
/-- Only a command's beginning sets the command. -/
theorem command_of_move {x : Exporter L} {s s' : State L} {a : GenerationStep.Action L}
    (hm : Move x s a s') (hno : ∀ c, a ≠ .command c) :
    s'.control.command = s.control.command := by
  cases hm with
  | @command c hc hf => exact absurd rfl (hno c)
  | control hp hr => exact control_command _ _ _
  | _ => rfl

/-- A generation's place in the process. -/
structure SameRole (gen gen' : Generation K L) : Prop where
  key : gen'.key = gen.key
  exporter : gen'.exporter = gen.exporter
  callback : gen'.callback = gen.callback
  retired : gen'.state.world.retired = gen.state.world.retired
  command : gen'.state.control.command = gen.state.control.command

omit [DecidableEq K] in
theorem SameRole.refl (gen : Generation K L) : SameRole gen gen := ⟨rfl, rfl, rfl, rfl, rfl⟩

omit [DecidableEq K] in
/-- A step of a generation's own keeps its place. -/
theorem sameRole_run {gen : Generation K L} {a : GenerationStep.Action L} {s : State L}
    (hown : ownStep p gen a = true) (hs : Move gen.exporter gen.state a s) :
    SameRole gen (withState gen s) := by
  refine ⟨rfl, rfl, rfl, retired_of_move hs fun ha => ?_, command_of_move hs fun c ha => ?_⟩
  · subst ha
    simpa [ownStep] using hown
  · subst ha
    cases hown

/-! ## Handles, registrations and generations -/

/-- A handle's registration is active, with the callback of its generation. -/
def Mounted (p : Process K L) (handle : ExporterHandle K) (i : ℕ) : Prop :=
  ∃ gen slot c, p.generations[handle.shared]? = some gen ∧ gen.key = handle.key ∧
    gen.callback = some c ∧ gen.state.world.retired = false ∧
    p.sinks.holders[i]? = some ⟨⟨slot, some c⟩, .live⟩ ∧
    p.sinks.registry.get handle.key = some slot

/-- An open handle names one generation, which no command has reached. -/
structure Open (p : Process K L) (handle : ExporterHandle K) : Prop where
  collector : handle.collector = handle.shared
  worker : handle.worker = some handle.shared
  registration : ∃ i, handle.registration = some i
  command : ∀ {gen : Generation K L}, p.generations[handle.shared]? = some gen →
    gen.state.control.command = none

/-- Handles, registrations and generations fit together. -/
structure HandlesSound (p : Process K L) : Prop where
  consistent : Consistent p.sinks
  /-- A registration that was not taken down is active. -/
  mounted : ∀ {h i : ℕ} {handle : ExporterHandle K}, p.handles[h]? = some handle →
    handle.registration = some i → Mounted p handle i
  /-- An open handle has one. -/
  opened : ∀ {h : ℕ} {handle : ExporterHandle K}, p.handles[h]? = some handle →
    handle.consumed = false → Open p handle
  /-- A registration that was taken down retired its generation. -/
  released : ∀ {h : ℕ} {handle : ExporterHandle K} {gen : Generation K L},
    p.handles[h]? = some handle → handle.registration = none →
    p.generations[handle.shared]? = some gen → gen.state.world.retired = true
  /-- Handles name generations that were prepared. -/
  range : ∀ {h : ℕ} {handle : ExporterHandle K}, p.handles[h]? = some handle →
    handle.shared < p.generations.length
  /-- Two handles do not name one generation. -/
  distinct : ∀ {h h' : ℕ} {handle handle' : ExporterHandle K}, p.handles[h]? = some handle →
    p.handles[h']? = some handle' → handle.shared = handle'.shared → h = h'
  /-- Callbacks of generations were allocated. -/
  fresh : ∀ {g c : ℕ} {gen : Generation K L}, p.generations[g]? = some gen →
    gen.callback = some c → c < p.sinks.registry.nextCallback
  /-- Two generations do not have one callback. -/
  injective : ∀ {g g' c : ℕ} {gen gen' : Generation K L}, p.generations[g]? = some gen →
    p.generations[g']? = some gen' → gen.callback = some c → gen'.callback = some c → g = g'
  /-- The callback of a retired generation is in no slot. -/
  retired : ∀ {g c q : ℕ} {gen : Generation K L}, p.generations[g]? = some gen →
    gen.callback = some c → gen.state.world.retired = true →
    p.sinks.registry.active q ≠ some c

/-- What a step leaves alone that changes no handle. -/
structure ProcessFrame (p p' : Process K L) : Prop where
  handles : p'.handles = p.handles
  consistent : Consistent p'.sinks
  sinks : SinkFrame p.sinks p'.sinks fun i =>
    ∀ handle ∈ p.handles, handle.registration ≠ some i
  /-- Generations keep their places. -/
  generation : ∀ {g : ℕ} {gen : Generation K L}, p.generations[g]? = some gen →
    ∃ gen', p'.generations[g]? = some gen' ∧ SameRole gen gen'
  /-- New ones have no callback. -/
  back : ∀ {g : ℕ} {gen' : Generation K L}, p'.generations[g]? = some gen' →
    gen'.callback = none ∨ ∃ gen, p.generations[g]? = some gen ∧ SameRole gen gen'

/-- A step that changes no handle keeps everything together. -/
theorem HandlesSound.frame (h : HandlesSound p) (hf : ProcessFrame p p') : HandlesSound p' where
  consistent := hf.consistent
  mounted := fun {n i handle} hh hr => by
    rw [hf.handles] at hh
    obtain ⟨gen, slot, c, hgen, hkey, hc, hret, hi, hget⟩ := h.mounted hh hr
    obtain ⟨gen', hgen', hsame⟩ := hf.generation hgen
    refine ⟨gen', slot, c, hgen', hsame.key.trans hkey, hsame.callback.trans hc,
      hsame.retired.trans hret, hf.sinks.holder (fun hno => ?_) hi, hf.sinks.get hget⟩
    exact hno handle (List.mem_of_getElem? hh) hr
  opened := fun {n handle} hh hopen => by
    rw [hf.handles] at hh
    have ho := h.opened hh hopen
    obtain ⟨i, hr⟩ := ho.registration
    obtain ⟨gen, slot, c, hgen, -⟩ := h.mounted hh hr
    obtain ⟨gen', hgen', hsame⟩ := hf.generation hgen
    refine ⟨ho.collector, ho.worker, ho.registration, fun hg => ?_⟩
    cases hgen'.symm.trans hg
    exact hsame.command.trans (ho.command hgen)
  released := fun {n handle gen'} hh hr hg => by
    rw [hf.handles] at hh
    have hgen := List.getElem?_eq_getElem (h.range hh)
    obtain ⟨gen'', hgen', hsame⟩ := hf.generation hgen
    cases hgen'.symm.trans hg
    exact hsame.retired.trans (h.released hh hr hgen)
  range := fun {n handle} hh => by
    rw [hf.handles] at hh
    obtain ⟨gen', hgen', -⟩ := hf.generation (List.getElem?_eq_getElem (h.range hh))
    exact (List.getElem?_eq_some_iff.mp hgen').1
  distinct := fun hh hh' => by
    rw [hf.handles] at hh hh'
    exact h.distinct hh hh'
  fresh := fun hg hc => by
    rcases hf.back hg with hn | ⟨gen, hgen, hsame⟩
    · rw [hn] at hc
      cases hc
    · exact (h.fresh hgen (hsame.callback.symm.trans hc)).trans_le hf.sinks.next
  injective := fun hg hg' hc hc' => by
    rcases hf.back hg with hn | ⟨gen, hgen, hsame⟩
    · rw [hn] at hc
      cases hc
    rcases hf.back hg' with hn | ⟨gen', hgen', hsame'⟩
    · rw [hn] at hc'
      cases hc'
    exact h.injective hgen hgen' (hsame.callback.symm.trans hc) (hsame'.callback.symm.trans hc')
  retired := fun hg hc hret ha => by
    rcases hf.back hg with hn | ⟨gen, hgen, hsame⟩
    · rw [hn] at hc
      cases hc
    have hc0 := hsame.callback.symm.trans hc
    exact h.retired hgen hc0 (hsame.retired.symm.trans hret)
      (hf.sinks.active (h.fresh hgen hc0) ha)

/-- Nothing changes in the registry. -/
theorem SinkFrame.refl (s : Sinks K) (touched : ℕ → Prop) : SinkFrame s s touched :=
  ⟨Nat.le_refl _, id, fun _ ha => ha, fun _ hi => hi⟩

/-- One generation changes and keeps its place. -/
theorem ProcessFrame.set {g : ℕ} {gen gen' : Generation K L} (hgen : p.generations[g]? = some gen)
    (hset : p'.generations = p.generations.set g gen') (hh : p'.handles = p.handles)
    (hc : Consistent p'.sinks)
    (hs : SinkFrame p.sinks p'.sinks fun i => ∀ handle ∈ p.handles, handle.registration ≠ some i)
    (hsame : SameRole gen gen') : ProcessFrame p p' where
  handles := hh
  consistent := hc
  sinks := hs
  generation := fun {g' old} hg => by
    rw [hset]
    by_cases he : g = g'
    · subst he
      cases hgen.symm.trans hg
      exact ⟨gen', List.getElem?_set_self (List.getElem?_eq_some_iff.mp hg).1, hsame⟩
    · exact ⟨old, (List.getElem?_set_ne he).trans hg, SameRole.refl old⟩
  back := fun {g' new} hg => Or.inr <| by
    rw [hset] at hg
    rcases cell_of_set hg with ⟨rfl, rfl⟩ | ⟨-, hg⟩
    · exact ⟨gen, hgen, hsame⟩
    · exact ⟨new, hg, SameRole.refl new⟩

/-- A use of the registry by others keeps to registrations that no handle has. -/
theorem sinkFrame_of_move (h : HandlesSound p) {op : SinkOp K} {ok : Bool} {s : Sinks K}
    (hm : SinkMove p.sinks op ok s) (hown : owned p op = false) :
    SinkFrame p.sinks s fun i => ∀ handle ∈ p.handles, handle.registration ≠ some i := by
  have hf := SinkMove.frame hm h.consistent.toAgreed
  refine ⟨hf.next, hf.get, hf.active, fun {i holder} hi hh => hf.holder (fun ht => hi ?_) hh⟩
  intro handle hmem hreg
  have howned : owned p op = true := by
    rcases ht with rfl | rfl | rfl <;>
      exact List.any_eq_true.mpr ⟨handle, hmem, decide_eq_true hreg⟩
  rw [hown] at howned
  cases howned

/-! ## Steps of the handles -/

omit [DecidableEq K] in
/-- A registration its owner still has. -/
theorem live_of_holder {s : Sinks K} {i : ℕ} {r : SinkRegistration}
    (h : s.holders[i]? = some ⟨r, .live⟩) : s.live i = some r := by
  rw [Sinks.live, h]
  rfl

/-- What brings a new generation up: a handle that names it, with a fresh
callback in the slot of its type, in the place of the handle's old generation
if it had one. -/
structure Mounting (p p' : Process K L) (n : ℕ) (new : ExporterHandle K) : Prop where
  consistent : Consistent p'.sinks
  /-- Only the handle's own registration changes. -/
  sinks : SinkFrame p.sinks p'.sinks fun i =>
    ∃ old, p.handles[n]? = some old ∧ old.registration = some i
  next : p.sinks.registry.nextCallback < p'.sinks.registry.nextCallback
  /-- The handle is new, the others are the same. -/
  handle : ∀ {m : ℕ} {handle : ExporterHandle K}, p'.handles[m]? = some handle →
    m = n ∧ handle = new ∨ m ≠ n ∧ p.handles[m]? = some handle
  shared : new.shared = p.generations.length
  opened : new.collector = new.shared ∧ new.worker = some new.shared
  /-- Its registration is active. -/
  active : ∃ i slot, new.registration = some i ∧
    p'.sinks.holders[i]? = some ⟨⟨slot, some p.sinks.registry.nextCallback⟩, .live⟩ ∧
    p'.sinks.registry.get new.key = some slot
  length : p'.generations.length = p.generations.length + 1
  generation : ∃ x, p'.generations[p.generations.length]? =
    some (preparedGeneration p new.key x (some p.sinks.registry.nextCallback))
  /-- Generations of other handles are the same. -/
  keep : ∀ {g : ℕ} {gen : Generation K L}, p.generations[g]? = some gen →
    (∀ old, p.handles[n]? = some old → old.shared ≠ g) → p'.generations[g]? = some gen
  /-- A generation that is retired now has its callback in no slot. -/
  back : ∀ {g : ℕ} {gen' : Generation K L}, g < p.generations.length →
    p'.generations[g]? = some gen' → ∃ gen, p.generations[g]? = some gen ∧
      gen'.callback = gen.callback ∧ (gen'.state.world.retired = true →
        gen.state.world.retired = true ∨
          ∀ c, gen.callback = some c → ∀ q, p'.sinks.registry.active q ≠ some c)

/-- Bringing a generation up keeps everything together. -/
theorem HandlesSound.mount (h : HandlesSound p) {n : ℕ} {new : ExporterHandle K}
    (hm : Mounting p p' n new) : HandlesSound p' := by
  -- the generation of another handle is not the one that is replaced
  have hother : ∀ {m : ℕ} {handle : ExporterHandle K}, m ≠ n → p.handles[m]? = some handle →
      ∀ old, p.handles[n]? = some old → old.shared ≠ handle.shared := fun hne hh old ho hs =>
    hne (h.distinct hh ho hs.symm)
  have hkept : ∀ {m : ℕ} {handle : ExporterHandle K} {gen : Generation K L}, m ≠ n →
      p.handles[m]? = some handle → p'.generations[handle.shared]? = some gen →
      p.generations[handle.shared]? = some gen := fun {m handle gen} hne hh hg => by
    have hgen := List.getElem?_eq_getElem (h.range hh)
    rw [hgen, ← hg]
    exact (hm.keep hgen (hother hne hh)).symm
  obtain ⟨i₀, slot, hr₀, hi₀, hget₀⟩ := hm.active
  obtain ⟨x, hgen₀⟩ := hm.generation
  have hnew : ∀ {gen : Generation K L}, p'.generations[new.shared]? = some gen →
      gen = preparedGeneration p new.key x (some p.sinks.registry.nextCallback) := fun hg => by
    rw [hm.shared] at hg
    exact Option.some.inj (hg.symm.trans hgen₀)
  have hcase : ∀ {g : ℕ} {gen : Generation K L}, p'.generations[g]? = some gen →
      g < p.generations.length ∨ g = p.generations.length ∧
        gen = preparedGeneration p new.key x (some p.sinks.registry.nextCallback) :=
    fun {g gen} hg => by
      have hlt := (List.getElem?_eq_some_iff.mp hg).1
      rw [hm.length] at hlt
      rcases Nat.lt_succ_iff_lt_or_eq.mp hlt with hlt | rfl
      · exact Or.inl hlt
      · exact Or.inr ⟨rfl, Option.some.inj (hg.symm.trans hgen₀)⟩
  constructor
  case consistent => exact hm.consistent
  case mounted =>
    intro m i handle hh hr
    rcases hm.handle hh with ⟨-, rfl⟩ | ⟨hne, hh⟩
    · cases hr₀.symm.trans hr
      rw [Mounted, hm.shared]
      exact ⟨_, slot, _, hgen₀, rfl, rfl, rfl, hi₀, hget₀⟩
    · obtain ⟨gen, q, c, hgen, hkey, hc, hret, hi, hget⟩ := h.mounted hh hr
      refine ⟨gen, q, c, hm.keep hgen (hother hne hh), hkey, hc, hret, hm.sinks.holder ?_ hi,
        hm.sinks.get hget⟩
      -- one registration has one callback, and that belongs to one generation
      rintro ⟨old, ho, hreg⟩
      obtain ⟨gen', q', c', hgen', -, hc', -, hi', -⟩ := h.mounted ho hreg
      cases hi.symm.trans hi'
      exact hother hne hh old ho (h.injective hgen' hgen hc' hc)
  case opened =>
    intro m handle hh hopen
    rcases hm.handle hh with ⟨-, rfl⟩ | ⟨hne, hh⟩
    · refine ⟨hm.opened.1, hm.opened.2, ⟨i₀, hr₀⟩, fun hg => ?_⟩
      rw [hnew hg]
      rfl
    · have ho := h.opened hh hopen
      exact ⟨ho.collector, ho.worker, ho.registration, fun hg => ho.command (hkept hne hh hg)⟩
  case released =>
    intro m handle gen hh hr hg
    rcases hm.handle hh with ⟨-, rfl⟩ | ⟨hne, hh⟩
    · rw [hr₀] at hr
      cases hr
    · exact h.released hh hr (hkept hne hh hg)
  case range =>
    intro m handle hh
    rw [hm.length]
    rcases hm.handle hh with ⟨-, rfl⟩ | ⟨-, hh⟩
    · rw [hm.shared]
      exact Nat.lt_succ_self _
    · exact Nat.lt_succ_of_lt (h.range hh)
  case distinct =>
    intro m m' handle handle' hh hh' hs
    rcases hm.handle hh with ⟨rfl, rfl⟩ | ⟨-, h₁⟩
    · rcases hm.handle hh' with ⟨rfl, -⟩ | ⟨-, h₂⟩
      · rfl
      · rw [hm.shared] at hs
        exact absurd hs.symm (Nat.ne_of_lt (h.range h₂))
    · rcases hm.handle hh' with ⟨-, rfl⟩ | ⟨-, h₂⟩
      · rw [hm.shared] at hs
        exact absurd hs (Nat.ne_of_lt (h.range h₁))
      · exact h.distinct h₁ h₂ hs
  case fresh =>
    intro g c gen hg hc
    rcases hcase hg with hlt | ⟨-, rfl⟩
    · obtain ⟨gen', hgen', hsame, -⟩ := hm.back hlt hg
      exact (h.fresh hgen' (hsame.symm.trans hc)).trans hm.next
    · cases hc
      exact hm.next
  case injective =>
    intro g g' c gen gen' hg hg' hc hc'
    rcases hcase hg with hlt | ⟨rfl, rfl⟩
    · obtain ⟨old, hold, hsame, -⟩ := hm.back hlt hg
      rcases hcase hg' with hlt' | ⟨-, rfl⟩
      · obtain ⟨old', hold', hsame', -⟩ := hm.back hlt' hg'
        exact h.injective hold hold' (hsame.symm.trans hc) (hsame'.symm.trans hc')
      · cases hc'
        exact absurd (h.fresh hold (hsame.symm.trans hc)) (Nat.lt_irrefl _)
    · rcases hcase hg' with hlt' | ⟨rfl, -⟩
      · obtain ⟨old', hold', hsame', -⟩ := hm.back hlt' hg'
        cases hc
        exact absurd (h.fresh hold' (hsame'.symm.trans hc')) (Nat.lt_irrefl _)
      · rfl
  case retired =>
    intro g c q gen hg hc hret ha
    rcases hcase hg with hlt | ⟨-, rfl⟩
    · obtain ⟨old, hold, hsame, hor⟩ := hm.back hlt hg
      have hc' := hsame.symm.trans hc
      rcases hor hret with hret | hnone
      · exact h.retired hold hc' hret (hm.sinks.active (h.fresh hold hc') ha)
      · exact hnone c hc' q ha
    · cases hret

/-- Installing an exporter. -/
theorem mounting_install (h : HandlesSound p) {key : K} (x : Exporter L) {slot : ℕ}
    {g : Registry K} (hg : Grown p.sinks.registry key slot g)
    (he : p.sinks.registry.active slot = none) (hi : p.sinks.registry.installed key = none) :
    Mounting p { p with
      sinks := { p.sinks with
        registry := g.activate slot
        holders := p.sinks.holders ++ [⟨⟨slot, some p.sinks.registry.nextCallback⟩, .live⟩] }
      generations := p.generations ++
        [preparedGeneration p key x (some p.sinks.registry.nextCallback)]
      handles := p.handles ++ [newHandle p key] } p.handles.length (newHandle p key) := by
  have hm : SinkMove p.sinks (.register key) true
      { p.sinks with
        registry := g.activate slot
        holders := p.sinks.holders ++ [⟨⟨slot, some p.sinks.registry.nextCallback⟩, .live⟩] } :=
    .registered (Or.inl ⟨rfl, rfl⟩) hg he hi
  have hf := SinkMove.frame hm h.consistent.toAgreed
  have huntouched : ∀ i, ¬ touches (.register key) i := fun i ht => by
    rcases ht with ht | ht | ht <;> cases ht
  obtain ⟨cell, hs, -⟩ := hg.wellformed.typed hg.entry
  have hchange : SlotChange g slot (some g.nextCallback) (g.activate slot) :=
    SlotChange.recount (slotChange_swap hg.wellformed hs) _
  constructor
  case consistent => exact h.consistent.step hm
  case sinks => exact ⟨hf.next, hf.get, hf.active, fun _ hi => hf.holder (huntouched _) hi⟩
  case next => exact hg.nextCallback.symm.trans_lt (Nat.lt_succ_self _)
  case handle =>
    intro m handle hh
    rcases cell_of_append hh with hh | ⟨rfl, rfl⟩
    · exact Or.inr ⟨Nat.ne_of_lt (List.getElem?_eq_some_iff.mp hh).1, hh⟩
    · exact Or.inl ⟨rfl, rfl⟩
  case shared => rfl
  case opened => exact ⟨rfl, rfl⟩
  case active =>
    exact ⟨_, slot, rfl, List.getElem?_concat_length, (hchange.get key).trans hg.entry⟩
  case length => exact List.length_append
  case generation => exact ⟨x, List.getElem?_concat_length⟩
  case keep =>
    exact fun hgen _ =>
      (List.getElem?_append_left (List.getElem?_eq_some_iff.mp hgen).1).trans hgen
  case back =>
    intro g' gen hlt hgen
    rw [List.getElem?_append_left hlt] at hgen
    exact ⟨gen, hgen, rfl, Or.inl⟩

/-- Reconfiguring an exporter. -/
theorem mounting_reconfigure (h : HandlesSound p) {n i slot c : ℕ} (x : Exporter L)
    {handle : ExporterHandle K} {fate : Fate} {gen : Generation K L} (s' : State L)
    (hh : p.handles[n]? = some handle) (hr : handle.registration = some i)
    (hi : p.sinks.holders[i]? = some ⟨⟨slot, some c⟩, fate⟩)
    (ha : p.sinks.registry.active slot = some c)
    (hgen : p.generations[handle.shared]? = some gen) :
    Mounting p { p with
      sinks := { p.sinks with
        registry := p.sinks.registry.swap slot
        holders := p.sinks.holders.set i ⟨⟨slot, some p.sinks.registry.nextCallback⟩, fate⟩ }
      generations := p.generations.set handle.shared (withState gen s') ++
        [preparedGeneration p handle.key x (some p.sinks.registry.nextCallback)]
      handles := p.handles.set n (swappedHandle p handle) } n (swappedHandle p handle) := by
  obtain ⟨gen', slot', c', hgen', -, hc, -, hi', hget⟩ := h.mounted hh hr
  cases hgen.symm.trans hgen'
  cases hi.symm.trans hi'
  have hm := SinkMove.replaced (live_of_holder hi) ha
  have hf := SinkMove.frame hm h.consistent.toAgreed
  obtain ⟨cell, hcell, -⟩ := slot_of_active ha
  have hchange := slotChange_swap h.consistent.wellformed hcell
  have hlt := (List.getElem?_eq_some_iff.mp hi).1
  have hlen : (p.generations.set handle.shared (withState gen s')).length = p.generations.length :=
    List.length_set
  constructor
  case consistent => exact h.consistent.step hm
  case sinks =>
    refine ⟨hf.next, hf.get, hf.active, fun {j holder} hj hh' => hf.holder (fun ht => hj ?_) hh'⟩
    rcases ht with ht | ht | ht <;> cases ht
    exact ⟨handle, hh, hr⟩
  case next => exact Nat.lt_succ_self _
  case handle =>
    intro m handle' hm
    rcases cell_of_set hm with ⟨rfl, rfl⟩ | ⟨hne, hm⟩
    · exact Or.inl ⟨rfl, rfl⟩
    · exact Or.inr ⟨hne, hm⟩
  case shared => rfl
  case opened => exact ⟨rfl, rfl⟩
  case active => exact ⟨i, slot, hr, List.getElem?_set_self hlt, hget⟩
  case length => rw [List.length_append, hlen, List.length_singleton]
  case generation =>
    refine ⟨x, ?_⟩
    rw [← hlen]
    exact List.getElem?_concat_length
  case keep =>
    intro g old hold hne
    have hrange : g < (p.generations.set handle.shared (withState gen s')).length := by
      rw [hlen]
      exact (List.getElem?_eq_some_iff.mp hold).1
    rw [List.getElem?_append_left hrange, List.getElem?_set_ne (hne handle hh)]
    exact hold
  case back =>
    intro g new hrange hnew
    rw [List.getElem?_append_left (hlen.symm ▸ hrange)] at hnew
    rcases cell_of_set hnew with ⟨rfl, rfl⟩ | ⟨-, hnew⟩
    · -- the old callback is no longer in its slot, and it was in no other
      refine ⟨gen, hgen, rfl, fun _ => Or.inr fun c₀ hc₀ q hq => ?_⟩
      cases hc.symm.trans hc₀
      have hold := hf.active (h.fresh hgen hc) hq
      cases active_unique h.consistent.toAgreed ha hold
      rw [hchange.active, if_pos rfl] at hq
      exact absurd (h.fresh hgen hc) (Nat.not_lt.mpr (Option.some.inj hq).le)
    · exact ⟨new, hnew, rfl, Or.inl⟩

/-- What one handle's step does to its own generation, and to nothing else. -/
structure HandleUpdate (p p' : Process K L) (n : ℕ) (handle handle' : ExporterHandle K)
    (gen gen' : Generation K L) : Prop where
  handles : p'.handles = p.handles.set n handle'
  generations : p'.generations = p.generations.set handle.shared gen'
  key : handle'.key = handle.key
  shared : handle'.shared = handle.shared
  consumed : handle'.consumed = true
  callback : gen'.callback = gen.callback
  consistent : Consistent p'.sinks
  /-- Only the handle's own registration changes. -/
  sinks : SinkFrame p.sinks p'.sinks fun i => handle.registration = some i
  /-- The registration stays active, or it is gone with the generation retired. -/
  taken : (handle'.registration = handle.registration ∧ p'.sinks = p.sinks ∧
      gen'.key = gen.key ∧ gen'.state.world.retired = gen.state.world.retired) ∨
    handle'.registration = none ∧ gen'.state.world.retired = true ∧
      ∀ c, gen.callback = some c → ∀ q, p'.sinks.registry.active q ≠ some c

/-- Taking a handle down keeps everything together. -/
theorem HandlesSound.update (h : HandlesSound p) {n : ℕ} {handle handle' : ExporterHandle K}
    {gen gen' : Generation K L} (hh : p.handles[n]? = some handle)
    (hgen : p.generations[handle.shared]? = some gen)
    (hu : HandleUpdate p p' n handle handle' gen gen') : HandlesSound p' := by
  have hlt := (List.getElem?_eq_some_iff.mp hgen).1
  have hself : p'.generations[handle.shared]? = some gen' := by
    rw [hu.generations]
    exact List.getElem?_set_self hlt
  have hne : ∀ {m : ℕ} {other : ExporterHandle K}, m ≠ n → p.handles[m]? = some other →
      handle.shared ≠ other.shared := fun hm ho hs => hm (h.distinct ho hh hs.symm)
  have hkept : ∀ {m : ℕ} {other : ExporterHandle K} {old : Generation K L}, m ≠ n →
      p.handles[m]? = some other → p'.generations[other.shared]? = some old →
      p.generations[other.shared]? = some old := fun hm ho hg => by
    rw [hu.generations, List.getElem?_set_ne (hne hm ho)] at hg
    exact hg
  have hcase : ∀ {m : ℕ} {other : ExporterHandle K}, p'.handles[m]? = some other →
      m = n ∧ other = handle' ∨ m ≠ n ∧ p.handles[m]? = some other := fun ho => by
    rw [hu.handles] at ho
    exact cell_of_set ho
  have hgens : ∀ {g : ℕ} {old : Generation K L}, p'.generations[g]? = some old →
      g = handle.shared ∧ old = gen' ∨ g ≠ handle.shared ∧ p.generations[g]? = some old :=
    fun hg => by
      rw [hu.generations] at hg
      exact cell_of_set hg
  have hback : ∀ {g c : ℕ} {old : Generation K L}, p'.generations[g]? = some old →
      old.callback = some c → ∃ old', p.generations[g]? = some old' ∧ old'.callback = some c :=
    fun hg hc => by
      rcases hgens hg with ⟨rfl, rfl⟩ | ⟨-, hg⟩
      · exact ⟨gen, hgen, hu.callback.symm.trans hc⟩
      · exact ⟨_, hg, hc⟩
  constructor
  case consistent => exact hu.consistent
  case mounted =>
    intro m i other ho hr
    rcases hcase ho with ⟨rfl, rfl⟩ | ⟨hm, ho⟩
    · rcases hu.taken with ⟨hreg, hsinks, hkey', hret'⟩ | ⟨hnone, -⟩
      · obtain ⟨gen₀, q, c, hgen₀, hkey, hc, hret, hi, hget⟩ := h.mounted hh (hreg.symm.trans hr)
        cases hgen.symm.trans hgen₀
        refine ⟨gen', q, c, hu.shared ▸ hself, hkey'.trans (hkey.trans hu.key.symm),
          hu.callback.trans hc, hret'.trans hret, ?_, ?_⟩
        · rw [hsinks]
          exact hi
        · rw [hsinks, hu.key]
          exact hget
      · rw [hnone] at hr
        cases hr
    · obtain ⟨gen₀, q, c, hgen₀, hkey, hc, hret, hi, hget⟩ := h.mounted ho hr
      refine ⟨gen₀, q, c, ?_, hkey, hc, hret, hu.sinks.holder (fun hreg => ?_) hi,
        hu.sinks.get hget⟩
      · rw [hu.generations, List.getElem?_set_ne (hne hm ho)]
        exact hgen₀
      · obtain ⟨gen₁, q', c', hgen₁, -, hc', -, hi', -⟩ := h.mounted hh hreg
        cases hi.symm.trans hi'
        exact hne hm ho (h.injective hgen₁ hgen₀ hc' hc)
  case opened =>
    intro m other ho hopen
    rcases hcase ho with ⟨-, rfl⟩ | ⟨hm, ho⟩
    · rw [hu.consumed] at hopen
      cases hopen
    · have ho' := h.opened ho hopen
      exact ⟨ho'.collector, ho'.worker, ho'.registration, fun hg => ho'.command (hkept hm ho hg)⟩
  case released =>
    intro m other old ho hr hg
    rcases hcase ho with ⟨-, rfl⟩ | ⟨hm, ho⟩
    · rw [hu.shared] at hg
      cases hself.symm.trans hg
      rcases hu.taken with ⟨hreg, -, -, hret⟩ | ⟨-, hret, -⟩
      · exact hret.trans (h.released hh (hreg.symm.trans hr) hgen)
      · exact hret
    · exact h.released ho hr (hkept hm ho hg)
  case range =>
    intro m other ho
    rw [hu.generations, List.length_set]
    rcases hcase ho with ⟨-, rfl⟩ | ⟨-, ho⟩
    · rw [hu.shared]
      exact h.range hh
    · exact h.range ho
  case distinct =>
    intro m m' other other' ho ho' hs
    rcases hcase ho with ⟨rfl, rfl⟩ | ⟨hm, h₁⟩
    · rcases hcase ho' with ⟨rfl, -⟩ | ⟨-, h₂⟩
      · rfl
      · exact h.distinct hh h₂ (hu.shared.symm.trans hs)
    · rcases hcase ho' with ⟨rfl, rfl⟩ | ⟨-, h₂⟩
      · exact h.distinct h₁ hh (hs.trans hu.shared)
      · exact h.distinct h₁ h₂ hs
  case fresh =>
    intro g c old hg hc
    obtain ⟨old', hg', hc'⟩ := hback hg hc
    exact (h.fresh hg' hc').trans_le hu.sinks.next
  case injective =>
    intro g g' c old old' hg hg' hc hc'
    obtain ⟨old₁, hg₁, hc₁⟩ := hback hg hc
    obtain ⟨old₂, hg₂, hc₂⟩ := hback hg' hc'
    exact h.injective hg₁ hg₂ hc₁ hc₂
  case retired =>
    intro g c q old hg hc hret ha
    rcases hgens hg with ⟨rfl, rfl⟩ | ⟨-, hg⟩
    · have hc' := hu.callback.symm.trans hc
      rcases hu.taken with ⟨-, hsinks, -, hsame⟩ | ⟨-, -, hgone⟩
      · rw [hsinks] at ha
        exact h.retired hgen hc' (hsame.symm.trans hret) ha
      · exact hgone c hc' q ha
    · exact h.retired hg hc hret (hu.sinks.active (h.fresh hg hc) ha)

/-- Beginning to take a handle down. -/
theorem HandlesSound.close (h : HandlesSound p) {n : ℕ} {c : Command} {handle : ExporterHandle K}
    {gen : Generation K L} {s : State L} (hh : p.handles[n]? = some handle)
    (hgen : p.generations[handle.shared]? = some gen)
    (hs : Move gen.exporter gen.state (.command c) s) :
    HandlesSound { p with
      generations := p.generations.set handle.shared (withState gen s)
      handles := p.handles.set n { handle with consumed := true } } :=
  h.update hh hgen
    { handles := rfl
      generations := rfl
      key := rfl
      shared := rfl
      consumed := rfl
      callback := rfl
      consistent := h.consistent
      sinks := SinkFrame.refl p.sinks _
      taken := Or.inl ⟨rfl, rfl, rfl, retired_of_move hs fun ha => by cases ha⟩ }

omit [DecidableEq K] in
/-- Taking the callback down retires its generation. -/
theorem retired_of_unregister {x : Exporter L} {s s' : State L} (hm : Move x s .control s')
    (hop : s.control.program.head? = some .unregister) : s'.world.retired = true := by
  cases hm with
  | control hp hr =>
    rw [hp] at hop
    cases hop
    rfl

/-- The destructor of a registration that is active releases its slot. -/
theorem putBack_active {s : Sinks K} (hc : Consistent s) {i slot c : ℕ}
    (hi : s.holders[i]? = some ⟨⟨slot, some c⟩, .live⟩) :
    ∃ s', putBack s i .dropped ⟨slot, some c⟩ = (true, s') ∧ SinkMove s (.drop i) true s' ∧
      ∀ q, s'.registry.active q ≠ some c := by
  have ha := hc.registration hi rfl
  obtain ⟨cell, hs, -⟩ := slot_of_active ha
  have hchange : SlotChange s.registry slot none (s.registry.deactivate slot) :=
    SlotChange.recount (slotChange_none hc.wellformed hs) _
  have hd : disable s.registry ⟨slot, some c⟩ =
      (true, ⟨slot, none⟩, s.registry.deactivate slot) := by
    simp only [disable, hc.wellformed.clean, ha, if_true, if_false, Bool.false_eq_true]
  refine ⟨{ s with
      registry := s.registry.deactivate slot
      holders := s.holders.set i ⟨⟨slot, none⟩, .dropped⟩
      released := s.released ++ [i] }, by simp only [putBack, hd, if_true],
    .released (Or.inr ⟨rfl, rfl⟩) (live_of_holder hi) ha, fun q hq => ?_⟩
  have hq' : (s.registry.deactivate slot).active q = some c := hq
  rw [hchange.active] at hq'
  split_ifs at hq' with he
  exact he (active_unique hc.toAgreed hq' ha)

/-- Taking the callback of a handle down. -/
theorem HandlesSound.unregister (h : HandlesSound p) {n : ℕ} {handle : ExporterHandle K}
    {gen : Generation K L} {s : State L} {sinks : Sinks K} (hh : p.handles[n]? = some handle)
    (hclosed : handle.consumed = true) (hgen : p.generations[handle.shared]? = some gen)
    (hop : gen.state.control.program.head? = some .unregister)
    (hsinks : releaseRegistration p.sinks handle.registration = some sinks)
    (hs : Move gen.exporter gen.state .control s) :
    HandlesSound { p with
      sinks := sinks
      generations := p.generations.set handle.shared (withState gen s)
      handles := p.handles.set n { handle with registration := none } } := by
  have hret := retired_of_unregister hs hop
  have hfacts : Consistent sinks ∧
      SinkFrame p.sinks sinks (fun i => handle.registration = some i) ∧
      ∀ c, gen.callback = some c → ∀ q, sinks.registry.active q ≠ some c := by
    cases hr : handle.registration with
    | none =>
      rw [hr] at hsinks
      cases hsinks
      exact ⟨h.consistent, SinkFrame.refl p.sinks _, fun c hc q =>
        h.retired hgen hc (h.released hh hr hgen)⟩
    | some i =>
      obtain ⟨gen', slot, c, hgen', -, hc, -, hi, -⟩ := h.mounted hh hr
      cases hgen.symm.trans hgen'
      rw [hr, releaseRegistration, hi, Option.map_some] at hsinks
      cases hsinks
      obtain ⟨s', hput, hm, hgone⟩ := putBack_active h.consistent hi
      rw [hput]
      have hf := SinkMove.frame hm h.consistent.toAgreed
      refine ⟨h.consistent.step hm, ⟨hf.next, hf.get, hf.active, fun {j holder} hj hh' =>
        hf.holder (fun ht => hj ?_) hh'⟩, fun c' hc' q => ?_⟩
      · rcases ht with ht | ht | ht <;> cases ht
        rfl
      · cases hc.symm.trans hc'
        exact hgone q
  obtain ⟨hcons, hframe, hgone⟩ := hfacts
  exact h.update hh hgen
    { handles := rfl
      generations := rfl
      key := rfl
      shared := rfl
      consumed := hclosed
      callback := rfl
      consistent := hcons
      sinks := hframe
      taken := Or.inr ⟨rfl, hret, hgone⟩ }

/-- Every step keeps handles, registrations and generations together. -/
theorem HandlesSound.move (h : HandlesSound p) {a : Action K L} (hm : ProcessMove p a p') :
    HandlesSound p' := by
  have hnone := SinkFrame.refl p.sinks fun i => ∀ handle ∈ p.handles, handle.registration ≠ some i
  cases hm with
  | spawn =>
    refine h.frame ⟨rfl, h.consistent.step .spawned,
      ⟨Nat.le_refl _, id, fun _ ha => ha, fun _ hi => hi⟩, fun {g gen} hg => ?_,
      fun {g gen'} hg => ?_⟩
    · refine ⟨spawnIn gen, ?_, ⟨rfl, rfl, rfl, rfl, rfl⟩⟩
      rw [List.getElem?_map, hg]
      rfl
    · obtain ⟨gen, hgen, rfl⟩ := Option.map_eq_some_iff.mp ((List.getElem?_map ..).symm.trans hg)
      exact Or.inr ⟨gen, hgen, ⟨rfl, rfl, rfl, rfl, rfl⟩⟩
  | exit ht hidle =>
    exact h.frame ⟨rfl, h.consistent, hnone, fun hg => ⟨_, hg, SameRole.refl _⟩,
      fun hg => Or.inr ⟨_, hg, SameRole.refl _⟩⟩
  | sinks hm hc hown =>
    exact h.frame ⟨rfl, h.consistent.step hm, sinkFrame_of_move h hm hown,
      fun hg => ⟨_, hg, SameRole.refl _⟩, fun hg => Or.inr ⟨_, hg, SameRole.refl _⟩⟩
  | abandoned =>
    refine h.frame ⟨rfl, h.consistent, hnone, fun hg =>
      ⟨_, (List.getElem?_append_left (List.getElem?_eq_some_iff.mp hg).1).trans hg,
        SameRole.refl _⟩, fun hg => ?_⟩
    rcases cell_of_append hg with hg | ⟨-, rfl⟩
    · exact Or.inr ⟨_, hg, SameRole.refl _⟩
    · exact Or.inl rfl
  | installed hg he hi => exact h.mount (mounting_install h _ hg he hi)
  | reconfigured hh hopen hr hi ha hgen hs hs' =>
    exact h.mount (mounting_reconfigure h _ _ hh hr hi ha hgen)
  | closed hh hopen hne hgen hs => exact h.close hh hgen hs
  | unregistered hh hclosed hgen hop hsinks hs => exact h.unregister hh hclosed hgen hop hsinks hs
  | entered ht hstay hm hgen hs =>
    refine h.frame (ProcessFrame.set hgen rfl rfl (h.consistent.step hm)
      (sinkFrame_of_move h hm rfl) ⟨rfl, rfl, rfl, ?_, ?_⟩)
    · exact retired_of_move hs fun ha => by cases ha
    · exact command_of_move hs fun c ha => by cases ha
  | found hgen hi ht hpc hj =>
    exact h.frame (ProcessFrame.set hgen rfl rfl h.consistent hnone ⟨rfl, rfl, rfl, rfl, rfl⟩)
  | registered hgen hi ht hpc hj =>
    exact h.frame (ProcessFrame.set hgen rfl rfl h.consistent hnone ⟨rfl, rfl, rfl, rfl, rfl⟩)
  | run hgen hown hs =>
    exact h.frame (ProcessFrame.set hgen rfl rfl h.consistent hnone (sameRole_run hown hs))
  | freed hgen hu =>
    exact h.frame (ProcessFrame.set hgen rfl rfl h.consistent hnone ⟨rfl, rfl, rfl, rfl, rfl⟩)

/-- Nothing was prepared yet. -/
theorem HandlesSound.init (K L : Type) [DecidableEq K] : HandlesSound (Process.init K L) where
  consistent := Consistent.new K
  mounted := fun hh => by cases hh
  opened := fun hh => by cases hh
  released := fun hh => by cases hh
  range := fun hh => by cases hh
  distinct := fun hh => by cases hh
  fresh := fun hg => by cases hg
  injective := fun hg => by cases hg
  retired := fun hg => by cases hg

/-- Handles, registrations and generations fit together in every run. -/
theorem handlesSound {ok : Process K L → Action K L → Prop}
    (h : ReachWhile ExporterProcess.step ok (Process.init K L) p) : HandlesSound p :=
  h.invariant (HandlesSound.init K L) fun _ _ _ ht _ hu =>
    ht.move (processMove ht.consistent hu)

/-- Every generation has a cell for every thread in every run. -/
theorem sized {ok : Process K L → Action K L → Prop}
    (h : ReachWhile ExporterProcess.step ok (Process.init K L) p) : Sized p :=
  h.invariant_using (fun _ ht => handlesSound ht) (Sized.init K L) fun _ _ _ hs _ ht _ hu =>
    ht.move (processMove hs.consistent hu)

/-! ## All or nothing -/

/-- What a failed change leaves as it was. Behind the generations there may be
one more, whose callback never got into a slot. -/
structure Untouched (p p' : Process K L) : Prop where
  sinks : p'.sinks = p.sinks
  handles : p'.handles = p.handles
  threads : p'.threads = p.threads
  generations : ∃ abandoned, p'.generations = p.generations ++ abandoned ∧
    ∀ gen ∈ abandoned, gen.callback = none ∧ gen.state.world.retired = true

omit [DecidableEq K] in
/-- Nothing happened. -/
theorem Untouched.refl (p : Process K L) : Untouched p p :=
  ⟨rfl, rfl, rfl, [], (List.append_nil _).symm, fun gen hm => by cases hm⟩

omit [DecidableEq K] in
/-- A prepared generation was given up. -/
theorem untouched_abandoned (p : Process K L) (key : K) (x : Exporter L) (made : Bool)
    (ops : List ControlOp) :
    Untouched p
      { p with generations := p.generations ++ [abandonedGeneration p key x made ops] } := by
  refine ⟨rfl, rfl, rfl, _, rfl, fun gen hm => ?_⟩
  rw [List.mem_singleton.mp hm]
  exact ⟨rfl, rfl⟩

omit [DecidableEq K] in
/-- A reconfiguration that fails leaves everything as it was. -/
theorem reconfigure_error {n : ℕ} {r : Preparation L} {error : ReconfigureError}
    (he : reconfigure p n r = some (.error error, p')) : Untouched p p' := by
  obtain ⟨handle, hl, he⟩ := Option.bind_eq_some_iff.mp he
  split at he
  · cases he
    exact Untouched.refl p
  · split at he
    · cases he
      exact untouched_abandoned p _ _ _ _
    · rename_i i hr
      obtain ⟨⟨reg, fate⟩, hi, he⟩ := Option.bind_eq_some_iff.mp he
      rcases hrep : replace p.sinks.registry reg with ⟨result, reg', g'⟩
      simp only [hrep] at he
      split at he
      · obtain ⟨rfl, rfl⟩ := Prod.mk.inj (replace_error hrep)
        cases he
        simp only [set_self hi]
        exact untouched_abandoned p _ _ _ _
      · obtain ⟨gen, -, hc⟩ := Option.map_eq_some_iff.mp he
        cases hc

/-- With a sound process it fails only while the generation is prepared. -/
theorem HandlesSound.reconfigure_fails (h : HandlesSound p) {n : ℕ} {r : Preparation L}
    {error : ReconfigureError} (he : reconfigure p n r = some (.error error, p')) :
    ∃ e, error = .install e := by
  obtain ⟨handle, hl, he⟩ := Option.bind_eq_some_iff.mp he
  obtain ⟨hh, hopen⟩ := handle_of_live hl
  obtain ⟨i, hr⟩ := (h.opened hh hopen).registration
  obtain ⟨gen, slot, c, hgen, -, hc, -, hi, -⟩ := h.mounted hh hr
  have ha := h.consistent.registration hi rfl
  split at he
  · cases he
    exact ⟨_, rfl⟩
  · simp only [hr, hi, Option.bind_some, replace, h.consistent.wellformed.clean, ha, if_true,
      if_false, Bool.false_eq_true] at he
    obtain ⟨gen', -, hc⟩ := Option.map_eq_some_iff.mp he
    cases hc

/-- An installation that fails leaves everything as it was. -/
theorem HandlesSound.install_error (h : HandlesSound p) {key : K} {r : Preparation L}
    {error : InstallError} (he : installOn p key r = some (.error error, p')) :
    Untouched p p' := by
  unfold installOn at he
  split at he
  · cases he
    exact Untouched.refl p
  · obtain ⟨e, hreg, he⟩ := Option.map_eq_some_iff.mp he
    rcases registerSink_cases h.consistent.wellformed hreg with ⟨_, _, -, -, -, rfl⟩ | ⟨-, rfl⟩
    · cases he
    · cases he
      exact untouched_abandoned p _ _ _ _

/-- A generation whose callback is the active one of its type. -/
def InSlot (p : Process K L) (gen : Generation K L) : Prop :=
  ∃ c, gen.callback = some c ∧ p.sinks.registry.installed gen.key = some c

/-- What an open handle is sure of. -/
structure Current (p : Process K L) (handle : ExporterHandle K) (gen : Generation K L) : Prop where
  shared : p.generations[handle.shared]? = some gen
  collector : handle.collector = handle.shared
  worker : handle.worker = some handle.shared
  key : gen.key = handle.key
  /-- Its registration is the active one of its type, with its generation's callback. -/
  registration : ∃ i slot c, handle.registration = some i ∧
    (p.sinks.holders[i]?).map Holder.registration = some ⟨slot, some c⟩ ∧
    p.sinks.registry.get handle.key = some slot ∧ p.sinks.registry.active slot = some c ∧
    gen.callback = some c
  retired : gen.state.world.retired = false
  command : gen.state.control.command = none

/-- An open handle's generation is the current one of its type. -/
theorem HandlesSound.current (h : HandlesSound p) {n : ℕ} {handle : ExporterHandle K}
    (hl : liveHandle p n = some handle) : ∃ gen, Current p handle gen := by
  obtain ⟨hh, hopen⟩ := handle_of_live hl
  have ho := h.opened hh hopen
  obtain ⟨i, hr⟩ := ho.registration
  obtain ⟨gen, slot, c, hgen, hkey, hc, hret, hi, hget⟩ := h.mounted hh hr
  exact ⟨gen, hgen, ho.collector, ho.worker, hkey,
    ⟨i, slot, c, hr, by rw [hi]; rfl, hget, h.consistent.registration hi rfl, hc⟩, hret,
    ho.command hgen⟩

/-- In every reachable state a reconfiguration or an installation that fails
leaves registry, handles and running generations as they were, and a
reconfiguration fails only in its preparation. At most one generation of a type
is in the slot, an open handle's registration is the active one of its type, and
a generation's own steps change no other. -/
theorem changes_all_or_nothing (h : Reach ExporterProcess.step (Process.init K L) p) :
    (∀ (n : ℕ) (r : Preparation L) (error : ReconfigureError) (p' : Process K L),
      reconfigure p n r = some (.error error, p') →
        Untouched p p' ∧ ∃ e, error = .install e) ∧
    (∀ (key : K) (r : Preparation L) (error : InstallError) (p' : Process K L),
      installOn p key r = some (.error error, p') → Untouched p p') ∧
    (∀ (g g' : ℕ) (gen gen' : Generation K L), p.generations[g]? = some gen →
      p.generations[g']? = some gen' → gen.key = gen'.key → InSlot p gen → InSlot p gen' →
        g = g') ∧
    (∀ (n : ℕ) (handle : ExporterHandle K), liveHandle p n = some handle →
      ∃ gen, Current p handle gen) ∧
    ∀ (g : ℕ) (a : GenerationStep.Action L) (p' : Process K L),
      ExporterProcess.step p (.run g a) = some p' → p'.sinks = p.sinks ∧
        p'.handles = p.handles ∧ ∀ g', g' ≠ g → p'.generations[g']? = p.generations[g']? := by
  have hsound := handlesSound h
  refine ⟨fun n r error p' he => ⟨reconfigure_error he, hsound.reconfigure_fails he⟩,
    fun key r error p' he => hsound.install_error he, ?_, fun n handle hl => hsound.current hl, ?_⟩
  · rintro g g' gen gen' hg hg' hkey ⟨c, hc, hi⟩ ⟨c', hc', hi'⟩
    rw [hkey, hi'] at hi
    cases hi
    exact hsound.injective hg hg' hc hc'
  · intro g a p' hs
    obtain ⟨gen, -, hs⟩ := Option.bind_eq_some_iff.mp hs
    split_ifs at hs
    obtain ⟨s, -, rfl⟩ := Option.map_eq_some_iff.mp hs
    exact ⟨rfl, rfl, fun g' hne => List.getElem?_set_ne (Ne.symm hne)⟩

/-- An exporter whose client can be made. -/
def sampleRequest : Preparation ℕ := ⟨sample, .ok ()⟩

/-- One whose endpoint is refused. -/
def refusedRequest : Preparation ℕ := ⟨sample, .error "invalid endpoint"⟩

/-- Both ways to fail. -/
def bothRefused (p : Process ℕ ℕ) : Bool :=
  ((reconfigure p 0 refusedRequest).any fun e =>
    decide (e.1 = .error (.install (.transport "invalid endpoint")))) &&
  (installOn p 7 sampleRequest).any fun e =>
    decide (e.1 = .error .sinkAlreadyInstalled) && decide (e.2.generations.length = 2)

/-- Next to an installed exporter a reconfiguration fails for its endpoint, and
a second installation for the first one. -/
theorem changes_all_or_nothing_refused : ∃ p p' p'' : Process ℕ ℕ,
    Reach ExporterProcess.step (Process.init ℕ ℕ) p ∧
    reconfigure p 0 refusedRequest = some (.error (.install (.transport "invalid endpoint")), p') ∧
    Untouched p p' ∧ installOn p 7 sampleRequest = some (.error .sinkAlreadyInstalled, p'') ∧
    Untouched p p'' ∧ p''.generations.length = 2 := by
  obtain ⟨p, hp, ht⟩ := exists_reach ExporterProcess.step (Process.init ℕ ℕ)
    [.install 7 sampleRequest] bothRefused (by decide +kernel)
  obtain ⟨hr, hi⟩ := (Bool.and_eq_true _ _).mp ht
  obtain ⟨⟨e, p'⟩, hr, he⟩ := (Option.any_eq_true _ _).mp hr
  obtain ⟨⟨e', p''⟩, hi, he'⟩ := (Option.any_eq_true _ _).mp hi
  obtain ⟨he', hlen⟩ := (Bool.and_eq_true _ _).mp he'
  cases of_decide_eq_true he
  cases of_decide_eq_true he'
  have hall := changes_all_or_nothing hp
  exact ⟨p, p', p'', hp, hr, (hall.1 0 _ _ p' hr).1, hi, hall.2.1 7 _ _ p'' hi,
    of_decide_eq_true hlen⟩

end EdenLogger.GenerationChanges
