import EdenLogger.ExporterProcess
import EdenLogger.GenerationFrames
import EdenLogger.SinkHolders
import EdenLogger.ListCells

/-!
# What a step of the process can do

One inversion of the process's step function. A move inside a generation is a
move of that generation, and a use of the registry is one of the registry's
operations.
-/

namespace EdenLogger.ProcessMoves

open MachineWord RunRules ExporterConfig GenerationState SinkRegistry ExporterProcess
open GenerationMoves GenerationFrames ListCells

variable {K L : Type} [DecidableEq K] {p p' : Process K L}

/-- Replace a generation. -/
def setGeneration (p : Process K L) (g : ℕ) (gen : Generation K L) : Process K L :=
  { p with generations := p.generations.set g gen }

/-- A generation whose parties moved. -/
def withState (gen : Generation K L) (s : State L) : Generation K L := { gen with state := s }

/-- A handle on a new generation. -/
def newHandle (p : Process K L) (key : K) : ExporterHandle K :=
  ⟨key, p.generations.length, p.generations.length, some p.generations.length,
    some p.sinks.holders.length, false⟩

/-- The same handle on the latest generation. -/
def swappedHandle (p : Process K L) (handle : ExporterHandle K) : ExporterHandle K :=
  { handle with
    shared := p.generations.length
    collector := p.generations.length
    worker := some p.generations.length }

/-- What a step of the process does. -/
inductive ProcessMove (p : Process K L) : Action K L → Process K L → Prop where
  | spawn :
      ProcessMove p .spawn
        { p with
          sinks.caches := p.sinks.caches ++ [[]]
          generations := p.generations.map spawnIn
          threads := p.threads ++ [⟨[], false⟩] }
  | exit {i : ℕ} {t : Thread} (ht : p.threads[i]? = some t)
      (hidle : p.generations.all (idleIn i) = true) :
      ProcessMove p (.exit i) { p with threads := p.threads.set i { t with exiting := true } }
  | sinks {a : Action K L} {op : SinkOp K} {ok : Bool} {s : Sinks K} (hm : SinkMove p.sinks op ok s)
      (hc : s.caches.length = p.sinks.caches.length) (hown : owned p op = false) :
      ProcessMove p a { p with sinks := s }
  | abandoned {a : Action K L} {key : K} {x : Exporter L} {made : Bool} {ops : List ControlOp} :
      ProcessMove p a
        { p with generations := p.generations ++ [abandonedGeneration p key x made ops] }
  | installed {key : K} {r : Preparation L} {x : Exporter L} {slot : ℕ} {g : Registry K}
      (hg : Grown p.sinks.registry key slot g) (he : p.sinks.registry.active slot = none)
      (hi : p.sinks.registry.installed key = none) :
      ProcessMove p (.install key r)
        { p with
          sinks := { p.sinks with
            registry := g.activate slot
            holders := p.sinks.holders ++ [⟨⟨slot, some p.sinks.registry.nextCallback⟩, .live⟩] }
          generations := p.generations ++
            [preparedGeneration p key x (some p.sinks.registry.nextCallback)]
          handles := p.handles ++ [newHandle p key] }
  | reconfigured {h i slot c : ℕ} {r : Preparation L} {x : Exporter L} {handle : ExporterHandle K}
      {fate : Fate} {gen : Generation K L} {s s' : State L}
      (hh : p.handles[h]? = some handle) (hopen : handle.consumed = false)
      (hr : handle.registration = some i)
      (hi : p.sinks.holders[i]? = some ⟨⟨slot, some c⟩, fate⟩)
      (ha : p.sinks.registry.active slot = some c)
      (hgen : p.generations[handle.shared]? = some gen)
      (hs : Move gen.exporter gen.state (.command .reconfigure) s)
      (hs' : Move gen.exporter s .control s') :
      ProcessMove p (.reconfigure h r)
        { p with
          sinks := { p.sinks with
            registry := p.sinks.registry.swap slot
            holders := p.sinks.holders.set i
              ⟨⟨slot, some p.sinks.registry.nextCallback⟩, fate⟩ }
          generations := p.generations.set handle.shared (withState gen s') ++
            [preparedGeneration p handle.key x (some p.sinks.registry.nextCallback)]
          handles := p.handles.set h (swappedHandle p handle) }
  | closed {h : ℕ} {c : Command} {handle : ExporterHandle K} {gen : Generation K L} {s : State L}
      (hh : p.handles[h]? = some handle) (hopen : handle.consumed = false)
      (hc : c ≠ .reconfigure) (hgen : p.generations[handle.shared]? = some gen)
      (hs : Move gen.exporter gen.state (.command c) s) :
      ProcessMove p (.close h c)
        { p with
          generations := p.generations.set handle.shared (withState gen s)
          handles := p.handles.set h { handle with consumed := true } }
  | unregistered {h : ℕ} {handle : ExporterHandle K} {gen : Generation K L} {s : State L}
      {sinks : Sinks K} (hh : p.handles[h]? = some handle) (hclosed : handle.consumed = true)
      (hgen : p.generations[handle.shared]? = some gen)
      (hop : gen.state.control.program.head? = some .unregister)
      (hsinks : releaseRegistration p.sinks handle.registration = some sinks)
      (hs : Move gen.exporter gen.state .control s) :
      ProcessMove p (.unregister h)
        { p with
          sinks := sinks
          generations := p.generations.set handle.shared (withState gen s)
          handles := p.handles.set h { handle with registration := none } }
  | entered {i g : ℕ} {key : K} {log : L} {t : Thread} {ok : Bool} {sinks : Sinks K}
      {gen : Generation K L} {s : State L} (ht : p.threads[i]? = some t)
      (hstay : t.exiting = false) (hm : SinkMove p.sinks (.lookup i key) ok sinks)
      (hgen : p.generations[g]? = some gen)
      (hs : Move gen.exporter gen.state (.enter i log) s) :
      ProcessMove p (.dispatch i key log)
        { p with
          sinks := sinks
          generations := p.generations.set g
            { gen with state := s, dispatched := gen.dispatched + 1 } }
  | found {g i j : ℕ} {seenAlive : List ℕ} {gen : Generation K L} {producer : Producer L}
      {t : Thread} {r : Submission L} (hgen : p.generations[g]? = some gen)
      (hi : gen.state.threads[i]? = some producer) (ht : p.threads[i]? = some t)
      (hpc : producer.pc = .resolve r) (hj : (g, j) ∈ t.producers) :
      ProcessMove p (.resolve g i seenAlive)
        (setGeneration p g (withState gen { gen.state with
          threads := gen.state.threads.set i ⟨.claimBytes r .normal, some j⟩ }))
  | registered {g i : ℕ} {seenAlive : List ℕ} {gen : Generation K L} {producer : Producer L}
      {t : Thread} {r : Submission L} (hgen : p.generations[g]? = some gen)
      (hi : gen.state.threads[i]? = some producer) (ht : p.threads[i]? = some t)
      (hpc : producer.pc = .resolve r) (hnone : ∀ j, (g, j) ∉ t.producers) :
      ProcessMove p (.resolve g i seenAlive)
        { p with
          generations := p.generations.set g { gen with
            state := { gen.state with
              world := GenerationStep.registerLane gen.state.world
              threads := gen.state.threads.set i
                ⟨.claimBytes r .normal, some gen.state.world.lanes.length⟩ }
            owners := gen.owners ++ [i] }
          threads := p.threads.set i { t with
            producers := (t.producers.filter fun e => seenAlive.contains e.1 || isAlive p e) ++
              [(g, gen.state.world.lanes.length)] } }
  | run {g : ℕ} {a : GenerationStep.Action L} {gen : Generation K L} {s : State L}
      (hgen : p.generations[g]? = some gen) (hown : ownStep p gen a = true)
      (hs : Move gen.exporter gen.state a s) :
      ProcessMove p (.run g a) (setGeneration p g (withState gen s))
  | freed {g : ℕ} {gen : Generation K L} (hgen : p.generations[g]? = some gen)
      (hu : unreferenced p g gen = true) :
      ProcessMove p (.free g) (setGeneration p g { gen with freed := true })

/-- A step that is refused before anything happened. -/
theorem ProcessMove.refused {a : Action K L} : ProcessMove p a p :=
  .sinks (.idle : SinkMove p.sinks .spawn true p.sinks) rfl rfl

/-- Only a new thread brings a new cache. -/
theorem caches_of_move {s s' : Sinks K} {op : SinkOp K} {ok : Bool} (hm : SinkMove s op ok s')
    (hop : op ≠ .spawn) : s'.caches.length = s.caches.length := by
  cases hm with
  | spawned => exact absurd rfl hop
  | cached hc hp => exact List.length_set
  | _ => rfl

omit [DecidableEq K] in
/-- A handle that is open. -/
theorem handle_of_live {h : ℕ} {handle : ExporterHandle K} (hl : liveHandle p h = some handle) :
    p.handles[h]? = some handle ∧ handle.consumed = false := by
  obtain ⟨hh, hc⟩ := Option.filter_eq_some_iff.mp hl
  exact ⟨hh, by simpa using hc⟩

/-- Loading a callback looks the type up at most. -/
theorem loadCallback_move (hc : Consistent p.sinks) {i : ℕ} {key : K} {e : Option ℕ × Sinks K}
    (h : loadCallback p.sinks i key = some e) :
    ∃ ok, SinkMove p.sinks (.lookup i key) ok e.2 := by
  obtain ⟨cache, hcache, rfl⟩ := Option.map_eq_some_iff.mp h
  dsimp only
  split
  · exact ⟨true, .idle⟩
  · refine ⟨(cachedSink p.sinks.registry cache key).1.isSome, hc.move ?_⟩
    rw [operate, hcache]
    rfl

/-- Installing succeeds, is refused before anything happened, or gives a
prepared generation up. -/
theorem installOn_move (hc : Consistent p.sinks) {key : K} {r : Preparation L}
    {e : Except InstallError Unit × Process K L} (h : installOn p key r = some e) :
    ProcessMove p (.install key r) e.2 := by
  unfold installOn at h
  split at h
  · cases h
    exact .refused
  · obtain ⟨e', he, rfl⟩ := Option.map_eq_some_iff.mp h
    rcases registerSink_cases hc.wellformed he with ⟨slot, g, hg, hslot, hi, rfl⟩ | ⟨-, rfl⟩
    · exact .installed hg hslot hi
    · exact .abandoned

omit [DecidableEq K] in
/-- A registration is replaced only if it is active. -/
theorem replace_ok {g : Registry K} {r r' : SinkRegistration} {g' : Registry K}
    (h : replace g r = (.ok (), r', g')) :
    ∃ c, r.callback = some c ∧ g.active r.slot = some c ∧
      r' = { r with callback := some g.nextCallback } ∧ g' = g.swap r.slot := by
  unfold replace at h
  split at h
  · cases h
  · rename_i c hcb
    split_ifs at h with hp ha
    · cases h
    · obtain ⟨-, hpair⟩ := Prod.mk.inj h
      obtain ⟨rfl, rfl⟩ := Prod.mk.inj hpair
      exact ⟨c, hcb, ha, rfl, rfl⟩
    · cases h

omit [DecidableEq K] in
/-- A failed replacement changes neither the registration nor the registry. -/
theorem replace_error {g : Registry K} {r : SinkRegistration} {error : SinkError}
    {e : SinkRegistration × Registry K} (h : replace g r = (.error error, e)) : e = (r, g) := by
  unfold replace at h
  split at h
  · cases h
    rfl
  · split_ifs at h <;> cases h <;> rfl

omit [DecidableEq K] in
/-- The beginning of a drain is two moves of the old generation. -/
theorem retireGeneration_moves {gen gen' : Generation K L} (h : retireGeneration gen = some gen') :
    ∃ s s', Move gen.exporter gen.state (.command .reconfigure) s ∧
      Move gen.exporter s .control s' ∧ gen' = withState gen s' := by
  obtain ⟨s', hs', rfl⟩ := Option.map_eq_some_iff.mp h
  obtain ⟨s, hs, hs'⟩ := Option.bind_eq_some_iff.mp hs'
  exact ⟨s, s', stepMove hs, stepMove hs', rfl⟩

/-- Reconfiguring swaps the generation, is refused before anything happened,
or gives the prepared generation up. -/
theorem reconfigure_move {h : ℕ} {r : Preparation L}
    {e : Except ReconfigureError Unit × Process K L} (he : reconfigure p h r = some e) :
    ProcessMove p (.reconfigure h r) e.2 := by
  obtain ⟨handle, hl, he⟩ := Option.bind_eq_some_iff.mp he
  obtain ⟨hh, hopen⟩ := handle_of_live hl
  split at he
  · cases he
    exact .refused
  · split at he
    · cases he
      exact .abandoned
    · rename_i i hr
      obtain ⟨⟨reg, fate⟩, hi, he⟩ := Option.bind_eq_some_iff.mp he
      rcases hrep : replace p.sinks.registry reg with ⟨result, reg', g'⟩
      simp only [hrep] at he
      split at he
      · obtain ⟨rfl, rfl⟩ := Prod.mk.inj (replace_error hrep)
        cases he
        simp only [set_self hi]
        exact .abandoned
      · obtain ⟨gen', hnext, rfl⟩ := Option.map_eq_some_iff.mp he
        obtain ⟨gen, hgen, hretire⟩ := Option.bind_eq_some_iff.mp hnext
        obtain ⟨s, s', hs, hs', rfl⟩ := retireGeneration_moves hretire
        obtain ⟨c, hcb, ha, rfl, rfl⟩ := replace_ok hrep
        obtain ⟨slot, callback⟩ := reg
        cases hcb
        exact .reconfigured hh hopen hr hi ha hgen hs hs'

/-- Every step of a process with a consistent registry is one of its moves. -/
theorem processMove (hc : Consistent p.sinks) {a : Action K L}
    (h : ExporterProcess.step p a = some p') : ProcessMove p a p' := by
  cases a with
  | spawn =>
    cases h
    exact .spawn
  | exit i =>
    obtain ⟨t, ht, h⟩ := Option.bind_eq_some_iff.mp h
    split_ifs at h with hidle
    cases h
    exact .exit ht hidle
  | sink op =>
    simp only [ExporterProcess.step] at h
    split at h
    · cases h
    · rename_i hne
      split_ifs at h with hown
      obtain ⟨s, hs, rfl⟩ := Option.map_eq_some_iff.mp h
      obtain ⟨⟨ok, s'⟩, hop, rfl⟩ := Option.map_eq_some_iff.mp hs
      have hm := hc.move hop
      exact .sinks hm (caches_of_move hm hne) (Bool.eq_false_of_not_eq_true hown)
  | install key r =>
    simp only [ExporterProcess.step] at h
    split_ifs at h
    obtain ⟨e, he, rfl⟩ := Option.map_eq_some_iff.mp h
    exact installOn_move hc he
  | reconfigure h' r =>
    simp only [ExporterProcess.step] at h
    split_ifs at h
    obtain ⟨e, he, rfl⟩ := Option.map_eq_some_iff.mp h
    exact reconfigure_move he
  | close h' c =>
    have hclose : c ≠ .reconfigure ∧ closeHandle p h' c = some p' := by
      cases c with
      | reconfigure => cases h
      | shutdown => exact ⟨by decide, h⟩
      | drop => exact ⟨by decide, h⟩
    obtain ⟨hne, h⟩ := hclose
    obtain ⟨handle, hl, h⟩ := Option.bind_eq_some_iff.mp h
    obtain ⟨gen, hgen, h⟩ := Option.bind_eq_some_iff.mp h
    obtain ⟨s, hs, rfl⟩ := Option.map_eq_some_iff.mp h
    obtain ⟨hh, hopen⟩ := handle_of_live hl
    exact .closed hh hopen hne hgen (stepMove hs)
  | unregister h' =>
    obtain ⟨handle, hh, h⟩ := Option.bind_eq_some_iff.mp h
    obtain ⟨gen, hgen, h⟩ := Option.bind_eq_some_iff.mp h
    split_ifs at h with hcond
    obtain ⟨hclosed, hop⟩ := (Bool.and_eq_true _ _).mp hcond
    obtain ⟨sinks, hsinks, h⟩ := Option.bind_eq_some_iff.mp h
    obtain ⟨s, hs, rfl⟩ := Option.map_eq_some_iff.mp h
    exact .unregistered hh hclosed hgen (of_decide_eq_true hop) hsinks (stepMove hs)
  | dispatch i key log =>
    obtain ⟨t, ht, h⟩ := Option.bind_eq_some_iff.mp h
    split_ifs at h with hexit
    obtain ⟨e, he, h⟩ := Option.bind_eq_some_iff.mp h
    obtain ⟨ok, hm⟩ := loadCallback_move hc he
    split at h
    · cases h
      exact .sinks hm (caches_of_move hm fun hop => by cases hop) rfl
    · obtain ⟨gen, hgen, h⟩ := Option.bind_eq_some_iff.mp h
      obtain ⟨s, hs, rfl⟩ := Option.map_eq_some_iff.mp h
      exact .entered ht (Bool.eq_false_of_not_eq_true hexit) hm hgen (stepMove hs)
  | resolve g i seenAlive =>
    obtain ⟨gen, hgen, h⟩ := Option.bind_eq_some_iff.mp h
    obtain ⟨producer, hi, h⟩ := Option.bind_eq_some_iff.mp h
    obtain ⟨t, ht, h⟩ := Option.bind_eq_some_iff.mp h
    split at h
    · rename_i r hpc
      split at h
      · rename_i e hfind
        have hkey : e.1 = g := by simpa using List.find?_some hfind
        have hmem := List.mem_of_find?_eq_some hfind
        cases h
        exact .found hgen hi ht hpc (by rw [← hkey]; exact hmem)
      · rename_i hfind
        cases h
        refine .registered hgen hi ht hpc fun j hj => ?_
        simpa using List.find?_eq_none.mp hfind (g, j) hj
    · cases h
  | run g a =>
    obtain ⟨gen, hgen, h⟩ := Option.bind_eq_some_iff.mp h
    split_ifs at h with hown
    obtain ⟨s, hs, rfl⟩ := Option.map_eq_some_iff.mp h
    exact .run hgen hown (stepMove hs)
  | free g =>
    obtain ⟨gen, hgen, h⟩ := Option.bind_eq_some_iff.mp h
    split_ifs at h with hu
    cases h
    exact .freed hgen hu

/-! ## Threads -/

omit [DecidableEq K] in
/-- Only a new thread brings a new cell. -/
theorem size_of_move {x : Exporter L} {s s' : State L} {a : GenerationStep.Action L}
    (hm : Move x s a s') (ha : a ≠ .spawn) : s'.threads.length = s.threads.length := by
  cases hm with
  | spawn => exact absurd rfl ha
  | enter hi hpc hr => exact List.length_set
  | producer hi hm => exact List.length_set
  | exit hi hpc => exact List.length_set
  | _ => rfl

/-- Every generation has a cell for every thread, and so has the registry. -/
structure Sized (p : Process K L) : Prop where
  cells : ∀ gen ∈ p.generations, gen.state.threads.length = p.threads.length
  caches : p.sinks.caches.length = p.threads.length

omit [DecidableEq K] in
/-- One generation changes. -/
theorem Sized.set (h : Sized p) {g : ℕ} {gen gen' : Generation K L}
    (hgen : p.generations[g]? = some gen) (hset : p'.generations = p.generations.set g gen')
    (hs : gen'.state.threads.length = gen.state.threads.length)
    (ht : p'.threads.length = p.threads.length)
    (hc : p'.sinks.caches.length = p.sinks.caches.length) : Sized p' where
  cells := by
    rw [hset, ht]
    exact forall_mem_set h.cells (hs.trans (h.cells gen (List.mem_of_getElem? hgen)))
  caches := by rw [hc, ht, h.caches]

omit [DecidableEq K] in
/-- A generation is added. -/
theorem cells_append {l : List (Generation K L)} {n : ℕ} {new : Generation K L}
    (h : ∀ gen ∈ l, gen.state.threads.length = n) (hnew : new.state.threads.length = n) :
    ∀ gen ∈ l ++ [new], gen.state.threads.length = n :=
  List.forall_mem_append.mpr ⟨h, fun _ hm => (List.mem_singleton.mp hm) ▸ hnew⟩

omit [DecidableEq K] in
/-- Releasing a registration changes no cache. -/
theorem caches_release {s s' : Sinks K} {r : Option ℕ} (h : releaseRegistration s r = some s') :
    s'.caches = s.caches := by
  cases r with
  | none =>
    cases h
    rfl
  | some i =>
    obtain ⟨holder, -, rfl⟩ := Option.map_eq_some_iff.mp h
    rfl

/-- Every step keeps a cell for every thread. -/
theorem Sized.move (h : Sized p) {a : Action K L} (hm : ProcessMove p a p') : Sized p' := by
  have hfresh : ∀ n : ℕ, (preparedState n : State L).threads.length = n :=
    fun n => List.length_replicate
  cases hm with
  | spawn =>
    refine ⟨fun gen' hm => ?_, ?_⟩
    · obtain ⟨gen, hgen, rfl⟩ := List.mem_map.mp hm
      simp only [spawnIn, List.length_append, List.length_singleton, h.cells gen hgen]
    · simp only [List.length_append, List.length_singleton, h.caches]
  | exit ht hidle =>
    exact ⟨fun gen hgen => (h.cells gen hgen).trans List.length_set.symm,
      h.caches.trans List.length_set.symm⟩
  | sinks hm hc hown => exact ⟨h.cells, hc.trans h.caches⟩
  | abandoned => exact ⟨cells_append h.cells (hfresh _), h.caches⟩
  | installed hg he hi => exact ⟨cells_append h.cells (hfresh _), h.caches⟩
  | reconfigured hh hopen hr hi ha hgen hs hs' =>
    refine ⟨cells_append (forall_mem_set h.cells ?_) (hfresh _), h.caches⟩
    exact ((size_of_move hs' fun hc => by cases hc).trans
      (size_of_move hs fun hc => by cases hc)).trans (h.cells _ (List.mem_of_getElem? hgen))
  | closed hh hopen hne hgen hs =>
    exact h.set hgen rfl (size_of_move hs fun hc => by cases hc) rfl rfl
  | unregistered hh hclosed hgen hop hsinks hs =>
    exact h.set hgen rfl (size_of_move hs fun hc => by cases hc) rfl
      (congrArg List.length (caches_release hsinks))
  | entered ht hstay hm hgen hs =>
    exact h.set hgen rfl (size_of_move hs fun hc => by cases hc) rfl
      (caches_of_move hm fun hop => by cases hop)
  | found hgen hi ht hpc hj => exact h.set hgen rfl List.length_set rfl rfl
  | registered hgen hi ht hpc hj => exact h.set hgen rfl List.length_set List.length_set rfl
  | run hgen hown hs =>
    exact h.set hgen rfl (size_of_move hs fun ha => by rw [ha] at hown; cases hown) rfl rfl
  | freed hgen hu => exact h.set hgen rfl rfl rfl rfl

omit [DecidableEq K] in
/-- Nothing has a cell yet. -/
theorem Sized.init (K L : Type) : Sized (Process.init K L) := ⟨fun gen hm => (by cases hm), rfl⟩

end EdenLogger.ProcessMoves
