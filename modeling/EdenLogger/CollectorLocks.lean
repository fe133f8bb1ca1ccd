import EdenLogger.QueueAccounting
import Mathlib.Logic.Function.Basic

/-!
# The collector's locks

A step of the generation takes a critical section, or an update of a counter,
in one. Here they are taken apart. A thread and the worker acquire the mutex of
the registry or of a lane before they work under it. A prune checks one lane
after another. A claim on a large capacity reads the counter, then compares and
exchanges it, and does so again when the counter has changed. Every run of
these steps is still one of the generation. The mutex of a lane's spare is the
worker's alone and is left out.
-/

namespace EdenLogger.CollectorLocks

open MachineWord ExporterConfig ExporterLanes LogCollector GenerationState GenerationStep
open GenerationMoves GenerationFrames LaneOwnership QueueAccounting RunRules

variable {L : Type} {x : Exporter L}

/-! ## The state -/

/-- Who takes the collector's locks. -/
inductive Party where
  /-- A producing thread. -/
  | thread (i : ℕ)
  /-- The worker. -/
  | worker
  deriving DecidableEq

/-- The mutexes of the collector. -/
inductive Mutex where
  /-- The queues of a lane. -/
  | lane (j : ℕ)
  /-- The lane registry. -/
  | registry
  deriving DecidableEq

/-- Lanes are locked under the registry, never the other way round. -/
def Mutex.rank : Mutex → ℕ
  | .lane _ => 0
  | .registry => 1

/-- A prune under way: `retain` over the registered lanes. -/
structure Prune where
  /-- Lanes still to be checked. -/
  todo : List ℕ
  /-- Lanes checked, with whether they stay. -/
  checked : List (ℕ × Bool)
  /-- Whether the first lane to be checked was seen closed. -/
  sawClosed : Bool

/-- A generation with the locks and the locals of operations in progress. -/
structure LockedState (L : Type) where
  /-- The generation. -/
  base : State L
  /-- Who holds each mutex. -/
  holder : Mutex → Option Party
  /-- What a thread's update of a counter has read. -/
  loaded : ℕ → Option ℕ
  /-- The worker's prune. -/
  prune : Option Prune

/-- Nothing is locked. -/
def LockedState.init (L : Type) : LockedState L :=
  ⟨State.init L, fun _ => none, fun _ => none, none⟩

/-- Take a free mutex. -/
def acquire (s : LockedState L) (y : Party) (k : Mutex) : Option (LockedState L) :=
  match s.holder k with
  | none => some { s with holder := Function.update s.holder k (some y) }
  | some _ => none

/-- Give a mutex back. -/
def release (s : LockedState L) (k : Mutex) : LockedState L :=
  { s with holder := Function.update s.holder k none }

/-- Work under a mutex: take it, and with it held do the work and give it back. -/
def under (s : LockedState L) (y : Party) (k : Mutex) (work : Option (LockedState L)) :
    Option (LockedState L) :=
  if s.holder k = some y then work.map fun t => release t k else acquire s y k

/-! ## Threads -/

/-- The mutex a thread's next operation is done under. -/
def guardOf (p : Producer L) : Option Mutex :=
  match p.pc with
  | .resolve _ => if p.lane.isSome then none else some .registry
  | .push _ _ _ => p.lane.map Mutex.lane
  | _ => none

/-- The claim that a thread makes next by `fetch_update`. -/
def exchanges (x : Exporter L) (p : Producer L) : Option (Measure × QueueKind × ℕ) :=
  (asks p).filter fun c =>
    decide (c.2.2 ≤ limit x c.1 c.2.1) && decide (wordMax / 2 < limit x c.1 c.2.1)

/-- The generation takes a step of its own. -/
def baseStep (x : Exporter L) (s : LockedState L) (a : Action L) : Option (LockedState L) :=
  (step x s.base a).map fun t => { s with base := t }

/-- A thread has read the counter it claims on. -/
def load (s : LockedState L) (i : ℕ) (c : Measure × QueueKind × ℕ) : LockedState L :=
  { s with loaded := Function.update s.loaded i (some (gauge s.base.world c.1 c.2.1)) }

/-- One access of `fetch_update`. What it reads decides a refusal. A value that
was read before is exchanged if the counter still has it, unless the exchange
fails spuriously; otherwise the access leaves the value to be exchanged next. -/
def fetchUpdate (x : Exporter L) (spurious : Bool) (i : ℕ) (s : LockedState L)
    (c : Measure × QueueKind × ℕ) : Option (LockedState L) :=
  let current := gauge s.base.world c.1 c.2.1
  if claimAmount current (limit x c.1 c.2.1) c.2.2 = .refused ∨
      (s.loaded i = some current ∧ spurious = false) then
    baseStep x { s with loaded := Function.update s.loaded i none } (.producer i)
  else some (load s i c)

/-- One step of a thread. -/
def threadStep (x : Exporter L) (spurious : Bool) (i : ℕ) (s : LockedState L) (p : Producer L) :
    Option (LockedState L) :=
  match guardOf p with
  | some k => under s (.thread i) k (baseStep x s (.producer i))
  | none =>
    match exchanges x p with
    | some c => fetchUpdate x spurious i s c
    | none => baseStep x s (.producer i)

/-! ## The worker -/

/-- The registry after a prune, and the lanes the drain swaps out. -/
def pruneChecked (w : World L) (checked : List (ℕ × Bool)) : World L × List ℕ :=
  let snapshot := w.registry.snapshot fun j => checked.contains (j, true)
  ({ w with
      registry := snapshot.1
      metrics.producerLanes :=
        wrappingSub w.metrics.producerLanes (w.registry.lanes.length - snapshot.1.lanes.length) },
    snapshot.2)

/-- One step of a prune. -/
def pruneStep (s : LockedState L) (d : Drain) (c : Prune) : Option (LockedState L) :=
  match c.todo with
  | [] =>
    let pruned := pruneChecked s.base.world c.checked
    some (release
      { s with
        base := { s.base with
          world := pruned.1
          worker := { s.base.worker with pc := .take d pruned.2 [] } }
        prune := none } .registry)
  | j :: todo =>
    (s.base.world.lanes[j]?).bind fun lane =>
      if c.sawClosed then
        under s .worker (.lane j) (some
          { s with prune := some ⟨todo, c.checked ++ [(j, !lane.queues.isEmpty)], false⟩ })
      else if lane.closed then some { s with prune := some { c with sawClosed := true } }
      else some { s with prune := some ⟨todo, c.checked ++ [(j, true)], false⟩ }

/-- The mutex the worker's next operation is done under, outside a prune. -/
def workGuard : WorkerPc L → Option Mutex
  | .take _ (j :: _) _ => some (.lane j)
  | .ledgerClear _ _ => some .registry
  | _ => none

/-- Whether no lane that the worker is about to clear is locked. The source
takes these mutexes one by one, where nobody else uses them any more. -/
def clearable (s : LockedState L) : Bool :=
  match s.base.worker.pc with
  | .ledgerClear _ _ => s.base.world.registry.lanes.all fun j => (s.holder (.lane j)).isNone
  | _ => true

/-- One step of the worker. -/
def lockedWorker (x : Exporter L) (o : Oracle) (s : LockedState L) : Option (LockedState L) :=
  match s.base.worker.pc with
  | .drain d =>
    match s.prune with
    | none => (acquire s .worker .registry).map fun t =>
        { t with prune := some ⟨s.base.world.registry.lanes, [], false⟩ }
    | some c => pruneStep s d c
  | pc =>
    match workGuard pc with
    | some k => under s .worker k (if clearable s then baseStep x s (.worker o) else none)
    | none => baseStep x s (.worker o)

/-- One step with the locks. A label says who moves, and whether a comparison
that it makes fails spuriously. -/
def lockedStep (x : Exporter L) (s : LockedState L) (a : Action L × Bool) :
    Option (LockedState L) :=
  match a.1 with
  | .producer i => (s.base.threads[i]?).bind (threadStep x a.2 i s)
  | .worker o => if s.base.aborted then none else lockedWorker x o s
  | a => baseStep x s a

/-- What a step with the locks can do. -/
inductive LockedMove (x : Exporter L) (s : LockedState L) :
    Action L × Bool → LockedState L → Prop where
  | other {a : Action L} {b : Bool} {t : State L} (hp : ∀ i, a ≠ .producer i)
      (hw : ∀ o, a ≠ .worker o) (hs : step x s.base a = some t) :
      LockedMove x s (a, b) { s with base := t }
  | threadAcquire {i : ℕ} {b : Bool} {p : Producer L} {k : Mutex}
      (hi : s.base.threads[i]? = some p) (hg : guardOf p = some k) (hfree : s.holder k = none) :
      LockedMove x s (.producer i, b)
        { s with holder := Function.update s.holder k (some (.thread i)) }
  | threadUnder {i : ℕ} {b : Bool} {p : Producer L} {k : Mutex} {t : State L}
      (hi : s.base.threads[i]? = some p) (hg : guardOf p = some k)
      (hheld : s.holder k = some (.thread i)) (hs : step x s.base (.producer i) = some t) :
      LockedMove x s (.producer i, b) (release { s with base := t } k)
  | exchange {i : ℕ} {b : Bool} {p : Producer L} {c : Measure × QueueKind × ℕ} {t : State L}
      (hi : s.base.threads[i]? = some p) (hg : guardOf p = none) (hc : exchanges x p = some c)
      (hfinal : claimAmount (gauge s.base.world c.1 c.2.1) (limit x c.1 c.2.1) c.2.2 = .refused ∨
        (s.loaded i = some (gauge s.base.world c.1 c.2.1) ∧ b = false))
      (hs : step x s.base (.producer i) = some t) :
      LockedMove x s (.producer i, b)
        { s with base := t, loaded := Function.update s.loaded i none }
  | load {i : ℕ} {b : Bool} {p : Producer L} {c : Measure × QueueKind × ℕ}
      (hi : s.base.threads[i]? = some p) (hg : guardOf p = none) (hc : exchanges x p = some c)
      (hagain : s.loaded i = some (gauge s.base.world c.1 c.2.1) → b = true) :
      LockedMove x s (.producer i, b) (load s i c)
  | thread {i : ℕ} {b : Bool} {p : Producer L} {t : State L} (hi : s.base.threads[i]? = some p)
      (hg : guardOf p = none) (hc : exchanges x p = none)
      (hs : step x s.base (.producer i) = some t) :
      LockedMove x s (.producer i, b) { s with base := t }
  | beginPrune {o : Oracle} {b : Bool} {d : Drain} (hab : s.base.aborted = false)
      (hpc : s.base.worker.pc = .drain d) (hn : s.prune = none)
      (hfree : s.holder .registry = none) :
      LockedMove x s (.worker o, b)
        { s with
          holder := Function.update s.holder .registry (some .worker)
          prune := some ⟨s.base.world.registry.lanes, [], false⟩ }
  | sawOpen {o : Oracle} {b : Bool} {d : Drain} {j : ℕ} {todo : List ℕ}
      {checked : List (ℕ × Bool)} {lane : ProducerLane L} (hab : s.base.aborted = false)
      (hpc : s.base.worker.pc = .drain d) (hp : s.prune = some ⟨j :: todo, checked, false⟩)
      (hj : s.base.world.lanes[j]? = some lane) (hopen : lane.closed = false) :
      LockedMove x s (.worker o, b) { s with prune := some ⟨todo, checked ++ [(j, true)], false⟩ }
  | sawClosed {o : Oracle} {b : Bool} {d : Drain} {j : ℕ} {todo : List ℕ}
      {checked : List (ℕ × Bool)} {lane : ProducerLane L} (hab : s.base.aborted = false)
      (hpc : s.base.worker.pc = .drain d) (hp : s.prune = some ⟨j :: todo, checked, false⟩)
      (hj : s.base.world.lanes[j]? = some lane) (hclosed : lane.closed = true) :
      LockedMove x s (.worker o, b) { s with prune := some ⟨j :: todo, checked, true⟩ }
  | checkAcquire {o : Oracle} {b : Bool} {d : Drain} {j : ℕ} {todo : List ℕ}
      {checked : List (ℕ × Bool)} {lane : ProducerLane L} (hab : s.base.aborted = false)
      (hpc : s.base.worker.pc = .drain d) (hp : s.prune = some ⟨j :: todo, checked, true⟩)
      (hj : s.base.world.lanes[j]? = some lane) (hfree : s.holder (.lane j) = none) :
      LockedMove x s (.worker o, b)
        { s with holder := Function.update s.holder (.lane j) (some .worker) }
  | checkEmpty {o : Oracle} {b : Bool} {d : Drain} {j : ℕ} {todo : List ℕ}
      {checked : List (ℕ × Bool)} {lane : ProducerLane L} (hab : s.base.aborted = false)
      (hpc : s.base.worker.pc = .drain d) (hp : s.prune = some ⟨j :: todo, checked, true⟩)
      (hj : s.base.world.lanes[j]? = some lane) (hheld : s.holder (.lane j) = some .worker) :
      LockedMove x s (.worker o, b)
        (release { s with prune := some ⟨todo, checked ++ [(j, !lane.queues.isEmpty)], false⟩ }
          (.lane j))
  | finishPrune {o : Oracle} {b : Bool} {d : Drain} {checked : List (ℕ × Bool)} {saw : Bool}
      (hab : s.base.aborted = false) (hpc : s.base.worker.pc = .drain d)
      (hp : s.prune = some ⟨[], checked, saw⟩) :
      LockedMove x s (.worker o, b)
        (release
          { s with
            base := { s.base with
              world := (pruneChecked s.base.world checked).1
              worker := { s.base.worker with
                pc := .take d (pruneChecked s.base.world checked).2 [] } }
            prune := none } .registry)
  | workerAcquire {o : Oracle} {b : Bool} {k : Mutex} (hab : s.base.aborted = false)
      (hg : workGuard s.base.worker.pc = some k) (hfree : s.holder k = none) :
      LockedMove x s (.worker o, b) { s with holder := Function.update s.holder k (some .worker) }
  | workerUnder {o : Oracle} {b : Bool} {k : Mutex} {t : State L} (hab : s.base.aborted = false)
      (hg : workGuard s.base.worker.pc = some k) (hheld : s.holder k = some .worker)
      (hs : step x s.base (.worker o) = some t) :
      LockedMove x s (.worker o, b) (release { s with base := t } k)
  | worker {o : Oracle} {b : Bool} {t : State L} (hd : ∀ d, s.base.worker.pc ≠ .drain d)
      (hg : workGuard s.base.worker.pc = none) (hs : step x s.base (.worker o) = some t) :
      LockedMove x s (.worker o, b) { s with base := t }

variable {s s' : LockedState L} {a : Action L × Bool}

/-- Taking a mutex finds it free. -/
theorem acquire_eq_some {y : Party} {k : Mutex} (h : acquire s y k = some s') :
    s.holder k = none ∧ s' = { s with holder := Function.update s.holder k (some y) } := by
  unfold acquire at h
  split at h
  · rename_i hfree
    cases h
    exact ⟨hfree, rfl⟩
  · cases h

/-- Work under a mutex takes it, or is done with it held. -/
theorem under_eq_some {y : Party} {k : Mutex} {work : Option (LockedState L)}
    (h : under s y k work = some s') :
    (s.holder k = none ∧ s' = { s with holder := Function.update s.holder k (some y) }) ∨
      s.holder k = some y ∧ ∃ t, work = some t ∧ s' = release t k := by
  unfold under at h
  split at h
  · rename_i hheld
    obtain ⟨t, ht, rfl⟩ := Option.map_eq_some_iff.mp h
    exact Or.inr ⟨hheld, t, ht, rfl⟩
  · exact Or.inl (acquire_eq_some h)

/-- A step of the generation's own. -/
theorem baseStep_eq_some {a : Action L} (h : baseStep x s a = some s') :
    ∃ t, step x s.base a = some t ∧ s' = { s with base := t } := by
  obtain ⟨t, ht, rfl⟩ := Option.map_eq_some_iff.mp h
  exact ⟨t, ht, rfl⟩

/-- What a thread's step is. -/
theorem threadMove {i : ℕ} {b : Bool} {p : Producer L} (hi : s.base.threads[i]? = some p)
    (h : threadStep x b i s p = some s') : LockedMove x s (.producer i, b) s' := by
  unfold threadStep at h
  split at h
  · rename_i k hg
    rcases under_eq_some h with ⟨hfree, rfl⟩ | ⟨hheld, t, ht, rfl⟩
    · exact .threadAcquire hi hg hfree
    · obtain ⟨u, hu, rfl⟩ := baseStep_eq_some ht
      exact .threadUnder hi hg hheld hu
  · rename_i hg
    split at h
    · rename_i c hc
      unfold fetchUpdate at h
      dsimp only at h
      split at h
      · rename_i hfinal
        obtain ⟨t, ht, rfl⟩ := baseStep_eq_some h
        exact .exchange hi hg hc hfinal ht
      · rename_i hfinal
        cases h
        refine .load hi hg hc fun hsame => ?_
        cases b with
        | true => rfl
        | false => exact absurd (Or.inr ⟨hsame, rfl⟩) hfinal
    · rename_i hc
      obtain ⟨t, ht, rfl⟩ := baseStep_eq_some h
      exact .thread hi hg hc ht

/-- What the worker's step is. -/
theorem lockedWorkerMove {o : Oracle} {b : Bool} (hab : s.base.aborted = false)
    (h : lockedWorker x o s = some s') : LockedMove x s (.worker o, b) s' := by
  unfold lockedWorker at h
  split at h
  · rename_i d hpc
    split at h
    · rename_i hn
      obtain ⟨t, ht, rfl⟩ := Option.map_eq_some_iff.mp h
      obtain ⟨hfree, rfl⟩ := acquire_eq_some ht
      exact .beginPrune hab hpc hn hfree
    · rename_i c hp
      obtain ⟨todo, checked, saw⟩ := c
      unfold pruneStep at h
      dsimp only at h
      split at h
      · cases h
        exact .finishPrune hab hpc hp
      · obtain ⟨lane, hj, h⟩ := Option.bind_eq_some_iff.mp h
        cases saw with
        | true =>
          rw [if_pos rfl] at h
          rcases under_eq_some h with ⟨hfree, rfl⟩ | ⟨hheld, t, ht, rfl⟩
          · exact .checkAcquire hab hpc hp hj hfree
          · cases ht
            exact .checkEmpty hab hpc hp hj hheld
        | false =>
          rw [if_neg Bool.false_ne_true] at h
          split at h
          · rename_i hclosed
            cases h
            exact .sawClosed hab hpc hp hj hclosed
          · rename_i hopen
            cases h
            exact .sawOpen hab hpc hp hj (Bool.eq_false_of_not_eq_true hopen)
  · rename_i hd
    split at h
    · rename_i k hg
      rcases under_eq_some h with ⟨hfree, rfl⟩ | ⟨hheld, t, ht, rfl⟩
      · exact .workerAcquire hab hg hfree
      · split at ht
        · obtain ⟨u, hu, rfl⟩ := baseStep_eq_some ht
          exact .workerUnder hab hg hheld hu
        · cases ht
    · rename_i hg
      obtain ⟨t, ht, rfl⟩ := baseStep_eq_some h
      exact .worker hd hg ht

/-- What a step is. -/
theorem lockedMove (h : lockedStep x s a = some s') : LockedMove x s a s' := by
  obtain ⟨action, b⟩ := a
  unfold lockedStep at h
  dsimp only at h
  split at h
  · obtain ⟨p, hi, h⟩ := Option.bind_eq_some_iff.mp h
    exact threadMove hi h
  · split at h
    · cases h
    · rename_i hab
      exact lockedWorkerMove (Bool.eq_false_of_not_eq_true hab) h
  · rename_i hp hw
    obtain ⟨t, ht, rfl⟩ := baseStep_eq_some h
    exact .other hp hw ht

/-! ## Who holds what -/

/-- The mutexes the worker may hold at a place. -/
def workerLocks (pc : WorkerPc L) (prune : Option Prune) : List Mutex :=
  match pc, prune with
  | .drain _, some ⟨j :: _, _, true⟩ => [.registry, .lane j]
  | .drain _, some _ => [.registry]
  | pc, _ => (workGuard pc).toList

/-- What a prune has found out. -/
structure PruneLaw (w : World L) (c : Prune) : Prop where
  /-- The registry is checked in order. -/
  lanes : c.checked.map Prod.fst ++ c.todo = w.registry.lanes
  /-- A lane that does not stay is closed and empty. -/
  gone : ∀ j, (j, false) ∈ c.checked →
    ∃ lane, w.lanes[j]? = some lane ∧ lane.closed = true ∧ lane.queues.isEmpty = true
  /-- What was seen closed is. -/
  closed : c.sawClosed = true → ∀ j ∈ c.todo.head?,
    ∃ lane, w.lanes[j]? = some lane ∧ lane.closed = true

/-- Mutexes are held where they are used. -/
structure LockLaw (s : LockedState L) : Prop where
  /-- A thread holds the one it works under. -/
  thread : ∀ {k i}, s.holder k = some (.thread i) →
    ∃ p, s.base.threads[i]? = some p ∧ guardOf p = some k
  /-- So does the worker. -/
  worker : ∀ {k}, s.holder k = some .worker → k ∈ workerLocks s.base.worker.pc s.prune
  /-- A prune is made with the registry locked. -/
  pruning : ∀ {c}, s.prune = some c →
    (∃ d, s.base.worker.pc = .drain d) ∧ s.holder .registry = some .worker
  /-- And it is right. -/
  prune : ∀ {c}, s.prune = some c → PruneLaw s.base.world c

/-- Only a thread that works under the registry's mutex changes the registry, besides the
worker. -/
theorem registry_kept {s s' : State L} {a : Action L} (hm : Move x s a s')
    (hw : ∀ o, a ≠ .worker o)
    (hg : ∀ i p, a = .producer i → s.threads[i]? = some p → guardOf p ≠ some .registry) :
    s'.world.registry = s.world.registry := by
  cases hm with
  | @producer i p p' w' hi hm =>
    rcases producer_lane hm with ⟨-, hr⟩ | ⟨r, hpc, hl, -, -⟩
    · exact hr
    · exact absurd (by simp [guardOf, hpc, hl]) (hg i p rfl hi)
  | worker hab hm => exact absurd rfl (hw _)
  | flush hj hm => rw [(flush_world hm).1]
  | @control op rest hp hr => exact (controlStep_frame s.world s.control op).registry
  | _ => rfl

/-- A closed lane is left alone by everybody but the worker. -/
theorem closed_kept {s s' : State L} {a : Action L} (hm : Move x s a s') (ho : LanesOwned s)
    (hw : ∀ o, a ≠ .worker o) {j : ℕ} {lane : ProducerLane L}
    (hj : s.world.lanes[j]? = some lane) (hc : lane.closed = true) :
    s'.world.lanes[j]? = some lane := by
  cases hm with
  | @producer i p p' w' hi hm =>
    -- a thread writes its own lane only, and has not closed it yet
    have hown : ∀ {j'}, p.lane = some j' → p.pc ≠ .closed → p.pc ≠ .gone → j' ≠ j := by
      rintro j' hl hclosed hgone rfl
      exact (ho.closed_lane hi hl hj hc).elim hclosed hgone
    cases hm
    case register hl hpc =>
      exact (List.getElem?_append_left (List.getElem?_eq_some_iff.mp hj).1).trans hj
    case push r q ticket j' lane' hl hlane hpc =>
      have hne : j' ≠ j := hown hl (by rw [hpc]; simp) (by rw [hpc]; simp)
      exact (List.getElem?_set_ne hne).trans hj
    case close j' lane' hl hlane hpc =>
      have hne : j' ≠ j := hown hl (by rw [hpc]; simp) (by rw [hpc]; simp)
      exact (List.getElem?_set_ne hne).trans hj
    case refused failure hpc => cases failure <;> exact hj
    all_goals exact hj
  | worker hab hm => exact absurd rfl (hw _)
  | flush hj' hm =>
    rw [(flush_world hm).1]
    exact hj
  | @control op rest hp hr =>
    dsimp only
    rw [(controlStep_frame s.world s.control op).lanes]
    exact hj
  | _ => exact hj

/-- A thread that works under a mutex stays where it is while others move. -/
theorem guard_kept {s s' : State L} {a : Action L} (hm : Move x s a s') {i : ℕ} {p : Producer L}
    {k : Mutex} (ha : a ≠ .producer i) (hi : s.threads[i]? = some p) (hg : guardOf p = some k) :
    ∃ p', s'.threads[i]? = some p' ∧ guardOf p' = some k := by
  have hidle : ∀ {j : ℕ} {q : Producer L}, s.threads[j]? = some q → q.pc = .idle → j ≠ i := by
    rintro j q hj hpc rfl
    cases hi.symm.trans hj
    rw [guardOf, hpc] at hg
    cases hg
  have hlt := (List.getElem?_eq_some_iff.mp hi).1
  cases hm with
  | spawn => exact ⟨p, (List.getElem?_append_left hlt).trans hi, hg⟩
  | enter hj hpc hr => exact ⟨p, (List.getElem?_set_ne (hidle hj hpc)).trans hi, hg⟩
  | @producer j q q' w' hj hm =>
    have hne : j ≠ i := fun hji => ha (hji ▸ rfl)
    exact ⟨p, (List.getElem?_set_ne hne).trans hi, hg⟩
  | exit hj hpc => exact ⟨p, (List.getElem?_set_ne (hidle hj hpc)).trans hi, hg⟩
  | _ => exact ⟨p, hi, hg⟩

/-- Nobody but the worker moves it. -/
theorem worker_kept {s s' : State L} {a : Action L} (hm : Move x s a s')
    (hw : ∀ o, a ≠ .worker o) : s'.worker = s.worker := by
  cases hm with
  | worker hab hm => exact absurd rfl (hw _)
  | _ => rfl

/-- A prune stays right while closed lanes and the registry do. -/
theorem PruneLaw.keep {w w' : World L} {c : Prune} (h : PruneLaw w c)
    (hr : w'.registry = w.registry)
    (hl : ∀ {j : ℕ} {lane : ProducerLane L}, w.lanes[j]? = some lane → lane.closed = true →
      w'.lanes[j]? = some lane) : PruneLaw w' c where
  lanes := hr ▸ h.lanes
  gone := fun j hj => by
    obtain ⟨lane, hlane, hc, he⟩ := h.gone j hj
    exact ⟨lane, hl hlane hc, hc, he⟩
  closed := fun hs j hj => by
    obtain ⟨lane, hlane, hc⟩ := h.closed hs j hj
    exact ⟨lane, hl hlane hc, hc⟩

/-- A given-back mutex is free, and the others are held as before. -/
theorem held_of_release {holder : Mutex → Option Party} {k k' : Mutex} {y : Party}
    (h : Function.update holder k none k' = some y) : k' ≠ k ∧ holder k' = some y := by
  by_cases hk : k' = k
  · rw [hk, Function.update_self] at h
    cases h
  · rw [Function.update_of_ne hk] at h
    exact ⟨hk, h⟩

/-- A taken mutex is held by the party that took it, and the others are held as before. -/
theorem held_of_acquire {holder : Mutex → Option Party} {k k' : Mutex} {y y' : Party}
    (h : Function.update holder k (some y) k' = some y') :
    (k' = k ∧ y' = y) ∨ holder k' = some y' := by
  by_cases hk : k' = k
  · rw [hk, Function.update_self] at h
    exact Or.inl ⟨hk, (Option.some.inj h).symm⟩
  · rw [Function.update_of_ne hk] at h
    exact Or.inr h

/-- A mutex is free before it is taken, so nobody loses it then. -/
theorem held_acquire {holder : Mutex → Option Party} {k : Mutex} {y y' : Party}
    (hfree : holder k = none) (k' : Mutex) (h : holder k' = some y') :
    Function.update holder k (some y) k' = some y' := by
  have hne : k' ≠ k := by
    rintro rfl
    cases hfree.symm.trans h
  rwa [Function.update_of_ne hne]

/-- Only its holder gives a mutex back. -/
theorem held_release {holder : Mutex → Option Party} {k : Mutex} {y : Party}
    (hother : holder k ≠ some y) (k' : Mutex) (h : holder k' = some y) :
    Function.update holder k none k' = some y := by
  have hne : k' ≠ k := by
    rintro rfl
    exact hother h
  rwa [Function.update_of_ne hne]

/-- A step of anybody but the worker keeps the law, if it leaves the mutexes alone or the
thread that moves gives back all it holds. -/
theorem LockLaw.moved (h : LockLaw s) {a : Action L} {t : State L} (hm : Move x s.base a t)
    (ho : LanesOwned s.base) (hw : ∀ o, a ≠ .worker o) {holder : Mutex → Option Party}
    {loaded : ℕ → Option ℕ}
    (hheld : ∀ {k y}, holder k = some y → s.holder k = some y ∧ ∀ i, a = .producer i →
      y ≠ .thread i)
    (hreg : s.holder .registry = some .worker → holder .registry = some .worker ∧
      ∀ i p, a = .producer i → s.base.threads[i]? = some p → guardOf p ≠ some .registry) :
    LockLaw ⟨t, holder, loaded, s.prune⟩ where
  thread := fun {k i} hk => by
    obtain ⟨hold, hne⟩ := hheld hk
    obtain ⟨p, hi, hg⟩ := h.thread hold
    exact guard_kept hm (fun ha => hne i ha rfl) hi hg
  worker := fun hk => by
    have hlocks := h.worker (hheld hk).1
    rwa [← worker_kept hm hw] at hlocks
  pruning := fun hp => by
    obtain ⟨⟨d, hpc⟩, hr⟩ := h.pruning hp
    exact ⟨⟨d, (congrArg Worker.pc (worker_kept hm hw)).trans hpc⟩, (hreg hr).1⟩
  prune := fun hp =>
    (h.prune hp).keep (registry_kept hm hw (hreg (h.pruning hp).2).2) (closed_kept hm ho hw)

/-- A step of the worker outside a prune keeps the law, if it gives back all it holds. -/
theorem LockLaw.worked (h : LockLaw s) {o : Oracle} {t : State L}
    (hm : Move x s.base (.worker o) t) (hp : s.prune = none) {holder : Mutex → Option Party}
    (hheld : ∀ {k y}, holder k = some y → s.holder k = some y ∧ y ≠ .worker) :
    LockLaw ⟨t, holder, s.loaded, s.prune⟩ where
  thread := fun hk => by
    obtain ⟨p, hi, hg⟩ := h.thread (hheld hk).1
    exact guard_kept hm (by simp) hi hg
  worker := fun hk => absurd rfl (hheld hk).2
  pruning := fun hc => absurd (hp.symm.trans hc) (by simp)
  prune := fun hc => absurd (hp.symm.trans hc) (by simp)

/-- The mutexes of a place outside a prune. -/
theorem workerLocks_of_ne {pc : WorkerPc L} (prune : Option Prune) (hd : ∀ d, pc ≠ .drain d) :
    workerLocks pc prune = (workGuard pc).toList := by
  cases pc with
  | drain d => exact absurd rfl (hd d)
  | _ => rfl

/-- Work outside a prune is not done in one. -/
theorem ne_drain_of_guard {pc : WorkerPc L} {k : Mutex} (hg : workGuard pc = some k) (d : Drain) :
    pc ≠ .drain d := by
  rintro rfl
  cases hg

/-- There is no prune at other places. -/
theorem LockLaw.prune_none (h : LockLaw s) (hd : ∀ d, s.base.worker.pc ≠ .drain d) :
    s.prune = none := by
  by_contra hp
  obtain ⟨c, hc⟩ := Option.ne_none_iff_exists'.mp hp
  obtain ⟨⟨d, hpc⟩, -⟩ := h.pruning hc
  exact hd d hpc

/-- A thread that takes a free mutex holds it where it works under it. -/
theorem LockLaw.threadTakes (h : LockLaw s) {i : ℕ} {p : Producer L} {k : Mutex}
    (hi : s.base.threads[i]? = some p) (hg : guardOf p = some k) (hfree : s.holder k = none) :
    LockLaw { s with holder := Function.update s.holder k (some (.thread i)) } where
  thread := fun hk => by
    rcases held_of_acquire hk with ⟨rfl, hy⟩ | hold
    · cases hy
      exact ⟨p, hi, hg⟩
    · exact h.thread hold
  worker := fun hk => by
    rcases held_of_acquire hk with ⟨-, hy⟩ | hold
    · cases hy
    · exact h.worker hold
  pruning := fun hp => ⟨(h.pruning hp).1, held_acquire hfree _ (h.pruning hp).2⟩
  prune := h.prune

/-- So does the worker. -/
theorem LockLaw.workerTakes (h : LockLaw s) {k : Mutex} (hfree : s.holder k = none)
    (hk : k ∈ workerLocks s.base.worker.pc s.prune) :
    LockLaw { s with holder := Function.update s.holder k (some .worker) } where
  thread := fun hk' => by
    rcases held_of_acquire hk' with ⟨-, hy⟩ | hold
    · cases hy
    · exact h.thread hold
  worker := fun hk' => by
    rcases held_of_acquire hk' with ⟨rfl, -⟩ | hold
    · exact hk
    · exact h.worker hold
  pruning := fun hp => ⟨(h.pruning hp).1, held_acquire hfree _ (h.pruning hp).2⟩
  prune := h.prune

/-- A prune goes on, with the registry locked. -/
theorem LockLaw.prunes (h : LockLaw s) {d : Drain} {c : Prune} {holder : Mutex → Option Party}
    (hpc : s.base.worker.pc = .drain d) (hc : PruneLaw s.base.world c)
    (hthread : ∀ {k i}, holder k = some (.thread i) → s.holder k = some (.thread i))
    (hworker : ∀ {k}, holder k = some .worker → k ∈ workerLocks (.drain d : WorkerPc L) (some c))
    (hreg : holder .registry = some .worker) :
    LockLaw { s with holder := holder, prune := some c } where
  thread := fun hk => h.thread (hthread hk)
  worker := fun hk => hpc ▸ hworker hk
  pruning := fun _ => ⟨⟨d, hpc⟩, hreg⟩
  prune := fun hp => Option.some.inj hp ▸ hc

/-- A thread that works under no mutex holds none. -/
theorem LockLaw.unguarded (h : LockLaw s) {i : ℕ} {p : Producer L}
    (hi : s.base.threads[i]? = some p) (hg : guardOf p = none) (k : Mutex) :
    s.holder k ≠ some (.thread i) := by
  intro hk
  obtain ⟨q, hq, hgq⟩ := h.thread hk
  cases hi.symm.trans hq
  cases hg.symm.trans hgq

/-- A step that a thread makes without a mutex keeps the law. -/
theorem LockLaw.threadMoved (h : LockLaw s) (ho : LanesOwned s.base) {i : ℕ} {p : Producer L}
    {t : State L} {loaded : ℕ → Option ℕ} (hm : Move x s.base (.producer i) t)
    (hi : s.base.threads[i]? = some p) (hg : guardOf p = none) :
    LockLaw ⟨t, s.holder, loaded, s.prune⟩ := by
  refine h.moved hm ho (by simp) (fun hk => ⟨hk, ?_⟩) fun hr => ⟨hr, ?_⟩
  · rintro j ha rfl
    cases ha
    exact h.unguarded hi hg _ hk
  · rintro j q ha hq hgq
    cases ha
    cases hi.symm.trans hq
    cases hg.symm.trans hgq

/-- Until a lane is seen closed, a prune locks the registry only. -/
theorem workerLocks_open (d : Drain) (todo : List ℕ) (checked : List (ℕ × Bool)) :
    workerLocks (.drain d : WorkerPc L) (some ⟨todo, checked, false⟩) = [.registry] := by
  cases todo <;> rfl

/-- A prune with one more lane checked is right. -/
theorem PruneLaw.next {w : World L} {j : ℕ} {todo : List ℕ} {checked : List (ℕ × Bool)}
    {saw keep : Bool} (h : PruneLaw w ⟨j :: todo, checked, saw⟩)
    (hk : keep = false → ∃ lane, w.lanes[j]? = some lane ∧ lane.closed = true ∧
      lane.queues.isEmpty = true) : PruneLaw w ⟨todo, checked ++ [(j, keep)], false⟩ where
  lanes := by simpa using h.lanes
  gone := fun j' hj => by
    rcases List.mem_append.mp hj with hj | hj
    · exact h.gone j' hj
    · rw [List.mem_singleton, Prod.mk.injEq] at hj
      obtain ⟨rfl, hkeep⟩ := hj
      exact hk hkeep.symm
  closed := fun hs => by cases hs

/-- At first nobody holds anything. -/
theorem LockLaw.init (L : Type) : LockLaw (LockedState.init L) where
  thread := fun hk => by cases hk
  worker := fun hk => by cases hk
  pruning := fun hp => by cases hp
  prune := fun hp => by cases hp

/-- Mutexes are held where they are used, after every step. -/
theorem LockLaw.step (h : LockLaw s) (hb : Reachable x s.base) (hm : LockedMove x s a s') :
    LockLaw s' := by
  have ho := lanesOwned hb
  cases hm with
  | other hp hw hs =>
    exact h.moved (stepMove hs) ho hw (fun hk => ⟨hk, fun i ha => absurd ha (hp i)⟩)
      fun hr => ⟨hr, fun i _ ha => absurd ha (hp i)⟩
  | threadAcquire hi hg hfree => exact h.threadTakes hi hg hfree
  | @threadUnder i b p k t hi hg hheld hs =>
    refine h.moved (stepMove hs) ho (by simp) (fun hk => ?_) fun hr => ?_
    · obtain ⟨hne, hold⟩ := held_of_release hk
      refine ⟨hold, ?_⟩
      rintro j ha rfl
      cases ha
      obtain ⟨q, hq, hgq⟩ := h.thread hold
      cases hi.symm.trans hq
      exact hne (Option.some.inj (hgq.symm.trans hg))
    · refine ⟨held_release (by simp [hheld]) _ hr, ?_⟩
      rintro j q ha hq hgq
      cases ha
      cases hi.symm.trans hq
      cases hg.symm.trans hgq
      cases hheld.symm.trans hr
  | exchange hi hg hc hfinal hs => exact h.threadMoved ho (stepMove hs) hi hg
  | load hi hg hc hagain => exact ⟨h.thread, h.worker, h.pruning, h.prune⟩
  | thread hi hg hc hs => exact h.threadMoved ho (stepMove hs) hi hg
  | @beginPrune o b d hab hpc hn hfree =>
    refine h.prunes hpc ⟨rfl, by simp, fun hs => by cases hs⟩ (fun hk => ?_) (fun hk => ?_)
      (Function.update_self ..)
    · exact (held_of_acquire hk).resolve_left (by simp)
    · rw [workerLocks_open]
      rcases held_of_acquire hk with ⟨rfl, -⟩ | hold
      · exact List.mem_singleton_self _
      · have hlocks := h.worker hold
        rw [hpc, hn] at hlocks
        cases hlocks
  | @sawOpen o b d j todo checked lane hab hpc hp hj hopen =>
    refine h.prunes hpc ((h.prune hp).next fun hs => by cases hs) id (fun hk => ?_)
      (h.pruning hp).2
    have hlocks := h.worker hk
    rw [hpc, hp, workerLocks_open] at hlocks
    rwa [workerLocks_open]
  | @sawClosed o b d j todo checked lane hab hpc hp hj hclosed =>
    have hl := h.prune hp
    refine h.prunes hpc ⟨hl.lanes, hl.gone, fun _ j' hj' => ?_⟩ id (fun hk => ?_)
      (h.pruning hp).2
    · cases hj'
      exact ⟨lane, hj, hclosed⟩
    · have hlocks := h.worker hk
      rw [hpc, hp, workerLocks_open] at hlocks
      rw [List.mem_singleton.mp hlocks]
      exact List.mem_cons_self
  | checkAcquire hab hpc hp hj hfree =>
    refine h.workerTakes hfree ?_
    rw [hpc, hp]
    exact List.mem_cons_of_mem _ List.mem_cons_self
  | @checkEmpty o b d j todo checked lane hab hpc hp hj hheld =>
    obtain ⟨lane', hlane, hclosed⟩ := (h.prune hp).closed rfl j rfl
    cases hj.symm.trans hlane
    refine h.prunes hpc ((h.prune hp).next fun hs => ⟨lane, hj, hclosed, by simpa using hs⟩)
      (fun hk => (held_of_release hk).2) (fun hk => ?_)
      ((Function.update_of_ne (by simp) _ _).trans (h.pruning hp).2)
    obtain ⟨hne, hold⟩ := held_of_release hk
    have hlocks := h.worker hold
    rw [hpc, hp] at hlocks
    rcases List.mem_cons.mp hlocks with rfl | hlocks
    · rw [workerLocks_open]
      exact List.mem_singleton_self _
    · exact absurd (List.mem_singleton.mp hlocks) hne
  | @finishPrune o b d checked saw hab hpc hp =>
    refine ⟨fun hk => h.thread (held_of_release hk).2, fun hk => ?_, nofun, nofun⟩
    obtain ⟨hne, hold⟩ := held_of_release hk
    have hlocks := h.worker hold
    rw [hpc, hp] at hlocks
    exact absurd (List.mem_singleton.mp hlocks) hne
  | workerAcquire hab hg hfree =>
    refine h.workerTakes hfree ?_
    rw [workerLocks_of_ne _ (ne_drain_of_guard hg), hg]
    exact List.mem_singleton_self _
  | workerUnder hab hg hheld hs =>
    have hd := ne_drain_of_guard hg
    refine h.worked (stepMove hs) (h.prune_none hd) fun hk => ?_
    obtain ⟨hne, hold⟩ := held_of_release hk
    refine ⟨hold, ?_⟩
    rintro rfl
    have hlocks := h.worker hold
    rw [workerLocks_of_ne _ hd, hg] at hlocks
    exact hne (List.mem_singleton.mp hlocks)
  | worker hd hg hs =>
    refine h.worked (stepMove hs) (h.prune_none hd) fun hk => ⟨hk, ?_⟩
    rintro rfl
    have hlocks := h.worker hk
    rw [workerLocks_of_ne _ hd, hg] at hlocks
    cases hlocks

/-! ## The generation behind the locks -/

/-- The lanes a prune keeps, seen open. -/
def keeping (o : Oracle) (checked : List (ℕ × Bool)) : Oracle :=
  { o with seenOpen := (checked.filter Prod.snd).map Prod.fst }

/-- A snapshot depends on what is kept of the registered lanes. -/
theorem snapshot_congr {registry : LaneRegistry} {keep keep' : ℕ → Bool}
    (h : ∀ j ∈ registry.lanes, keep j = keep' j) :
    registry.snapshot keep = registry.snapshot keep' := by
  unfold LaneRegistry.snapshot
  rw [List.filter_congr h]

/-- A prune that has checked every lane keeps those that the generation keeps. -/
theorem PruneLaw.keepLane_eq {w : World L} {checked : List (ℕ × Bool)} {saw : Bool}
    (h : PruneLaw w ⟨[], checked, saw⟩) (o : Oracle) {j : ℕ} (hj : j ∈ w.registry.lanes) :
    checked.contains (j, true) = keepLane w (keeping o checked) j := by
  by_cases hkept : (j, true) ∈ checked
  · have hopen : j ∈ (keeping o checked).seenOpen :=
      List.mem_map.mpr ⟨(j, true), List.mem_filter.mpr ⟨hkept, rfl⟩, rfl⟩
    simp only [keepLane, List.contains_iff_mem.mpr hkept, List.contains_iff_mem.mpr hopen,
      Bool.true_or]
  · have hlanes := h.lanes
    rw [List.append_nil] at hlanes
    obtain ⟨⟨j', keep⟩, hmem, rfl⟩ := List.mem_map.mp (hlanes ▸ hj)
    have hgone : (j', false) ∈ checked := by
      cases keep with
      | true => exact absurd hmem hkept
      | false => exact hmem
    obtain ⟨lane, hlane, hclosed, hempty⟩ := h.gone j' hgone
    have hopen : j' ∉ (keeping o checked).seenOpen := by
      intro hopen
      obtain ⟨⟨j, b⟩, hb, rfl⟩ := List.mem_map.mp hopen
      obtain ⟨hb, rfl⟩ := List.mem_filter.mp hb
      exact hkept hb
    have hkeep : checked.contains (j', true) = false := by simpa using hkept
    have hseen : (keeping o checked).seenOpen.contains j' = false := by simpa using hopen
    simp only [keepLane, hkeep, hseen, hlane, Option.all_some, ProducerLane.isClosedAndEmpty,
      hclosed, hempty, Bool.and_self, Bool.not_true, Bool.or_self]

/-- The end of a prune is the drain step of the generation. -/
theorem pruneChecked_eq {w : World L} {checked : List (ℕ × Bool)} {saw : Bool}
    (h : PruneLaw w ⟨[], checked, saw⟩) (o : Oracle) :
    pruneChecked w checked =
      (pruneLanes w (keeping o checked), drainOrder w (keeping o checked)) := by
  have hsnapshot : w.registry.snapshot (fun j => checked.contains (j, true)) =
      w.registry.snapshot (keepLane w (keeping o checked)) :=
    snapshot_congr fun j hj => h.keepLane_eq o hj
  simp only [pruneChecked, pruneLanes, drainOrder, hsnapshot]

/-- A step with the locks leaves the generation as it is, or is one of its steps. -/
theorem base_of_move (h : LockLaw s) (hm : LockedMove x s a s') :
    s'.base = s.base ∨ ∃ b, step x s.base b = some s'.base := by
  cases hm with
  | other hp hw hs => exact Or.inr ⟨_, hs⟩
  | threadUnder hi hg hheld hs => exact Or.inr ⟨_, hs⟩
  | exchange hi hg hc hfinal hs => exact Or.inr ⟨_, hs⟩
  | thread hi hg hc hs => exact Or.inr ⟨_, hs⟩
  | @finishPrune o b d checked saw hab hpc hp =>
    refine Or.inr ⟨.worker (keeping o checked), ?_⟩
    rw [pruneChecked_eq (h.prune hp) o]
    simp only [step, hab, Bool.false_eq_true, if_false, workerStep, hpc, Option.map_some, release]
  | workerUnder hab hg hheld hs => exact Or.inr ⟨_, hs⟩
  | worker hd hg hs => exact Or.inr ⟨_, hs⟩
  | _ => exact Or.inl rfl

/-- Locks refine the generation. Whatever runs with the locks is a run of it, and mutexes are
held where they are used. -/
theorem locks_refine (h : Reach (lockedStep x) (LockedState.init L) s) :
    Reachable x s.base ∧ LockLaw s :=
  ReachWhile.invariant (I := fun s => Reachable x s.base ∧ LockLaw s)
    ⟨.refl, LockLaw.init L⟩
    (fun t u a ⟨hb, hl⟩ _ hs => by
      have hm := lockedMove hs
      refine ⟨?_, hl.step hb hm⟩
      rcases base_of_move hl hm with hsame | ⟨b, hstep⟩
      · rwa [hsame]
      · exact hb.next trivial hstep) h

end EdenLogger.CollectorLocks
