import EdenLogger.GenerationChanges
import EdenLogger.LaneOwnership

/-!
# The lifetime of a lane

A thread keeps a lane for each collector it submitted to, and names it by a
reference that does not keep the lane alive. A lane that such an entry names
stays in its collector's registry as long as the thread can still submit there:
the drain takes a lane out only once its thread has exited and both its queues
are empty, and the terminal clear runs only after every callback is gone.
-/

namespace EdenLogger.LaneLifetime

open MachineWord RunRules ExporterConfig ExporterLanes LogCollector GenerationState GenerationStep
open SinkRegistry ExporterProcess GenerationMoves GenerationFrames ListCells LaneTable LaneOwnership
open ProcessMoves GenerationChanges

variable {K L : Type} {x : Exporter L} {s s' : State L}

/-! ## Steps of one generation -/

/-- A thread that is dropping its lane. -/
def dropping : ProducerPc L → Bool
  | .closing | .closed | .gone => true
  | _ => false

/-- A thread drops its lane only while it exits. -/
theorem dropping_of_move {i : ℕ} {w w' : World L} {p p' : Producer L}
    (hm : ProducerMove x i w p w' p') (h : dropping p'.pc = true) : dropping p.pc = true := by
  have hrefuse : ∀ (r : Submission L) (f : ClaimFailure) (q : QueueKind),
      dropping (refuse r f q) = false := by
    intro r f q
    cases q with
    | normal =>
      simp only [refuse]
      split <;> rfl
    | reserved => rfl
  cases hm
  case close hj hl hpc | closed hpc => rw [hpc]; rfl
  case bytesRefused | undoBytes | returnBytes =>
    rw [hrefuse] at h
    cases h
  case push =>
    dsimp only at h
    split at h <;> cases h
  all_goals cases h

/-- A step that registers no lane keeps each thread's lane, brings none into the
callback that could not get there, and lets only an exiting thread drop its lane. -/
structure CellsKept (leaves : ℕ → Prop) (s s' : State L) : Prop where
  size : s'.threads.length = s.threads.length
  cell : ∀ {i : ℕ} {p' : Producer L}, s'.threads[i]? = some p' → ∃ p, s.threads[i]? = some p ∧
    p'.lane = p.lane ∧ (canPush s' p' → canPush s p) ∧
      (dropping p'.pc = true → dropping p.pc = true ∨ leaves i)

/-- One thread moves, and the callback stays as it is. -/
theorem CellsKept.set {leaves : ℕ → Prop} {i : ℕ} {p p' : Producer L}
    (hi : s.threads[i]? = some p) (ht : s'.threads = s.threads.set i p')
    (hret : s'.world.retired = s.world.retired) (hlane : p'.lane = p.lane)
    (hin : p'.pc.outside = false ∨ p'.pc = .idle → canPush s p)
    (hdrop : dropping p'.pc = true → dropping p.pc = true ∨ leaves i) :
    CellsKept leaves s s' where
  size := by rw [ht, List.length_set]
  cell := fun {j q'} hj => by
    rw [ht] at hj
    rcases cell_of_set hj with ⟨rfl, rfl⟩ | ⟨-, hj⟩
    · exact ⟨p, hi, hlane, fun hc => hin (hc.imp id And.right), hdrop⟩
    · exact ⟨q', hj, rfl, fun hc => hc.imp id fun hidle => ⟨hret ▸ hidle.1, hidle.2⟩, Or.inl⟩

/-- No thread moves, and a retired callback stays retired. -/
theorem CellsKept.same {leaves : ℕ → Prop} (ht : s'.threads = s.threads)
    (hret : s.world.retired = true → s'.world.retired = true) : CellsKept leaves s s' where
  size := by rw [ht]
  cell := fun {j q'} hj => by
    rw [ht] at hj
    refine ⟨q', hj, rfl, fun hc => hc.imp id fun hidle => ⟨?_, hidle.2⟩, Or.inl⟩
    cases hr : s.world.retired with
    | false => rfl
    | true =>
      have hr' := hret hr
      rw [hidle.1] at hr'
      cases hr'

/-- The steps that neither bring a thread nor register a lane. -/
theorem cellsKept {a : GenerationStep.Action L} (hm : Move x s a s') (hspawn : a ≠ .spawn)
    (hlane : ∀ i p r, a = .producer i → s.threads[i]? = some p → p.pc = .resolve r →
      p.lane ≠ none) : CellsKept (fun i => a = .exit i) s s' := by
  cases hm with
  | spawn => exact absurd rfl hspawn
  | enter hi hpc hr =>
    exact .set hi rfl rfl rfl (fun _ => Or.inr ⟨hr, hpc⟩) fun hd => by cases hd
  | @producer i p p' w' hi hm =>
    rcases producer_lane hm with ⟨hsame, -⟩ | ⟨r, hpc, hnone, -, -⟩
    · refine .set hi rfl (producer_frame hm).retired hsame (fun hin => Or.inl ?_)
        fun hd => Or.inl (dropping_of_move hm hd)
      rcases hin with hin | hidle
      · exact producer_inside hm hin
      · rw [producer_idle hm hidle]
        rfl
    · exact absurd hnone (hlane i p r rfl hi hpc)
  | exit hi hpc =>
    refine .set hi rfl rfl rfl (fun hin => ?_) fun _ => Or.inr rfl
    dsimp only at hin
    split at hin <;> rcases hin with hin | hin <;> cases hin
  | worker ha hm => exact .same rfl fun hr => (worker_frame hm).retired.trans hr
  | flush hj hm => exact .same rfl fun hr => by rw [(flush_world hm).1]; exact hr
  | control hp hr => exact .same rfl (controlStep_frame _ _ _).retired
  | _ => exact .same rfl id

/-- They keep the number of lanes. -/
theorem lanes_of_move {a : GenerationStep.Action L} (hm : Move x s a s') (ho : LanesOwned s)
    (hlane : ∀ i p r, a = .producer i → s.threads[i]? = some p → p.pc = .resolve r →
      p.lane ≠ none) : s'.world.lanes.length = s.world.lanes.length := by
  cases hm with
  | @producer i p p' w' hi hm =>
    rcases producer_lane hm with ⟨hsame, -⟩ | ⟨r, hpc, hnone, -, -⟩
    · exact (laneUpdate_of_move ho hi hm hsame).length
    · exact absurd hnone (hlane i p r rfl hi hpc)
  | worker ha hm => exact (worker_table hm ho.spare).length
  | flush hj hm => rw [(flush_world hm).1]
  | control hp hr => exact congrArg List.length (controlStep_frame _ _ _).lanes
  | _ => rfl

/-- A fence that fired stays so. -/
theorem fence_of_move {a : GenerationStep.Action L} (hm : Move x s a s') (h : s.fence ≠ .armed) :
    s'.fence ≠ .armed := by
  cases hm with
  | fenceClose hf hr ho => exact absurd hf h
  | fenceNotify hf => exact fun hc => by cases hc
  | _ => exact h

/-- The fence fires only after every callback is gone. -/
def Fenced (s : State L) : Prop :=
  s.fence ≠ .armed → s.world.retired = true ∧ ∀ p ∈ s.threads, p.pc.outside = true

/-- Every step keeps to that. -/
theorem Fenced.step {a : GenerationStep.Action L} (h : Fenced s) (hm : Move x s a s') :
    Fenced s' := by
  cases hm with
  | spawn =>
    intro hf
    refine ⟨(h hf).1, fun p hp => ?_⟩
    rcases List.mem_append.mp hp with hp | hp
    · exact (h hf).2 p hp
    · rw [List.mem_singleton.mp hp]
      rfl
  | enter hi hpc hr =>
    intro hf
    rw [(h hf).1] at hr
    cases hr
  | producer hi hm =>
    intro hf
    obtain ⟨hret, hout⟩ := h hf
    refine ⟨(producer_frame hm).retired.trans hret, forall_mem_set hout ?_⟩
    by_contra hin
    have hbefore := producer_inside hm (Bool.eq_false_of_not_eq_true hin)
    rw [hout _ (List.mem_of_getElem? hi)] at hbefore
    cases hbefore
  | exit hi hpc =>
    intro hf
    refine ⟨(h hf).1, forall_mem_set (h hf).2 ?_⟩
    dsimp only
    split <;> rfl
  | fenceClose hf hr ho => exact fun _ => ⟨hr, ho⟩
  | fenceNotify hf => exact fun _ => h (by rw [hf]; exact fun hc => by cases hc)
  | worker ha hm => exact fun hf => ⟨(worker_frame hm).retired.trans (h hf).1, (h hf).2⟩
  | flush hj hm =>
    rw [(flush_world hm).1]
    exact h
  | control hp hr =>
    exact fun hf => ⟨(controlStep_frame _ _ _).retired (h hf).1, (h hf).2⟩
  | _ => exact h

/-- How a worker step changes the registry. -/
theorem registry_of_move {o : Oracle} {w w' : World L} {k k' : Worker L}
    (hm : WorkerMove x o w k w' k') :
    w'.registry = w.registry ∨ (∃ d, k.pc = .drain d ∧ w' = pruneLanes w o) ∨
      ∃ retained remaining, k.pc = .ledgerClear retained remaining ∧ w'.registry.lanes = [] := by
  cases hm with
  | drain hpc => exact Or.inr (Or.inl ⟨_, hpc, rfl⟩)
  | ledgerClear hpc => exact Or.inr (Or.inr ⟨_, _, hpc, rfl⟩)
  | @pollReady wait c cells hr hpc => cases c <;> exact Or.inl rfl
  | @pollNext wait c cells hr hpc => cases c <;> exact Or.inl rfl
  | _ => exact Or.inl rfl

/-- A lane leaves the registry with its thread, or after every callback is gone. -/
inductive Unregistration (s : State L) (j : ℕ) : Prop where
  /-- A drain found the lane closed and both its queues empty. -/
  | drained {i : ℕ} {p : Producer L} {lane : ProducerLane L} (hi : s.threads[i]? = some p)
      (hlane : p.lane = some j) (hpc : p.pc = .closed ∨ p.pc = .gone)
      (hl : s.world.lanes[j]? = some lane) (hclosed : lane.closed = true)
      (hempty : lane.queues.records = [])
  /-- The terminal clear. -/
  | cleared {retained : List (List MappedLog)} {remaining : ℕ}
      (hpc : s.worker.pc = .ledgerClear retained remaining)
      (hclosed : s.world.producersClosed = true) (hret : s.world.retired = true)
      (hout : ∀ p ∈ s.threads, p.pc.outside = true)

/-- Nothing else takes a lane out. -/
theorem unregistration {a : GenerationStep.Action L} (hm : Move x s a s') (hq : Quiescence s)
    (ho : LanesOwned s) {j : ℕ}
    (howner : ∃ (i : ℕ) (p : Producer L), s.threads[i]? = some p ∧ p.lane = some j)
    (hj : j ∈ s.world.registry.lanes) (hj' : j ∉ s'.world.registry.lanes) :
    Unregistration s j := by
  cases hm with
  | producer hi hm =>
    rcases producer_lane hm with ⟨-, hr⟩ | ⟨-, -, -, rfl, -⟩
    · exact absurd (hr.symm ▸ hj) hj'
    · exact absurd (List.mem_append_left _ hj) hj'
  | @worker o w' k' ha hm =>
    rcases registry_of_move hm with hr | ⟨d, hpc, rfl⟩ | ⟨retained, remaining, hpc, -⟩
    · exact absurd (hr.symm ▸ hj) hj'
    · have hl : (pruneLanes s.world o).registry.lanes =
          s.world.registry.lanes.filter (keepLane s.world o) := snapshot_lanes _ _
      rw [hl, List.mem_filter, not_and] at hj'
      obtain ⟨i, p, hi, hlane⟩ := howner
      have hcell := List.getElem?_eq_getElem (ho.in_range hi hlane)
      obtain ⟨hclosed, hempty⟩ := closed_of_not_keep hcell
        (Bool.eq_false_of_not_eq_true (hj' hj))
      exact .drained hi hlane (ho.closed_lane hi hlane hcell hclosed) hcell hclosed hempty
    · have hc := hq.past (by rw [hpc]; rfl)
      exact .cleared hpc hc (hq.retired hc) (hq.outside hc)
  | flush hj₁ hm =>
    rw [(flush_world hm).1] at hj'
    exact absurd hj hj'
  | control hp hr => exact absurd ((controlStep_frame _ _ _).registry.symm ▸ hj) hj'
  | _ => exact absurd hj hj'

/-- A lane that is out of the registry was closed, unless the worker is past its
terminal clear. -/
def Pruned (s : State L) : Prop :=
  ∀ (j : ℕ) (lane : ProducerLane L), s.world.lanes[j]? = some lane →
    j ∉ s.world.registry.lanes → lane.closed = true ∨ pastClosed s.worker.pc = true

/-- A lane that was closed stays closed. -/
theorem closed_of_move {i : ℕ} {w w' : World L} {p p' : Producer L}
    (hm : ProducerMove x i w p w' p') {j : ℕ} {lane' : ProducerLane L}
    (hj : w'.lanes[j]? = some lane') (hold : j < w.lanes.length) :
    ∃ lane, w.lanes[j]? = some lane ∧ (lane.closed = true → lane'.closed = true) := by
  cases hm
  case register hn hpc =>
    rcases cell_of_append hj with hj | ⟨rfl, -⟩
    · exact ⟨lane', hj, id⟩
    · exact absurd hold (Nat.lt_irrefl _)
  case push r q ticket j lane hj₁ hl hpc =>
    rcases cell_of_set hj with ⟨rfl, rfl⟩ | ⟨-, hj⟩
    · exact ⟨lane, hl, id⟩
    · exact ⟨lane', hj, id⟩
  case close j lane hj₁ hl hpc =>
    rcases cell_of_set hj with ⟨rfl, rfl⟩ | ⟨-, hj⟩
    · exact ⟨lane, hl, fun _ => rfl⟩
    · exact ⟨lane', hj, id⟩
  case refused failure hpc => cases failure <;> exact ⟨lane', hj, id⟩
  all_goals exact ⟨lane', hj, id⟩

/-- Past its clear the worker stays there. -/
theorem pastClosed_mono {o : Oracle} {w w' : World L} {k k' : Worker L}
    (hm : WorkerMove x o w k w' k') (h : pastClosed k.pc = true) : pastClosed k'.pc = true := by
  cases hm
  case ledgerNormal | ledgerReserved | ledgerAdd | ledgerClear | storeStopped | notifyStopped
      | report => rfl
  all_goals
    rename_i hpc
    rw [hpc] at h
    cases h

/-- Every step keeps to that. -/
theorem Pruned.step {a : GenerationStep.Action L} (h : Pruned s) (ho : LanesOwned s)
    (hm : Move x s a s') : Pruned s' := by
  cases hm with
  | @producer i p p' w' hi hm =>
    intro j lane' hj hn
    have hlt : j < w'.lanes.length := (List.getElem?_eq_some_iff.mp hj).1
    have hold : j < s.world.lanes.length ∧ j ∉ s.world.registry.lanes := by
      rcases producer_lane hm with ⟨hsame, hr⟩ | ⟨-, -, -, rfl, -⟩
      · exact ⟨(laneUpdate_of_move ho hi hm hsame).length ▸ hlt, hr ▸ hn⟩
      · simp only [registerLane, List.mem_append, List.mem_singleton, not_or,
          List.length_append, List.length_singleton] at hn hlt
        exact ⟨by omega, hn.1⟩
    obtain ⟨lane, hl, hmono⟩ := closed_of_move hm hj hold.1
    exact (h j lane hl hold.2).imp hmono id
  | @worker o w' k' ha hm =>
    intro j lane' hj hn
    obtain ⟨lane, hl, hstep⟩ := (worker_table hm ho.spare).lane hj
    by_cases hin : j ∈ s.world.registry.lanes
    · rcases registry_of_move hm with hr | ⟨d, hpc, rfl⟩ | ⟨retained, remaining, hpc, -⟩
      · exact absurd (hr.symm ▸ hin) hn
      · have hf : (pruneLanes s.world o).registry.lanes =
            s.world.registry.lanes.filter (keepLane s.world o) := snapshot_lanes _ _
        rw [hf, List.mem_filter, not_and] at hn
        exact Or.inl (closed_of_not_keep hj (Bool.eq_false_of_not_eq_true (hn hin))).1
      · exact Or.inr (pastClosed_mono hm (by rw [hpc]; rfl))
    · exact (h j lane hl hin).imp (fun hc => hstep.closed.trans hc) (pastClosed_mono hm)
  | flush hj hm =>
    rw [(flush_world hm).1]
    exact h
  | control hp hr =>
    have hf := controlStep_frame s.world s.control
    intro j lane' hj hn
    rw [(hf _).registry] at hn
    rw [(hf _).lanes] at hj
    exact h j lane' hj hn
  | _ => exact h

/-! ## Generations and caches -/

/-- Lanes, threads and caches of one generation. -/
structure LaneLaw (ts : List Thread) (g : ℕ) (gen : Generation K L) : Prop where
  quiet : Quiescence gen.state
  owned : LanesOwned gen.state
  fenced : Fenced gen.state
  pruned : Pruned gen.state
  /-- A cached entry names the thread's lane. -/
  cached : ∀ {i j : ℕ} {t : Thread} {producer : Producer L}, ts[i]? = some t →
    gen.state.threads[i]? = some producer → (g, j) ∈ t.producers → producer.lane = some j
  /-- An entry is forgotten only when its thread cannot submit any more. -/
  forgotten : ∀ {i j : ℕ} {t : Thread} {producer : Producer L}, ts[i]? = some t →
    gen.state.threads[i]? = some producer → producer.lane = some j → (g, j) ∉ t.producers →
    ¬ canPush gen.state producer
  /-- Each lane has its thread. -/
  owners : gen.owners.length = gen.state.world.lanes.length
  owner : ∀ {i j : ℕ}, gen.owners[j]? = some i →
    ∃ producer, gen.state.threads[i]? = some producer ∧ producer.lane = some j
  /-- A collector is freed behind its fence. -/
  freed : gen.freed = true → gen.state.fence ≠ .armed
  /-- Only exiting threads drop their lanes. -/
  exiting : ∀ {i : ℕ} {t : Thread} {producer : Producer L}, ts[i]? = some t →
    gen.state.threads[i]? = some producer → dropping producer.pc = true → t.exiting = true

/-- A thread registers at most one lane. -/
theorem LaneLaw.owners_nodup {ts : List Thread} {g : ℕ} {gen : Generation K L}
    (h : LaneLaw ts g gen) : gen.owners.Nodup := by
  refine List.nodup_iff_getElem?_ne_getElem?.mpr fun j j' hlt hlt' heq => ?_
  obtain ⟨producer, hi, hl⟩ := h.owner (List.getElem?_eq_getElem (hlt.trans hlt'))
  rw [List.getElem?_eq_getElem (hlt.trans hlt')] at heq
  obtain ⟨producer', hi', hl'⟩ := h.owner heq.symm
  cases hi.symm.trans hi'
  cases hl.symm.trans hl'
  exact Nat.lt_irrefl _ hlt

/-- A lane's thread is the one that registered it. -/
theorem LaneLaw.owner_iff {ts : List Thread} {g : ℕ} {gen : Generation K L} (h : LaneLaw ts g gen)
    {i j : ℕ} {producer : Producer L} (hi : gen.state.threads[i]? = some producer) :
    producer.lane = some j ↔ gen.owners[j]? = some i := by
  constructor
  · intro hl
    have hlt : j < gen.owners.length := by
      rw [h.owners]
      exact h.owned.in_range hi hl
    have hcell := List.getElem?_eq_getElem hlt
    obtain ⟨producer', hi', hl'⟩ := h.owner hcell
    rw [hcell, h.owned.distinct hi' hi hl' hl]
  · intro ho
    obtain ⟨producer', hi', hl⟩ := h.owner ho
    cases hi.symm.trans hi'
    exact hl

/-- A lane has one owner, who still has a cell. -/
theorem LaneLaw.exists_owner {ts : List Thread} {g : ℕ} {gen : Generation K L}
    (h : LaneLaw ts g gen) {j : ℕ} (hj : j ∈ gen.state.world.registry.lanes) :
    ∃ (i : ℕ) (producer : Producer L),
      gen.state.threads[i]? = some producer ∧ producer.lane = some j := by
  have hlt : j < gen.owners.length := by
    rw [h.owners]
    exact h.owned.registry_range j hj
  obtain ⟨producer, hi, hl⟩ := h.owner (List.getElem?_eq_getElem hlt)
  exact ⟨_, producer, hi, hl⟩

/-- A freed collector's callbacks are gone. -/
theorem LaneLaw.freed_outside {ts : List Thread} {g : ℕ} {gen : Generation K L}
    (h : LaneLaw ts g gen) (hf : gen.freed = true) {producer : Producer L}
    (hm : producer ∈ gen.state.threads) : ¬ canPush gen.state producer := by
  obtain ⟨hret, hout⟩ := h.fenced (h.freed hf)
  rintro (hin | ⟨hret', -⟩)
  · rw [hout producer hm] at hin
    cases hin
  · rw [hret] at hret'
    cases hret'

/-- The entry of a thread that can submit names a registered lane. -/
theorem LaneLaw.live {ts : List Thread} {g : ℕ} {gen : Generation K L} (h : LaneLaw ts g gen)
    {i j : ℕ} {producer : Producer L} (hi : gen.state.threads[i]? = some producer)
    (hl : producer.lane = some j) (hc : canPush gen.state producer) :
    j ∈ gen.state.world.registry.lanes ∧ gen.freed = false := by
  refine ⟨h.owned.registered hi hl hc, Bool.eq_false_of_not_eq_true fun hf => ?_⟩
  exact h.freed_outside hf (List.mem_of_getElem? hi) hc

/-- A step of the generation that neither brings a thread nor registers a lane. -/
theorem LaneLaw.move {ts : List Thread} {g : ℕ} {gen : Generation K L} (h : LaneLaw ts g gen)
    {a : GenerationStep.Action L} (hm : Move gen.exporter gen.state a s) (hspawn : a ≠ .spawn)
    (hlane : ∀ i p r, a = .producer i → gen.state.threads[i]? = some p → p.pc = .resolve r →
      p.lane ≠ none)
    (hexit : ∀ i t, a = .exit i → ts[i]? = some t → t.exiting = true) :
    LaneLaw ts g (withState gen s) := by
  have hk := cellsKept hm hspawn hlane
  refine {
    quiet := h.quiet.step hm
    owned := h.owned.step h.quiet hm
    fenced := h.fenced.step hm
    pruned := h.pruned.step h.owned hm
    cached := fun ht hi hc => ?_
    forgotten := fun ht hi hl hc hp => ?_
    owners := ?_
    owner := fun {i j} ho => ?_
    freed := fun hf => ?_
    exiting := fun ht hi hd => ?_ }
  · obtain ⟨p, hp, hsame, -⟩ := hk.cell hi
    exact hsame.trans (h.cached ht hp hc)
  · obtain ⟨p, hp₀, hsame, hpush, -⟩ := hk.cell hi
    exact h.forgotten ht hp₀ (hsame.symm.trans hl) hc (hpush hp)
  · exact h.owners.trans (lanes_of_move hm h.owned hlane).symm
  · obtain ⟨p, hp, hl⟩ := h.owner ho
    have hlt : i < s.threads.length := by
      rw [hk.size]
      exact (List.getElem?_eq_some_iff.mp hp).1
    obtain ⟨p₀, hp₀, hsame, -⟩ := hk.cell (List.getElem?_eq_getElem hlt)
    cases hp.symm.trans hp₀
    exact ⟨_, List.getElem?_eq_getElem hlt, hsame.trans hl⟩
  · exact fence_of_move hm (h.freed hf)
  · obtain ⟨p, hp, -, -, hdrop⟩ := hk.cell hi
    rcases hdrop hd with hd | ha
    · exact h.exiting ht hp hd
    · exact hexit _ _ ha ht

/-- Caches change elsewhere, and lose only entries of no use. -/
theorem LaneLaw.recache {ts ts' : List Thread} {g : ℕ} {gen : Generation K L}
    (h : LaneLaw ts g gen)
    (hts : ∀ {i : ℕ} {t' : Thread}, ts'[i]? = some t' → ∃ t, ts[i]? = some t ∧
      (t.exiting = true → t'.exiting = true) ∧ ∀ j, ((g, j) ∈ t'.producers → (g, j) ∈ t.producers) ∧
        ((g, j) ∈ t.producers → (g, j) ∉ t'.producers → ∀ producer,
          gen.state.threads[i]? = some producer → ¬ canPush gen.state producer)) :
    LaneLaw ts' g gen where
  quiet := h.quiet
  owned := h.owned
  fenced := h.fenced
  pruned := h.pruned
  cached := fun ht hi hc => by
    obtain ⟨t, ht₀, -, hsub⟩ := hts ht
    exact h.cached ht₀ hi ((hsub _).1 hc)
  forgotten := fun {i j t' producer} ht hi hl hc => by
    obtain ⟨t, ht₀, -, hsub⟩ := hts ht
    by_cases hold : (g, j) ∈ t.producers
    · exact (hsub j).2 hold hc producer hi
    · exact h.forgotten ht₀ hi hl hold
  owners := h.owners
  owner := h.owner
  freed := h.freed
  exiting := fun ht hi hd => by
    obtain ⟨t, ht₀, hexit, -⟩ := hts ht
    exact hexit (h.exiting ht₀ hi hd)

/-- A thread appears. -/
theorem LaneLaw.spawn {ts : List Thread} {g : ℕ} {gen : Generation K L} (h : LaneLaw ts g gen)
    (hsize : gen.state.threads.length = ts.length) :
    LaneLaw (ts ++ [⟨[], false⟩]) g (spawnIn gen) := by
  have hm : Move gen.exporter gen.state .spawn (spawnIn gen).state := .spawn
  -- the new thread has no lane, and its cell is behind the others
  have hcell : ∀ {i : ℕ} {t : Thread} {producer : Producer L},
      (ts ++ [(⟨[], false⟩ : Thread)])[i]? = some t →
      (spawnIn gen).state.threads[i]? = some producer →
      (ts[i]? = some t ∧ gen.state.threads[i]? = some producer) ∨
        (t = ⟨[], false⟩ ∧ producer = ⟨.idle, none⟩) := by
    intro i t producer ht hi
    rcases cell_of_append ht with ht | ⟨rfl, rfl⟩ <;> rcases cell_of_append hi with hi | ⟨hlen, rfl⟩
    · exact Or.inl ⟨ht, hi⟩
    · have hlt := (List.getElem?_eq_some_iff.mp ht).1
      omega
    · have hlt := (List.getElem?_eq_some_iff.mp hi).1
      omega
    · exact Or.inr ⟨rfl, rfl⟩
  exact {
    quiet := h.quiet.step hm
    owned := h.owned.step h.quiet hm
    fenced := h.fenced.step hm
    pruned := h.pruned
    cached := fun ht hi hc => by
      rcases hcell ht hi with ⟨ht, hi⟩ | ⟨rfl, rfl⟩
      · exact h.cached ht hi hc
      · cases hc
    forgotten := fun ht hi hl hc => by
      rcases hcell ht hi with ⟨ht, hi⟩ | ⟨rfl, rfl⟩
      · exact h.forgotten ht hi hl hc
      · cases hl
    owners := h.owners
    owner := fun ho => by
      obtain ⟨producer, hi, hl⟩ := h.owner ho
      exact ⟨producer, (List.getElem?_append_left (List.getElem?_eq_some_iff.mp hi).1).trans hi, hl⟩
    freed := h.freed
    exiting := fun ht hi hd => by
      rcases hcell ht hi with ⟨ht, hi⟩ | ⟨rfl, rfl⟩
      · exact h.exiting ht hi hd
      · cases hd }

/-- A generation that no thread has used. -/
theorem LaneLaw.fresh {ts : List Thread} {g : ℕ} {gen : Generation K L} {n : ℕ}
    (hthreads : gen.state.threads = List.replicate n ⟨.idle, none⟩)
    (hlanes : gen.state.world.lanes = []) (hreg : gen.state.world.registry.lanes = [])
    (hclosed : gen.state.world.producersClosed = false)
    (hpc : pastClosed gen.state.worker.pc = false) (howners : gen.owners = [])
    (hfreed : gen.freed = false)
    (hfenced : gen.state.fence ≠ .armed → gen.state.world.retired = true)
    (hcache : ∀ t ∈ ts, ∀ e ∈ t.producers, e.1 ≠ g) : LaneLaw ts g gen := by
  have hidle : ∀ p ∈ gen.state.threads, p = ⟨.idle, none⟩ := by
    rw [hthreads]
    exact fun p hp => List.eq_of_mem_replicate hp
  have hcell : ∀ {i : ℕ} {p : Producer L}, gen.state.threads[i]? = some p → p = ⟨.idle, none⟩ :=
    fun hi => hidle _ (List.mem_of_getElem? hi)
  have hempty : ∀ {j : ℕ} {lane : ProducerLane L}, gen.state.world.lanes[j]? ≠ some lane := by
    rw [hlanes]
    exact fun hc => by cases hc
  exact {
    quiet := ⟨by simp [hclosed], by simp [hclosed], by simp [hpc]⟩
    owned := {
      in_range := fun hi hl => by cases hcell hi; cases hl
      distinct := fun hi _ hl => by cases hcell hi; cases hl
      registered := fun hi hl => by cases hcell hi; cases hl
      closed_lane := fun hi hl => by cases hcell hi; cases hl
      unregistered := fun hl => absurd hl hempty
      registry_range := by simp [hreg]
      registry_nodup := by simp [hreg]
      spare := fun hl => absurd hl hempty }
    fenced := fun hf => ⟨hfenced hf, fun p hp => by rw [hidle p hp]; rfl⟩
    pruned := fun j lane hl => absurd hl hempty
    cached := fun ht _ hc => absurd rfl (hcache _ (List.mem_of_getElem? ht) _ hc)
    forgotten := fun _ hi hl => by cases hcell hi; cases hl
    owners := by rw [howners, hlanes]; rfl
    owner := by simp [howners]
    freed := by simp [hfreed]
    exiting := fun _ hi hd => by cases hcell hi; cases hd }

/-- A thread without an entry has no lane when it looks it up. -/
theorem LaneLaw.no_lane {ts : List Thread} {g : ℕ} {gen : Generation K L} (h : LaneLaw ts g gen)
    {i : ℕ} {t : Thread} {producer : Producer L} {r : Submission L} (ht : ts[i]? = some t)
    (hi : gen.state.threads[i]? = some producer) (hpc : producer.pc = .resolve r)
    (hnone : ∀ j, (g, j) ∉ t.producers) : producer.lane = none := by
  cases hl : producer.lane with
  | none => rfl
  | some j => exact absurd (Or.inl (by rw [hpc]; rfl)) (h.forgotten ht hi hl (hnone j))

/-- A thread registers its lane. -/
theorem LaneLaw.register {ts : List Thread} {g : ℕ} {gen : Generation K L} (h : LaneLaw ts g gen)
    {i : ℕ} {t t' : Thread} {producer : Producer L} {r : Submission L} (ht : ts[i]? = some t)
    (hi : gen.state.threads[i]? = some producer) (hpc : producer.pc = .resolve r)
    (hnone : ∀ j, (g, j) ∉ t.producers)
    (hnew : ∀ j, (g, j) ∈ t'.producers ↔ j = gen.state.world.lanes.length) :
    LaneLaw (ts.set i t') g { gen with
      state := { gen.state with
        world := GenerationStep.registerLane gen.state.world
        threads :=
          gen.state.threads.set i ⟨.claimBytes r .normal, some gen.state.world.lanes.length⟩ }
      owners := gen.owners ++ [i] } := by
  have hl := h.no_lane ht hi hpc hnone
  have hm : Move gen.exporter gen.state (.producer i) _ := .producer hi (.register hl hpc)
  exact {
    quiet := h.quiet.step hm
    owned := h.owned.step h.quiet hm
    fenced := h.fenced.step hm
    pruned := h.pruned.step h.owned hm
    cached := fun {i' j t₀ q} ht₀ hi₀ hc => by
      rcases cell_of_set hi₀ with ⟨rfl, rfl⟩ | ⟨hne, hi₀⟩
      · rcases cell_of_set ht₀ with ⟨-, rfl⟩ | ⟨hne, -⟩
        · rw [(hnew j).mp hc]
        · exact absurd rfl hne
      · rcases cell_of_set ht₀ with ⟨rfl, -⟩ | ⟨-, ht₀⟩
        · exact absurd rfl hne
        · exact h.cached ht₀ hi₀ hc
    forgotten := fun {i' j t₀ q} ht₀ hi₀ hj hc => by
      rcases cell_of_set hi₀ with ⟨rfl, rfl⟩ | ⟨hne, hi₀⟩
      · rcases cell_of_set ht₀ with ⟨-, rfl⟩ | ⟨hne, -⟩
        · cases hj
          exact absurd ((hnew _).mpr rfl) hc
        · exact absurd rfl hne
      · rcases cell_of_set ht₀ with ⟨rfl, -⟩ | ⟨-, ht₀⟩
        · exact absurd rfl hne
        · exact h.forgotten ht₀ hi₀ hj hc
    owners := by
      simp only [List.length_append, List.length_singleton, GenerationStep.registerLane, h.owners]
    owner := fun {i' j} ho => by
      rcases cell_of_append ho with ho | ⟨rfl, rfl⟩
      · obtain ⟨q, hq, hj⟩ := h.owner ho
        have hne : i ≠ i' := by
          rintro rfl
          cases hi.symm.trans hq
          rw [hl] at hj
          cases hj
        exact ⟨q, (List.getElem?_set_ne hne).trans hq, hj⟩
      · refine ⟨_, List.getElem?_set_self (List.getElem?_eq_some_iff.mp hi).1, ?_⟩
        rw [h.owners]
    freed := h.freed
    exiting := fun {i' t₀ q} ht₀ hi₀ hd => by
      rcases cell_of_set hi₀ with ⟨rfl, rfl⟩ | ⟨hne, hi₀⟩
      · cases hd
      · rcases cell_of_set ht₀ with ⟨rfl, -⟩ | ⟨-, ht₀⟩
        · exact absurd rfl hne
        · exact h.exiting ht₀ hi₀ hd }

/-! ## The whole process -/

section Process

variable {p p' : Process K L}

/-- Lanes and caches fit together in every generation. -/
structure LaneLaws (p : Process K L) : Prop where
  law : ∀ {g : ℕ} {gen : Generation K L}, p.generations[g]? = some gen → LaneLaw p.threads g gen
  /-- Entries name collectors that were prepared. -/
  range : ∀ t ∈ p.threads, ∀ e ∈ t.producers, e.1 < p.generations.length
  /-- A thread has at most one entry for a collector. -/
  keys : ∀ t ∈ p.threads, (t.producers.map Prod.fst).Nodup

/-- One generation takes steps of its own. -/
theorem LaneLaws.set (h : LaneLaws p) {g : ℕ} {gen' : Generation K L}
    (hset : p'.generations = p.generations.set g gen') (hts : p'.threads = p.threads)
    (hlaw : LaneLaw p.threads g gen') : LaneLaws p' where
  law := fun {g' gen''} hg => by
    rw [hset] at hg
    rw [hts]
    rcases cell_of_set hg with ⟨rfl, rfl⟩ | ⟨-, hg⟩
    · exact hlaw
    · exact h.law hg
  range := by
    rw [hts, hset, List.length_set]
    exact h.range
  keys := by
    rw [hts]
    exact h.keys

/-- A generation is added that no thread has used. -/
theorem LaneLaws.append (h : LaneLaws p) {l : List (Generation K L)} {gen : Generation K L}
    (hl : ∀ {g : ℕ} {gen : Generation K L}, l[g]? = some gen → LaneLaw p.threads g gen)
    (hlen : l.length = p.generations.length) (hts : p'.threads = p.threads)
    (hgens : p'.generations = l ++ [gen])
    (hlaw : (∀ t ∈ p.threads, ∀ e ∈ t.producers, e.1 ≠ l.length) →
      LaneLaw p.threads l.length gen) : LaneLaws p' where
  law := fun {g' gen'} hg => by
    rw [hgens] at hg
    rw [hts]
    rcases cell_of_append hg with hg | ⟨rfl, rfl⟩
    · exact hl hg
    · exact hlaw fun t ht e he => hlen ▸ (h.range t ht e he).ne
  range := fun t ht e he => by
    rw [hts] at ht
    have hlt := h.range t ht e he
    rw [hgens, List.length_append, hlen]
    exact hlt.trans_le (Nat.le_add_right _ _)
  keys := by
    rw [hts]
    exact h.keys

/-- A generation whose callback just got into the slot. -/
theorem laneLaw_prepared (p : Process K L) (key : K) (x : Exporter L) (callback : Option ℕ) {g : ℕ}
    (hcache : ∀ t ∈ p.threads, ∀ e ∈ t.producers, e.1 ≠ g) :
    LaneLaw p.threads g (preparedGeneration p key x callback) :=
  .fresh (n := p.threads.length) rfl rfl rfl rfl rfl rfl rfl (fun hf => absurd rfl hf) hcache

/-- A generation that was given up. -/
theorem laneLaw_abandoned (p : Process K L) (key : K) (x : Exporter L) (made : Bool)
    (ops : List ControlOp) {g : ℕ} (hcache : ∀ t ∈ p.threads, ∀ e ∈ t.producers, e.1 ≠ g) :
    LaneLaw p.threads g (abandonedGeneration p key x made ops) :=
  .fresh (n := p.threads.length) rfl rfl rfl rfl rfl rfl rfl (fun _ => rfl) hcache

/-- A command, a dispatch or a party moves in one generation. -/
theorem LaneLaws.run (h : LaneLaws p) {g : ℕ} {gen : Generation K L}
    (hgen : p.generations[g]? = some gen) {a : GenerationStep.Action L}
    (hm : Move gen.exporter gen.state a s) (hspawn : a ≠ .spawn)
    (hlane : ∀ i q r, a = .producer i → gen.state.threads[i]? = some q → q.pc = .resolve r →
      q.lane ≠ none)
    (hexit : ∀ i t, a = .exit i → p.threads[i]? = some t → t.exiting = true)
    (hset : p'.generations = p.generations.set g (withState gen s)) (hts : p'.threads = p.threads) :
    LaneLaws p' :=
  h.set hset hts ((h.law hgen).move hm hspawn hlane hexit)

/-- An entry that is dropped is of no use. -/
theorem LaneLaws.dead (h : LaneLaws p) {g i j : ℕ} {gen : Generation K L} {t : Thread}
    (hgen : p.generations[g]? = some gen) (ht : p.threads[i]? = some t) (hj : (g, j) ∈ t.producers)
    (halive : isAlive p (g, j) = false) {producer : Producer L}
    (hi : gen.state.threads[i]? = some producer) : ¬ canPush gen.state producer := by
  have hlaw := h.law hgen
  intro hc
  obtain ⟨hin, hfreed⟩ := hlaw.live hi (hlaw.cached ht hi hj) hc
  simp only [isAlive, hgen, Option.any_some, hfreed, Bool.not_false, Bool.true_and,
    Bool.or_eq_false_iff] at halive
  rw [List.contains_iff_mem.mpr hin] at halive
  cases halive.1

/-- A dropped entry wakes nobody: unless its collector was freed, the worker there
is past its terminal clear and waits for no record. -/
theorem LaneLaws.unheard (h : LaneLaws p) (hsize : Sized p) {g i j : ℕ} {gen : Generation K L}
    {t : Thread} (hgen : p.generations[g]? = some gen) (ht : p.threads[i]? = some t)
    (hstay : t.exiting = false) (hj : (g, j) ∈ t.producers) (halive : isAlive p (g, j) = false)
    (hfreed : gen.freed = false) : pastClosed gen.state.worker.pc = true := by
  have hlaw := h.law hgen
  have hlt : i < gen.state.threads.length := by
    rw [hsize.cells gen (List.mem_of_getElem? hgen)]
    exact (List.getElem?_eq_some_iff.mp ht).1
  have hi := List.getElem?_eq_getElem hlt
  have hl := hlaw.cached ht hi hj
  have hcell := List.getElem?_eq_getElem (hlaw.owned.in_range hi hl)
  simp only [isAlive, hgen, Option.any_some, hfreed, Bool.not_false, Bool.true_and,
    Bool.or_eq_false_iff] at halive
  have hout : j ∉ gen.state.world.registry.lanes := fun hin => by
    rw [List.contains_iff_mem.mpr hin] at halive
    cases halive.1
  refine (hlaw.pruned j _ hcell hout).resolve_left fun hclosed => ?_
  have hdrop : dropping gen.state.threads[i].pc = true := by
    rcases hlaw.owned.closed_lane hi hl hcell hclosed with hpc | hpc <;> rw [hpc] <;> rfl
  rw [hlaw.exiting ht hi hdrop] at hstay
  cases hstay

/-- A thread's cache after it registered a lane. -/
def registeredCache [DecidableEq K] (p : Process K L) (t : Thread) (g lane : ℕ)
    (seenAlive : List ℕ) : Thread :=
  { t with
    producers :=
      (t.producers.filter fun e => seenAlive.contains e.1 || isAlive p e) ++ [(g, lane)] }

/-- A registration keeps lanes and caches together. -/
theorem LaneLaws.register [DecidableEq K] (h : LaneLaws p) {g i : ℕ} {seenAlive : List ℕ}
    {gen : Generation K L} {producer : Producer L} {t : Thread} {r : Submission L}
    (hgen : p.generations[g]? = some gen) (hi : gen.state.threads[i]? = some producer)
    (ht : p.threads[i]? = some t) (hpc : producer.pc = .resolve r)
    (hnone : ∀ j, (g, j) ∉ t.producers) :
    LaneLaws { p with
      generations := p.generations.set g { gen with
        state := { gen.state with
          world := GenerationStep.registerLane gen.state.world
          threads := gen.state.threads.set i
            ⟨.claimBytes r .normal, some gen.state.world.lanes.length⟩ }
        owners := gen.owners ++ [i] }
      threads := p.threads.set i
        (registeredCache p t g gen.state.world.lanes.length seenAlive) } := by
  have hlt := (List.getElem?_eq_some_iff.mp hgen).1
  have hold : ∀ e ∈ (t.producers.filter fun e => seenAlive.contains e.1 || isAlive p e),
      e ∈ t.producers := fun e he => (List.mem_filter.mp he).1
  refine ⟨fun {g' gen'} hg => ?_, forall_mem_set ?_ ?_, forall_mem_set h.keys ?_⟩
  · rcases cell_of_set hg with ⟨rfl, rfl⟩ | ⟨hne, hg₀⟩
    · refine (h.law hgen).register ht hi hpc hnone fun j => ?_
      simp only [registeredCache, List.mem_append, List.mem_singleton, Prod.mk.injEq, true_and]
      exact ⟨fun hj => hj.resolve_left fun hj => hnone j (hold _ hj), Or.inr⟩
    · refine (h.law hg₀).recache fun {i' t'} ht' => ?_
      rcases cell_of_set ht' with ⟨rfl, rfl⟩ | ⟨-, ht'⟩
      · refine ⟨t, ht, id, fun j => ⟨fun hj => ?_, fun hj hdropped q hq => ?_⟩⟩
        · rcases List.mem_append.mp hj with hj | hj
          · exact hold _ hj
          · exact absurd (congrArg Prod.fst (List.mem_singleton.mp hj)) hne
        · -- an entry that the retain dropped
          refine h.dead hg₀ ht hj (Bool.eq_false_of_not_eq_true fun halive => hdropped ?_) hq
          exact List.mem_append_left _ (List.mem_filter.mpr
            ⟨hj, (Bool.or_eq_true _ _).mpr (Or.inr halive)⟩)
      · exact ⟨t', ht', id, fun j => ⟨id, fun hj hn => absurd hj hn⟩⟩
  · intro t' ht' e he
    rw [List.length_set]
    exact h.range t' ht' e he
  · intro e he
    rw [List.length_set]
    rcases List.mem_append.mp he with he | he
    · exact h.range t (List.mem_of_getElem? ht) e (hold e he)
    · rw [List.mem_singleton.mp he]
      exact hlt
  · rw [registeredCache, List.map_append]
    refine List.nodup_append.mpr ⟨(h.keys t (List.mem_of_getElem? ht)).sublist
      (List.filter_sublist.map _), List.nodup_singleton _, fun k hk k' hk' => ?_⟩
    obtain ⟨e, he, rfl⟩ := List.mem_map.mp hk
    rw [List.map_singleton, List.mem_singleton] at hk'
    rintro heq
    refine hnone e.2 ?_
    have hkey : e = (g, e.2) := Prod.ext (heq.trans hk') rfl
    exact hkey ▸ hold e he

variable [DecidableEq K]

/-- Every step keeps lanes and caches together. -/
theorem LaneLaws.move (h : LaneLaws p) (hsize : Sized p) {a : Action K L}
    (hm : ProcessMove p a p') : LaneLaws p' := by
  cases hm with
  | spawn =>
    refine ⟨fun {g gen'} hg => ?_, fun t ht e he => ?_, fun t ht => ?_⟩
    · obtain ⟨gen, hgen, rfl⟩ := Option.map_eq_some_iff.mp ((List.getElem?_map ..).symm.trans hg)
      exact (h.law hgen).spawn (hsize.cells gen (List.mem_of_getElem? hgen))
    · rw [List.length_map]
      rcases List.mem_append.mp ht with ht | ht
      · exact h.range t ht e he
      · rw [List.mem_singleton.mp ht] at he
        cases he
    · rcases List.mem_append.mp ht with ht | ht
      · exact h.keys t ht
      · rw [List.mem_singleton.mp ht]
        exact List.nodup_nil
  | @exit i t ht hidle =>
    refine ⟨fun {g gen} hg => (h.law hg).recache fun {i' t'} ht' => ?_,
      forall_mem_set h.range (h.range t (List.mem_of_getElem? ht)),
      forall_mem_set h.keys (h.keys t (List.mem_of_getElem? ht))⟩
    rcases cell_of_set ht' with ⟨rfl, rfl⟩ | ⟨-, ht'⟩
    · exact ⟨t, ht, fun _ => rfl, fun j => ⟨id, fun hj hn => absurd hj hn⟩⟩
    · exact ⟨t', ht', id, fun j => ⟨id, fun hj hn => absurd hj hn⟩⟩
  | sinks hm hc hown => exact ⟨h.law, h.range, h.keys⟩
  | abandoned => exact h.append h.law rfl rfl rfl (laneLaw_abandoned p _ _ _ _)
  | installed hg he hi => exact h.append h.law rfl rfl rfl (laneLaw_prepared p _ _ _)
  | reconfigured hh hopen hr hi ha hgen hs hs' =>
    have hlaw := ((h.law hgen).move hs (fun hc => by cases hc) (fun _ _ _ hc => by cases hc)
      fun _ _ hc => by cases hc).move hs' (fun hc => by cases hc) (fun _ _ _ hc => by cases hc)
        fun _ _ hc => by cases hc
    have hset : LaneLaws { p with generations := p.generations.set _ _ } := h.set rfl rfl hlaw
    exact hset.append hset.law rfl rfl rfl (laneLaw_prepared p _ _ _)
  | closed hh hopen hne hgen hs =>
    exact h.run hgen hs (fun hc => by cases hc) (fun _ _ _ hc => by cases hc)
      (fun _ _ hc => by cases hc) rfl rfl
  | unregistered hh hclosed hgen hop hsinks hs =>
    exact h.run hgen hs (fun hc => by cases hc) (fun _ _ _ hc => by cases hc)
      (fun _ _ hc => by cases hc) rfl rfl
  | entered ht hstay hm hgen hs =>
    have hlaw := (h.law hgen).move hs (fun hc => by cases hc) (fun _ _ _ hc => by cases hc)
      fun _ _ hc => by cases hc
    exact h.set rfl rfl { hlaw with }
  | @found g i j seenAlive gen producer t r hgen hi ht hpc hj =>
    have hl := (h.law hgen).cached ht hi hj
    have hm : Move gen.exporter gen.state (.producer i) { gen.state with
        threads := gen.state.threads.set i ⟨.claimBytes r .normal, some j⟩ } := by
      rw [← hl]
      exact .producer hi (.found hl hpc)
    refine h.run hgen hm (fun hc => by cases hc)
      (fun i' q r' ha hi' _ => ?_) (fun _ _ hc => by cases hc) rfl rfl
    cases ha
    cases hi.symm.trans hi'
    rw [hl]
    exact Option.some_ne_none j
  | registered hgen hi ht hpc hnone => exact h.register hgen hi ht hpc hnone
  | @run g b gen s hgen hown hs =>
    refine h.run hgen hs ?_ ?_ ?_ rfl rfl
    · rintro rfl
      cases hown
    · rintro i q r rfl hi hpc
      simp [ownStep, hi, hpc] at hown
    · rintro i t rfl ht
      simpa [ownStep, ht] using hown
  | freed hgen hu =>
    refine h.set rfl rfl { h.law hgen with freed := fun _ hf => ?_ }
    simp only [unreferenced, Bool.and_eq_true, decide_eq_true_eq] at hu
    rw [hu.1.1] at hf
    cases hf

omit [DecidableEq K] in
/-- Nothing has a lane yet. -/
theorem LaneLaws.init (K L : Type) : LaneLaws (Process.init K L) :=
  ⟨fun hg => (by cases hg), fun t ht => (by cases ht), fun t ht => (by cases ht)⟩

/-- Lanes and caches fit together in every run. -/
theorem laneLaws {ok : Process K L → Action K L → Prop}
    (h : ReachWhile ExporterProcess.step ok (Process.init K L) p) : LaneLaws p :=
  h.invariant_using (J := fun p => HandlesSound p ∧ Sized p)
    (fun _ ht => ⟨handlesSound ht, sized ht⟩) (LaneLaws.init K L)
    fun _ _ _ hs _ ht _ hu => ht.move hs.2 (processMove hs.1.consistent hu)

omit [DecidableEq K] in
/-- A command keeps the registry, and so does its next operation. -/
theorem registry_of_command {x : Exporter L} {s s' : State L} {a : GenerationStep.Action L}
    (hm : Move x s a s') (ha : (∃ c, a = .command c) ∨ a = .control) :
    s'.world.registry = s.world.registry := by
  cases hm with
  | command hc hf => rfl
  | control hp hr => exact (controlStep_frame _ _ _).registry
  | _ => rcases ha with ⟨c, hc⟩ | hc <;> cases hc

/-- What a step of the process does to one registry. -/
theorem registry_of_step {a : Action K L} (hm : ProcessMove p a p') {g : ℕ}
    {gen gen' : Generation K L} (hg : p.generations[g]? = some gen)
    (hg' : p'.generations[g]? = some gen') :
    (∀ j ∈ gen.state.world.registry.lanes, j ∈ gen'.state.world.registry.lanes) ∨
      ∃ b s, Move gen.exporter gen.state b s ∧
        gen'.state.world.registry = s.world.registry := by
  have hsame : p'.generations[g]? = p.generations[g]? →
      ∀ j ∈ gen.state.world.registry.lanes, j ∈ gen'.state.world.registry.lanes := fun he => by
    rw [he] at hg'
    cases hg.symm.trans hg'
    exact fun j hj => hj
  have hset : ∀ {g₁ : ℕ} {gen₁ gen₂ : Generation K L} {b : GenerationStep.Action L} {s : State L},
      p.generations[g₁]? = some gen₁ → p'.generations = p.generations.set g₁ gen₂ →
      Move gen₁.exporter gen₁.state b s → gen₂.state.world.registry = s.world.registry →
      (∀ j ∈ gen.state.world.registry.lanes, j ∈ gen'.state.world.registry.lanes) ∨
        ∃ b s, Move gen.exporter gen.state b s ∧
          gen'.state.world.registry = s.world.registry := by
    intro g₁ gen₁ gen₂ b s hg₁ hgens hs hr
    rw [hgens] at hg'
    rcases cell_of_set hg' with ⟨rfl, rfl⟩ | ⟨hne, hg'⟩
    · cases hg.symm.trans hg₁
      exact Or.inr ⟨b, s, hs, hr⟩
    · cases hg.symm.trans hg'
      exact Or.inl fun j hj => hj
  have hkeep : ∀ {g₁ : ℕ} {gen₁ gen₂ : Generation K L}, p.generations[g₁]? = some gen₁ →
      p'.generations = p.generations.set g₁ gen₂ →
      (∀ j ∈ gen₁.state.world.registry.lanes, j ∈ gen₂.state.world.registry.lanes) →
      ∀ j ∈ gen.state.world.registry.lanes, j ∈ gen'.state.world.registry.lanes := by
    intro g₁ gen₁ gen₂ hg₁ hgens hsub
    rw [hgens] at hg'
    rcases cell_of_set hg' with ⟨rfl, rfl⟩ | ⟨hne, hg'⟩
    · cases hg.symm.trans hg₁
      exact hsub
    · cases hg.symm.trans hg'
      exact fun j hj => hj
  have happend : ∀ {l : List (Generation K L)} {new : Generation K L},
      l.length = p.generations.length → p'.generations = l ++ [new] → l[g]? = some gen' := by
    intro l new hlen hgens
    rw [hgens] at hg'
    rcases cell_of_append hg' with hg' | ⟨rfl, -⟩
    · exact hg'
    · rw [hlen] at hg
      exact absurd (List.getElem?_eq_some_iff.mp hg).1 (Nat.lt_irrefl _)
  cases hm with
  | spawn =>
    obtain ⟨gen₀, hgen, rfl⟩ := Option.map_eq_some_iff.mp ((List.getElem?_map ..).symm.trans hg')
    cases hg.symm.trans hgen
    exact Or.inl fun j hj => hj
  | exit ht hidle => exact Or.inl (hsame rfl)
  | sinks hm hc hown => exact Or.inl (hsame rfl)
  | abandoned => exact Or.inl (hsame (hg'.trans (happend rfl rfl).symm))
  | installed hg₁ he hi => exact Or.inl (hsame (hg'.trans (happend rfl rfl).symm))
  | reconfigured hh hopen hr hi ha hgen hs hs' =>
    rcases cell_of_set (happend List.length_set rfl) with ⟨rfl, rfl⟩ | ⟨-, hg₁⟩
    · cases hg.symm.trans hgen
      refine Or.inl fun j hj => ?_
      rw [withState, registry_of_command hs' (Or.inr rfl), registry_of_command hs (Or.inl ⟨_, rfl⟩)]
      exact hj
    · cases hg.symm.trans hg₁
      exact Or.inl fun j hj => hj
  | closed hh hopen hne hgen hs => exact hset hgen rfl hs rfl
  | unregistered hh hclosed hgen hop hsinks hs => exact hset hgen rfl hs rfl
  | entered ht hstay hm hgen hs => exact hset hgen rfl hs rfl
  | found hgen hi ht hpc hj => exact Or.inl (hkeep hgen rfl fun j hj => hj)
  | registered hgen hi ht hpc hnone =>
    exact Or.inl (hkeep hgen rfl fun j hj => List.mem_append_left _ hj)
  | run hgen hown hs => exact hset hgen rfl hs rfl
  | freed hgen hu => exact Or.inl (hkeep hgen rfl fun j hj => hj)

/-! ## Lanes stay as long as they are needed -/

/-- What a submission may rely on. -/
structure LanesAlive (p : Process K L) : Prop where
  /-- The cached entry of a thread that can still submit names its lane, which is
  registered in a collector that is not freed. -/
  entry : ∀ (g i j : ℕ) (gen : Generation K L) (t : Thread) (producer : Producer L),
    p.generations[g]? = some gen → p.threads[i]? = some t →
    gen.state.threads[i]? = some producer → (g, j) ∈ t.producers → canPush gen.state producer →
    producer.lane = some j ∧ gen.owners[j]? = some i ∧
      j ∈ gen.state.world.registry.lanes ∧ gen.freed = false
  /-- So is the lane that a submission in progress uses. -/
  used : ∀ (g i j : ℕ) (gen : Generation K L) (producer : Producer L),
    p.generations[g]? = some gen → gen.state.threads[i]? = some producer →
    producer.pc.outside = false → producer.lane = some j →
    j ∈ gen.state.world.registry.lanes ∧ gen.freed = false
  /-- A thread has at most one entry for a collector. -/
  single : ∀ t ∈ p.threads, (t.producers.map Prod.fst).Nodup
  /-- It registered at most one lane there, and each lane has a thread. -/
  owners : ∀ gen ∈ p.generations,
    gen.owners.Nodup ∧ gen.owners.length = gen.state.world.lanes.length
  /-- No record is queued in a lane that is out of the registry. -/
  empty : ∀ gen ∈ p.generations, ∀ (j : ℕ) (lane : ProducerLane L),
    gen.state.world.lanes[j]? = some lane → j ∉ gen.state.world.registry.lanes →
      lane.queues.records = []
  /-- A thread drops its lane only while it exits. -/
  exited : ∀ (g i : ℕ) (gen : Generation K L) (t : Thread) (producer : Producer L),
    p.generations[g]? = some gen → p.threads[i]? = some t →
    gen.state.threads[i]? = some producer → dropping producer.pc = true → t.exiting = true
  /-- A collector is freed only after its callback is gone. -/
  freed : ∀ gen ∈ p.generations, gen.freed = true →
    gen.state.world.retired = true ∧ ∀ producer ∈ gen.state.threads, producer.pc.outside = true

omit [DecidableEq K] in
/-- A process whose lanes fit together keeps that promise. -/
theorem LaneLaws.alive (h : LaneLaws p) : LanesAlive p where
  entry := fun g i j gen t producer hg ht hi hj hc => by
    have hlaw := h.law hg
    have hl := hlaw.cached ht hi hj
    obtain ⟨hin, hfreed⟩ := hlaw.live hi hl hc
    exact ⟨hl, (hlaw.owner_iff hi).mp hl, hin, hfreed⟩
  used := fun g i j gen producer hg hi hin hl => (h.law hg).live hi hl (Or.inl hin)
  single := h.keys
  owners := fun gen hm => by
    obtain ⟨g, hg⟩ := List.mem_iff_getElem?.mp hm
    exact ⟨(h.law hg).owners_nodup, (h.law hg).owners⟩
  empty := fun gen hm j lane hl hout => by
    obtain ⟨g, hg⟩ := List.mem_iff_getElem?.mp hm
    exact (h.law hg).owned.unregistered hl hout
  exited := fun g i gen t producer hg ht hi hd => (h.law hg).exiting ht hi hd
  freed := fun gen hm hf => by
    obtain ⟨g, hg⟩ := List.mem_iff_getElem?.mp hm
    exact (h.law hg).fenced ((h.law hg).freed hf)

/-- In every run the lane of a thread that can still submit to a collector is
registered there, a thread has at most one lane in a collector, and a lane
leaves the registry only once its thread has dropped it with both its queues
empty, or by the terminal clear behind the last callback. -/
theorem lane_lifetime (h : Reach ExporterProcess.step (Process.init K L) p) :
    LanesAlive p ∧
      ∀ (a : Action K L) (p' : Process K L) (g j : ℕ) (gen gen' : Generation K L),
        ExporterProcess.step p a = some p' → p.generations[g]? = some gen →
        p'.generations[g]? = some gen' → j ∈ gen.state.world.registry.lanes →
        j ∉ gen'.state.world.registry.lanes → Unregistration gen.state j := by
  have hlaws := laneLaws h
  refine ⟨hlaws.alive, fun a p' g j gen gen' hs hg hg' hj hj' => ?_⟩
  have hm := processMove (handlesSound h).consistent hs
  have hlaw := hlaws.law hg
  rcases registry_of_step hm hg hg' with hkept | ⟨b, s, hm, hr⟩
  · exact absurd (hkept j hj) hj'
  · exact unregistration hm hlaw.quiet hlaw.owned (hlaw.exists_owner hj) hj (hr ▸ hj')

end Process

/-- A record that is refused for its size, and the exit of its thread. -/
def exitedRun : List (ExporterProcess.Action ℕ ℕ) :=
  [.spawn, .install 7 sampleRequest, .dispatch 0 7 1000000000, .run 0 (.producer 0),
    .resolve 0 0 [], .run 0 (.producer 0), .run 0 (.producer 0), .run 0 (.producer 0), .exit 0,
    .run 0 (.exit 0), .run 0 (.producer 0), .run 0 (.producer 0)]

/-- The worker's next step. -/
def drainStep : ExporterProcess.Action ℕ ℕ := .run 0 (.worker ⟨[], 0, false, .ok 0 0⟩)

/-- Whether it takes the lane out of the registry. -/
def takesLane (p : Process ℕ ℕ) : Bool :=
  ((p.generations[0]?).any fun gen => decide (0 ∈ gen.state.world.registry.lanes)) &&
    (ExporterProcess.step p drainStep).any fun p' =>
      (p'.generations[0]?).any fun gen' => decide (0 ∉ gen'.state.world.registry.lanes)

/-- The lane of a thread that exited leaves the registry empty. -/
theorem lane_lifetime_exited : ∃ (p p' : Process ℕ ℕ) (gen gen' : Generation ℕ ℕ),
    Reach ExporterProcess.step (Process.init ℕ ℕ) p ∧ LanesAlive p ∧
    ExporterProcess.step p drainStep = some p' ∧ p.generations[0]? = some gen ∧
    p'.generations[0]? = some gen' ∧ 0 ∈ gen.state.world.registry.lanes ∧
    0 ∉ gen'.state.world.registry.lanes ∧ Unregistration gen.state 0 := by
  obtain ⟨p, hp, ht⟩ := exists_reach ExporterProcess.step (Process.init ℕ ℕ) exitedRun takesLane
    (by decide +kernel)
  obtain ⟨hg, hs⟩ := (Bool.and_eq_true _ _).mp ht
  obtain ⟨gen, hg, hj⟩ := (Option.any_eq_true _ _).mp hg
  obtain ⟨p', hs, hg'⟩ := (Option.any_eq_true _ _).mp hs
  obtain ⟨gen', hg', hj'⟩ := (Option.any_eq_true _ _).mp hg'
  have hj := of_decide_eq_true hj
  have hj' := of_decide_eq_true hj'
  have hall := lane_lifetime hp
  exact ⟨p, p', gen, gen', hp, hall.1, hs, hg, hg', hj, hj',
    hall.2 drainStep p' 0 0 gen gen' hs hg hg' hj hj'⟩

end EdenLogger.LaneLifetime
