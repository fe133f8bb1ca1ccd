import EdenLogger.LaneTable

/-!
# Quiescence and lane ownership

Once the fence has fired, no thread is inside the callback and none can enter
it. Each thread has one lane, which stays registered while the thread can still
push, and a lane outside the registry holds no record.
-/

namespace EdenLogger.LaneOwnership

open MachineWord WakeUpPermit ExporterLanes LogCollector GenerationState GenerationStep
open GenerationMoves GenerationFrames ListCells LaneTable RunRules

variable {L : Type} {x : Exporter L} {s s' : State L} {a : Action L}

/-- The worker has read `producers_closed` as set. -/
def pastClosed : WorkerPc L → Bool
  | .ledgerNormal _ | .ledgerReserved _ _ | .ledgerAdd _ _ | .ledgerClear _ _
  | .storeStopped _ | .notifyStopped _ | .reporting _ | .finished _ _ => true
  | _ => false

/-- What the fence guarantees. -/
structure Quiescence (s : State L) : Prop where
  /-- The fence fires only after the callback was retired. -/
  retired : s.world.producersClosed = true → s.world.retired = true
  /-- No thread is inside the callback afterwards. -/
  outside : s.world.producersClosed = true → ∀ p ∈ s.threads, p.pc.outside = true
  /-- The worker gets past its check only afterwards. -/
  past : pastClosed s.worker.pc = true → s.world.producersClosed = true

/-- A receive site is reached without having read the flag. -/
@[simp] theorem pastClosed_tryReceive (input : LaneQueues L) (site : Site) :
    pastClosed (tryReceive input site) = false := by
  unfold tryReceive
  split <;> rfl

@[simp] theorem pastClosed_receivedNone (input : LaneQueues L) (site : Site) :
    pastClosed (receivedNone input site) = false := by
  cases site <;> first | rfl | exact pastClosed_tryReceive _ _

@[simp] theorem pastClosed_received (k : Worker L) (r : MappedLog) (site : Site) :
    pastClosed (received k r site).pc = false := by
  cases site <;> rfl

@[simp] theorem pastClosed_waitReady (k : Worker L) (c : Cell) (wait : Wait) :
    pastClosed (waitReady k c wait).pc = false := by
  cases wait <;> cases c <;> first | rfl | exact pastClosed_tryReceive _ _

@[simp] theorem pastClosed_resumePc (resume : Resume) :
    pastClosed (resumePc resume : WorkerPc L) = false := by
  cases resume <;> rfl

@[simp] theorem pastClosed_drainNext (d : Drain) :
    pastClosed (drainNext d : WorkerPc L) = false := by
  cases d <;> rfl

/-- Past its check the worker stays past it, and it gets there only by reading
the flag as set. -/
theorem pastClosed_of_move {o : Oracle} {w w' : World L} {k k' : Worker L}
    (hm : WorkerMove x o w k w' k') (h : pastClosed k'.pc = true) :
    pastClosed k.pc = true ∨ w.producersClosed = true := by
  cases hm
  case closedSeen hc hpc => exact Or.inr hc
  case terminalSeen hc hpc => exact Or.inr hc
  case ledgerNormal hpc | ledgerReserved hpc | ledgerAdd hpc | ledgerClear hpc | storeStopped hpc
      | notifyStopped hpc | report hpc => exact Or.inl (by rw [hpc]; rfl)
  case detach | popNone | release | chooseReceive | assembleReceive | pollReady | completed =>
    simp at h
  all_goals cases h

/-- Quiescence is kept by every step. -/
theorem Quiescence.step (h : Quiescence s) (hm : Move x s a s') : Quiescence s' := by
  cases hm with
  | spawn =>
    refine ⟨h.retired, fun hc p hp => ?_, h.past⟩
    rcases List.mem_append.mp hp with hp | hp
    · exact h.outside hc p hp
    · rw [List.mem_singleton.mp hp]
      rfl
  | enter hi hpc hr =>
    refine ⟨h.retired, fun hc => ?_, h.past⟩
    rw [h.retired hc] at hr
    cases hr
  | producer hi hm =>
    have hf := producer_frame hm
    refine ⟨fun hc => ?_, fun hc => ?_, fun hp => ?_⟩
    · rw [hf.retired]
      exact h.retired (hf.producersClosed ▸ hc)
    · have ho := h.outside (hf.producersClosed ▸ hc)
      refine forall_mem_set ho ?_
      by_contra hn
      have := producer_inside hm (Bool.eq_false_of_not_eq_true hn)
      rw [ho _ (List.mem_of_getElem? hi)] at this
      cases this
    · exact hf.producersClosed.trans (h.past hp)
  | exit hi hpc =>
    refine ⟨h.retired, fun hc => forall_mem_set (h.outside hc) ?_, h.past⟩
    dsimp only
    split <;> rfl
  | fenceClose hf hr ho => exact ⟨fun _ => hr, fun _ => ho, fun _ => rfl⟩
  | worker ha hm =>
    have hf := worker_frame hm
    refine ⟨fun hc => ?_, fun hc => ?_, fun hp => ?_⟩
    · rw [hf.retired]
      exact h.retired (hf.producersClosed ▸ hc)
    · exact h.outside (hf.producersClosed ▸ hc)
    · rw [hf.producersClosed]
      exact (pastClosed_of_move hm hp).elim h.past id
  | flush hj hm =>
    rw [(flush_world hm).1]
    exact ⟨h.retired, h.outside, h.past⟩
  | @control op rest hp hr =>
    have hf := controlStep_frame s.world s.control op
    refine ⟨fun hc => ?_, fun hc => ?_, fun hp => ?_⟩
    · exact hf.retired (h.retired (hf.producersClosed ▸ hc))
    · exact h.outside (hf.producersClosed ▸ hc)
    · exact hf.producersClosed.trans (h.past hp)
  | _ => exact ⟨h.retired, h.outside, h.past⟩

/-- Quiescence holds in every run. -/
theorem quiescence {ok : State L → Action L → Prop}
    (h : ReachWhile (step x) ok (State.init L) s) : Quiescence s :=
  invariant_of_moves ⟨by simp [State.init, World.new], by simp [State.init], by
    simp [State.init, Worker.new, pastClosed]⟩ (fun _ _ _ hi _ hm => hi.step hm) h

/-- The thread can still push through its lane. -/
def canPush (s : State L) (p : Producer L) : Prop :=
  p.pc.outside = false ∨ (s.world.retired = false ∧ p.pc = .idle)

/-- Lanes, registry and threads fit together. -/
structure LanesOwned (s : State L) : Prop where
  /-- A thread's lane exists. -/
  in_range : ∀ {i j : ℕ} {p : Producer L}, s.threads[i]? = some p → p.lane = some j →
    j < s.world.lanes.length
  /-- Two threads have different lanes. -/
  distinct : ∀ {i i' j : ℕ} {p p' : Producer L}, s.threads[i]? = some p →
    s.threads[i']? = some p' → p.lane = some j → p'.lane = some j → i = i'
  /-- The lane of a thread that can still push is registered. -/
  registered : ∀ {i j : ℕ} {p : Producer L}, s.threads[i]? = some p → p.lane = some j →
    canPush s p → j ∈ s.world.registry.lanes
  /-- A closed lane's thread is exiting or has exited. -/
  closed_lane : ∀ {i j : ℕ} {p : Producer L} {lane : ProducerLane L}, s.threads[i]? = some p →
    p.lane = some j → s.world.lanes[j]? = some lane → lane.closed = true →
    p.pc = .closed ∨ p.pc = .gone
  /-- A lane outside the registry is empty. -/
  unregistered : ∀ {j : ℕ} {lane : ProducerLane L}, s.world.lanes[j]? = some lane →
    j ∉ s.world.registry.lanes → lane.queues.records = []
  /-- Registered lanes exist. -/
  registry_range : ∀ j ∈ s.world.registry.lanes, j < s.world.lanes.length
  /-- No lane is registered twice. -/
  registry_nodup : s.world.registry.lanes.Nodup
  /-- Spares are empty. -/
  spare : ∀ {j : ℕ} {lane : ProducerLane L}, s.world.lanes[j]? = some lane → SpareEmpty lane

/-- What a thread other than a registering one does to the lane table. -/
structure LaneUpdate (s : State L) (w' : World L) (p p' : Producer L) : Prop where
  length : w'.lanes.length = s.world.lanes.length
  registry : w'.registry = s.world.registry
  retired : w'.retired = s.world.retired
  lane : p'.lane = p.lane
  inside : p'.pc.outside = false → p.pc.outside = false
  idle : p'.pc = .idle → p.pc.outside = false
  gone : p.pc = .closed ∨ p.pc = .gone → p'.pc = .closed ∨ p'.pc = .gone
  table : ∀ {j : ℕ} {lane' : ProducerLane L}, w'.lanes[j]? = some lane' →
    ∃ lane, s.world.lanes[j]? = some lane ∧ (SpareEmpty lane → SpareEmpty lane') ∧
      (lane'.closed = true → lane.closed = true ∨ (p.lane = some j ∧ p'.pc = .closed)) ∧
      (lane.queues.records = [] → lane'.queues.records = [] ∨ j ∈ s.world.registry.lanes)

/-- A thread's update keeps lane ownership. -/
theorem LanesOwned.update {w' : World L} {i : ℕ} {p p' : Producer L} (h : LanesOwned s)
    (hi : s.threads[i]? = some p) (hu : LaneUpdate s w' p p') :
    LanesOwned { s with world := w', threads := s.threads.set i p' } where
  in_range := fun ht hl => by
    rw [hu.length]
    rcases cell_of_set ht with ⟨-, rfl⟩ | ⟨-, ht⟩
    · exact h.in_range hi (hu.lane ▸ hl)
    · exact h.in_range ht hl
  distinct := fun ht ht' hl hl' => by
    rcases cell_of_set ht with ⟨rfl, rfl⟩ | ⟨-, h0⟩ <;>
      rcases cell_of_set ht' with ⟨rfl, rfl⟩ | ⟨-, h0'⟩
    · rfl
    · exact h.distinct hi h0' (hu.lane ▸ hl) hl'
    · exact h.distinct h0 hi hl (hu.lane ▸ hl')
    · exact h.distinct h0 h0' hl hl'
  registered := fun ht hl hc => by
    dsimp only
    rw [hu.registry]
    rcases cell_of_set ht with ⟨-, rfl⟩ | ⟨-, ht⟩
    · refine h.registered hi (hu.lane ▸ hl) (Or.inl ?_)
      rcases hc with hc | ⟨-, hc⟩
      · exact hu.inside hc
      · exact hu.idle hc
    · refine h.registered ht hl ?_
      rcases hc with hc | ⟨hr, hc⟩
      · exact Or.inl hc
      · exact Or.inr ⟨hu.retired ▸ hr, hc⟩
  closed_lane := fun {i' j q lane'} ht hl hg hc => by
    obtain ⟨lane, hg0, -, hcl, -⟩ := hu.table hg
    rcases cell_of_set ht with ⟨-, rfl⟩ | ⟨hne, ht⟩
    · rcases hcl hc with hc0 | ⟨-, hp⟩
      · exact hu.gone (h.closed_lane hi (hu.lane ▸ hl) hg0 hc0)
      · exact Or.inl hp
    · rcases hcl hc with hc0 | ⟨hp, -⟩
      · exact h.closed_lane ht hl hg0 hc0
      · exact absurd (h.distinct ht hi hl hp) hne
  unregistered := fun hg hn => by
    rw [hu.registry] at hn
    obtain ⟨lane, hg0, -, -, hq⟩ := hu.table hg
    exact (hq (h.unregistered hg0 hn)).resolve_right hn
  registry_range := by
    rw [hu.registry, hu.length]
    exact h.registry_range
  registry_nodup := by
    rw [hu.registry]
    exact h.registry_nodup
  spare := fun hg => by
    obtain ⟨lane, hg0, hs, -, -⟩ := hu.table hg
    exact hs (h.spare hg0)

/-- A thread that leaves the table alone updates it trivially. -/
theorem LaneUpdate.same {w' : World L} {p p' : Producer L} (hw : w'.lanes = s.world.lanes)
    (hr : w'.registry = s.world.registry) (ht : w'.retired = s.world.retired)
    (hl : p'.lane = p.lane) (hin : p'.pc.outside = false → p.pc.outside = false)
    (hidle : p'.pc = .idle → p.pc.outside = false)
    (hg : p.pc = .closed ∨ p.pc = .gone → p'.pc = .closed ∨ p'.pc = .gone) :
    LaneUpdate s w' p p' where
  length := by rw [hw]
  registry := hr
  retired := ht
  lane := hl
  inside := hin
  idle := hidle
  gone := hg
  table := fun hj => ⟨_, hw ▸ hj, id, Or.inl, Or.inl⟩

/-- Every thread that already has a lane updates the table. -/
theorem laneUpdate_of_move {i : ℕ} {w' : World L} {p p' : Producer L} (h : LanesOwned s)
    (hi : s.threads[i]? = some p) (hm : ProducerMove x i s.world p w' p')
    (hlane : p'.lane = p.lane) : LaneUpdate s w' p p' := by
  have hf := producer_frame hm
  have hin := producer_inside hm
  have hgone := producer_gone hm
  have hidle : p'.pc = .idle → p.pc.outside = false := fun hp => by
    rw [producer_idle hm hp]
    rfl
  obtain ⟨-, hreg⟩ := (producer_lane hm).resolve_right (by
    rintro ⟨r, -, hn, -, rfl⟩
    rw [hn] at hlane
    cases hlane)
  cases hm
  case register hn hpc => exact absurd (hlane.trans hn) (by simp)
  case push r q ticket j lane hj hlj hpc =>
    refine ⟨List.length_set, hreg, hf.retired, hlane, hin, hidle, hgone, fun {j' lane'} hg => ?_⟩
    rcases cell_of_set hg with ⟨rfl, rfl⟩ | ⟨-, hg⟩
    · refine ⟨lane, hlj, id, Or.inl, fun _ => Or.inr (h.registered hi hj (Or.inl ?_))⟩
      rw [hpc]
      rfl
    · exact ⟨lane', hg, id, Or.inl, Or.inl⟩
  case close j lane hj hlj hpc =>
    refine ⟨List.length_set, hreg, hf.retired, hlane, hin, hidle, hgone, fun {j' lane'} hg => ?_⟩
    rcases cell_of_set hg with ⟨rfl, rfl⟩ | ⟨-, hg⟩
    · exact ⟨lane, hlj, id, fun _ => Or.inr ⟨hj, rfl⟩, Or.inl⟩
    · exact ⟨lane', hg, id, Or.inl, Or.inl⟩
  case refused failure hpc =>
    cases failure <;> exact LaneUpdate.same rfl hreg hf.retired hlane hin hidle hgone
  all_goals exact LaneUpdate.same rfl hreg hf.retired hlane hin hidle hgone

/-- A registration adds an empty lane for its thread. -/
theorem LanesOwned.register {i : ℕ} {pc : ProducerPc L} (h : LanesOwned s) :
    LanesOwned { s with
      world := registerLane s.world
      threads := s.threads.set i ⟨pc, some s.world.lanes.length⟩ } where
  in_range := fun {i' j q} ht hj => by
    simp only [registerLane, List.length_append, List.length_singleton]
    rcases cell_of_set ht with ⟨-, rfl⟩ | ⟨-, ht⟩
    · cases hj
      omega
    · have := h.in_range ht hj
      omega
  distinct := fun {i₁ i₂ j p₁ p₂} ht ht' hj hj' => by
    rcases cell_of_set ht with ⟨rfl, rfl⟩ | ⟨-, h0⟩ <;>
      rcases cell_of_set ht' with ⟨rfl, rfl⟩ | ⟨-, h0'⟩
    · rfl
    · cases hj
      exact absurd (h.in_range h0' hj') (Nat.lt_irrefl _)
    · cases hj'
      exact absurd (h.in_range h0 hj) (Nat.lt_irrefl _)
    · exact h.distinct h0 h0' hj hj'
  registered := fun {i' j q} ht hj hc => by
    simp only [registerLane, List.mem_append, List.mem_singleton]
    rcases cell_of_set ht with ⟨-, rfl⟩ | ⟨-, ht⟩
    · cases hj
      exact Or.inr rfl
    · exact Or.inl (h.registered ht hj hc)
  closed_lane := fun {i' j q lane} ht hj hg hc => by
    rcases cell_of_append hg with hg | ⟨-, rfl⟩
    · rcases cell_of_set ht with ⟨-, rfl⟩ | ⟨-, ht⟩
      · cases hj
        have := (List.getElem?_eq_some_iff.mp hg).1
        omega
      · exact h.closed_lane ht hj hg hc
    · cases hc
  unregistered := fun {j lane} hg hn => by
    simp only [registerLane, List.mem_append, List.mem_singleton, not_or] at hn
    rcases cell_of_append hg with hg | ⟨-, rfl⟩
    · exact h.unregistered hg hn.1
    · rfl
  registry_range := fun j hj => by
    simp only [registerLane, List.mem_append, List.mem_singleton, List.length_append,
      List.length_singleton] at hj ⊢
    rcases hj with hj | rfl
    · have := h.registry_range j hj
      omega
    · omega
  registry_nodup := by
    refine List.nodup_append.mpr ⟨h.registry_nodup, List.nodup_singleton _, fun j hj j' hj' => ?_⟩
    have := h.registry_range j hj
    rw [List.mem_singleton.mp hj']
    omega
  spare := fun hg => by
    rcases cell_of_append hg with hg | ⟨-, rfl⟩
    · exact h.spare hg
    · intro q hq
      cases hq

/-- A step of the table under an unchanged or smaller registry. -/
theorem LanesOwned.worker {w' : World L} {k' : Worker L} (h : LanesOwned s)
    (ht : TableStep s.world.lanes w'.lanes) (hr : w'.retired = s.world.retired)
    (hsub : w'.registry.lanes.Sublist s.world.registry.lanes)
    (hkeep : ∀ {i j : ℕ} {p : Producer L}, s.threads[i]? = some p → p.lane = some j →
      canPush s p → j ∈ s.world.registry.lanes → j ∈ w'.registry.lanes)
    (hempty : ∀ {j : ℕ} {lane' : ProducerLane L}, w'.lanes[j]? = some lane' →
      j ∈ s.world.registry.lanes → j ∉ w'.registry.lanes → lane'.queues.records = []) :
    LanesOwned { s with world := w', worker := k' } where
  in_range := fun hi hl => by
    rw [ht.length]
    exact h.in_range hi hl
  distinct := h.distinct
  registered := fun {i j p} hi hl hc => by
    have hc' : canPush s p := hc.imp id fun hp => ⟨hr ▸ hp.1, hp.2⟩
    exact hkeep hi hl hc' (h.registered hi hl hc')
  closed_lane := fun hi hl hg hc => by
    obtain ⟨lane, hg0, hs⟩ := ht.lane hg
    exact h.closed_lane hi hl hg0 (hs.closed ▸ hc)
  unregistered := fun {j lane'} hg hn => by
    by_cases hj : j ∈ s.world.registry.lanes
    · exact hempty hg hj hn
    · obtain ⟨lane, hg0, hs⟩ := ht.lane hg
      rcases hs.queues with hq | hq
      · rw [hq]
        exact h.unregistered hg0 hj
      · exact hq
  registry_range := fun j hj => by
    rw [ht.length]
    exact h.registry_range j (hsub.subset hj)
  registry_nodup := h.registry_nodup.sublist hsub
  spare := fun hg => by
    obtain ⟨lane, hg0, hs⟩ := ht.lane hg
    exact hs.spare (h.spare hg0)

/-- A lane that is not kept is closed and empty. -/
theorem closed_of_not_keep {w : World L} {o : Oracle} {j : ℕ} {lane : ProducerLane L}
    (hg : w.lanes[j]? = some lane) (hk : keepLane w o j = false) :
    lane.closed = true ∧ lane.queues.records = [] := by
  simp only [keepLane, hg, Option.all_some, Bool.or_eq_false_iff, Bool.not_eq_false',
    ProducerLane.isClosedAndEmpty, Bool.and_eq_true] at hk
  exact ⟨hk.2.1, (LaneQueues.isEmpty_iff _).mp hk.2.2⟩

/-- A worker step keeps lane ownership. -/
theorem LanesOwned.worker_step {o : Oracle} {w' : World L} {k' : Worker L} (h : LanesOwned s)
    (hq : Quiescence s) (hm : WorkerMove x o s.world s.worker w' k') :
    LanesOwned { s with world := w', worker := k' } := by
  have ht := worker_table hm h.spare
  have hr := (worker_frame hm).retired
  have hsame : w'.registry = s.world.registry →
      LanesOwned { s with world := w', worker := k' } := fun he =>
    h.worker ht hr (by rw [he]) (fun _ _ _ hj => he ▸ hj) (fun _ hj hn => absurd (he ▸ hj) hn)
  cases hm
  case drain d hpc =>
    have hl : (pruneLanes s.world o).registry.lanes =
        s.world.registry.lanes.filter (keepLane s.world o) := snapshot_lanes _ _
    refine h.worker ht hr (hl ▸ List.filter_sublist) (fun {i j p} hi hj hc hmem => ?_)
      (fun {j lane} hg hmem hn => ?_)
    · rw [hl, List.mem_filter]
      refine ⟨hmem, ?_⟩
      by_contra hk
      -- a pruned lane is closed, so its thread has left for good
      have hlt := h.in_range hi hj
      obtain ⟨hcl, -⟩ := closed_of_not_keep (List.getElem?_eq_getElem hlt)
        (Bool.eq_false_of_not_eq_true hk)
      have hgone := h.closed_lane hi hj (List.getElem?_eq_getElem hlt) hcl
      rcases hc with hc | ⟨-, hc⟩
      · rcases hgone with hg | hg <;> rw [hg] at hc <;> cases hc
      · rcases hgone with hg | hg <;> rw [hg] at hc <;> cases hc
    · rw [hl, List.mem_filter, not_and] at hn
      exact (closed_of_not_keep hg (Bool.eq_false_of_not_eq_true (hn hmem))).2
  case ledgerClear retained remaining hpc =>
    have hc := hq.past (by rw [hpc]; rfl)
    refine h.worker ht hr (List.nil_sublist _) (fun {i j p} hi hj hp => ?_)
      (fun hg hmem _ => clearLanes_records hmem hg)
    rcases hp with hp | ⟨hp, -⟩
    · rw [hq.outside hc p (List.mem_of_getElem? hi)] at hp
      cases hp
    · rw [hq.retired hc] at hp
      cases hp
  case pollReady wait c cells hr hpc => cases c <;> exact hsame rfl
  case pollNext wait c cells hr hpc => cases c <;> exact hsame rfl
  all_goals exact hsame rfl

/-- Lane ownership is kept by every step. -/
theorem LanesOwned.step (h : LanesOwned s) (hq : Quiescence s) (hm : Move x s a s') :
    LanesOwned s' := by
  cases hm with
  | spawn =>
    refine ⟨fun ht hl => ?_, fun ht ht' hl hl' => ?_, fun ht hl hc => ?_, fun ht hl => ?_,
      h.unregistered, h.registry_range, h.registry_nodup, h.spare⟩
    · rcases cell_of_append ht with ht | ⟨-, rfl⟩
      · exact h.in_range ht hl
      · cases hl
    · rcases cell_of_append ht with h0 | ⟨-, rfl⟩ <;> rcases cell_of_append ht' with h0' | ⟨-, rfl⟩
      · exact h.distinct h0 h0' hl hl'
      · cases hl'
      · cases hl
      · cases hl
    · rcases cell_of_append ht with ht | ⟨-, rfl⟩
      · exact h.registered ht hl hc
      · cases hl
    · rcases cell_of_append ht with ht | ⟨-, rfl⟩
      · exact h.closed_lane ht hl
      · cases hl
  | enter hi hpc hr =>
    refine ⟨fun ht hl => ?_, fun ht ht' hl hl' => ?_, fun ht hl hc => ?_, fun ht hl => ?_,
      h.unregistered, h.registry_range, h.registry_nodup, h.spare⟩
    · rcases cell_of_set ht with ⟨rfl, rfl⟩ | ⟨-, ht⟩
      · exact h.in_range hi hl
      · exact h.in_range ht hl
    · rcases cell_of_set ht with ⟨rfl, rfl⟩ | ⟨-, h0⟩ <;>
        rcases cell_of_set ht' with ⟨rfl, rfl⟩ | ⟨-, h0'⟩
      · rfl
      · exact h.distinct hi h0' hl hl'
      · exact h.distinct h0 hi hl hl'
      · exact h.distinct h0 h0' hl hl'
    · rcases cell_of_set ht with ⟨rfl, rfl⟩ | ⟨-, ht⟩
      · exact h.registered hi hl (Or.inr ⟨hr, hpc⟩)
      · exact h.registered ht hl hc
    · rcases cell_of_set ht with ⟨rfl, rfl⟩ | ⟨-, ht⟩
      · intro hg hc
        have := h.closed_lane hi hl hg hc
        rw [hpc] at this
        exact absurd this (by simp)
      · exact h.closed_lane ht hl
  | @producer i p p' w' hi hm =>
    rcases producer_lane hm with ⟨hl, -⟩ | ⟨r, hpc, hl, rfl, rfl⟩
    · exact h.update hi (laneUpdate_of_move h hi hm hl)
    · exact h.register
  | exit hi hpc =>
    refine h.update hi
      (LaneUpdate.same rfl rfl rfl rfl (fun hp => ?_) (fun hp => ?_) (fun hg => ?_))
    · dsimp only at hp
      split at hp <;> cases hp
    · dsimp only at hp
      split at hp <;> cases hp
    · rw [hpc] at hg
      exact absurd hg (by simp)
  | worker ha hm => exact h.worker_step hq hm
  | flush hj hm =>
    rw [(flush_world hm).1]
    exact ⟨h.in_range, h.distinct, h.registered, h.closed_lane, h.unregistered, h.registry_range,
      h.registry_nodup, h.spare⟩
  | @control op rest hp hr =>
    have hf := controlStep_frame s.world s.control op
    refine ⟨?_, h.distinct, fun ht hl hc => ?_, ?_, ?_, ?_, ?_, ?_⟩ <;> dsimp only
    · rw [hf.lanes]
      exact h.in_range
    · rw [hf.registry]
      refine h.registered ht hl (hc.imp id fun hp => ⟨?_, hp.2⟩)
      cases hret : s.world.retired with
      | false => rfl
      | true =>
        have := hf.retired hret
        rw [hp.1] at this
        cases this
    · rw [hf.lanes]
      exact h.closed_lane
    · rw [hf.lanes, hf.registry]
      exact h.unregistered
    · rw [hf.lanes, hf.registry]
      exact h.registry_range
    · rw [hf.registry]
      exact h.registry_nodup
    · rw [hf.lanes]
      exact h.spare
  | _ =>
    exact ⟨h.in_range, h.distinct, h.registered, h.closed_lane, h.unregistered, h.registry_range,
      h.registry_nodup, h.spare⟩

/-- Lane ownership holds in every run. -/
theorem lanesOwned {ok : State L → Action L → Prop}
    (h : ReachWhile (step x) ok (State.init L) s) : LanesOwned s :=
  invariant_of_moves_using (fun _ => quiescence)
    ⟨by simp [State.init], by simp [State.init], by simp [State.init], by simp [State.init],
      by simp [State.init, World.new], by simp [State.init, World.new],
      by simp [State.init, World.new], by simp [State.init, World.new]⟩
    (fun _ _ _ hq _ hi _ hm => hi.step hq hm) h

/-! ## Threads inside the callback -/

/-- Whether the thread works with its lane. -/
def usesLane : ProducerPc L → Bool
  | .idle | .entered _ | .resolve _ | .leaving | .gone => false
  | _ => true

/-- A thread that works with its lane has one. -/
def Equipped (p : Producer L) : Prop := usesLane p.pc = true → p.lane.isSome = true

/-- A refused thread works with its lane. -/
theorem Equipped.move {i : ℕ} {w w' : World L} {p p' : Producer L} (h : Equipped p)
    (hm : ProducerMove x i w p w' p') : Equipped p' := by
  have hin : ∀ {pc}, p.pc = pc → usesLane pc = true → p.lane.isSome = true :=
    fun hpc hu => h (hpc ▸ hu)
  cases hm
  case found r j hl hpc => exact fun _ => by rw [hl]; rfl
  case register => exact fun _ => rfl
  all_goals
    rename_i hpc
    first
      | exact fun _ => hin hpc rfl
      | exact fun hu => by cases hu

/-- Every thread of a run does. -/
theorem equipped {ok : State L → Action L → Prop}
    (h : ReachWhile (step x) ok (State.init L) s) : ∀ p ∈ s.threads, Equipped p :=
  invariant_of_moves (I := fun s => ∀ p ∈ s.threads, Equipped p)
    (fun p hp => absurd hp (by simp [State.init]))
    (fun t u a hi _ hm => by
      cases hm with
      | spawn =>
        intro p hp
        rcases List.mem_append.mp hp with hp | hp
        · exact hi p hp
        · rw [List.mem_singleton.mp hp]
          exact fun hu => by cases hu
      | enter hj hpc hr => exact forall_mem_set hi fun hu => by cases hu
      | producer hj hm => exact forall_mem_set hi ((hi _ (List.mem_of_getElem? hj)).move hm)
      | exit hj hpc =>
        refine forall_mem_set hi fun hu => ?_
        dsimp only at hu ⊢
        split at hu
        · assumption
        · cases hu
      | _ => exact hi) h

/-- A thread inside the callback can take a step at once, unless it is about to
take a ticket and the last one is handed out. -/
theorem producer_enabled (h : Reachable x s) {i : ℕ} {p : Producer L}
    (hi : s.threads[i]? = some p) (hin : p.pc.outside = false)
    (hticket : ∀ r q, p.pc = .takeTicket r q → s.world.nextTicket < wordMax) :
    (step x s (.producer i)).isSome = true := by
  have hlane := equipped h p (List.mem_of_getElem? hi)
  have hrange : ∀ {j}, p.lane = some j → j < s.world.lanes.length := (lanesOwned h).in_range hi
  simp only [step, hi, Option.bind_some, Option.isSome_map]
  cases hpc : p.pc with
  | idle | closing | closed | gone =>
    rw [hpc] at hin
    cases hin
  | entered log =>
    simp only [producerStep, hpc]
    split
    · rfl
    · split <;> rfl
  | resolve r =>
    simp only [producerStep, hpc]
    split <;> rfl
  | claimBytes r q =>
    simp only [producerStep, hpc]
    split <;> rfl
  | claimDepth r q =>
    simp only [producerStep, hpc]
    split <;> rfl
  | takeTicket r q => simp [producerStep, hpc, hticket r q hpc]
  | push r q ticket =>
    obtain ⟨j, hj⟩ := Option.isSome_iff_exists.mp (hlane (by rw [hpc]; rfl))
    simp [producerStep, hpc, hj, List.getElem?_eq_getElem (hrange hj)]
  | _ => simp [producerStep, hpc]

end EdenLogger.LaneOwnership
