import EdenLogger.GenerationFrames
import EdenLogger.ListCells

/-!
# The worker's effect on the lane table

Swapping, recycling and clearing act on lanes one by one. Each keeps a lane's
closed flag, and leaves its queues as they were or empty. Recycling keeps all
queues, and clearing moves the records of the registered lanes out.
-/

namespace EdenLogger.LaneTable

open MachineWord WakeUpPermit ExporterLanes LogCollector GenerationState GenerationStep
open GenerationMoves ListCells

variable {L : Type}

/-- The records of all lanes. -/
def laneRecords (lanes : List (ProducerLane L)) : List (QueuedLog L) :=
  lanes.flatMap fun lane => lane.queues.records

/-- A lane's spare holds no record. -/
def SpareEmpty (lane : ProducerLane L) : Prop :=
  ∀ queues, lane.workerSpare = some queues → queues.records = []

/-- What the worker may do to one lane. -/
structure LaneStep (lane lane' : ProducerLane L) : Prop where
  /-- Only the exiting thread closes a lane. -/
  closed : lane'.closed = lane.closed
  /-- The queues are kept or emptied. -/
  queues : lane'.queues = lane.queues ∨ lane'.queues.records = []
  /-- The spare stays empty. -/
  spare : SpareEmpty lane → SpareEmpty lane'

theorem LaneStep.refl (lane : ProducerLane L) : LaneStep lane lane := ⟨rfl, Or.inl rfl, id⟩

theorem LaneStep.trans {a b c : ProducerLane L} (h : LaneStep a b) (h' : LaneStep b c) :
    LaneStep a c where
  closed := h'.closed.trans h.closed
  queues := by
    rcases h'.queues with hq | hq
    · rcases h.queues with hp | hp
      · exact Or.inl (hq.trans hp)
      · exact Or.inr (by rw [hq, hp])
    · exact Or.inr hq
  spare := fun hs => h'.spare (h.spare hs)

/-- A table whose lanes were each changed as the worker may. -/
structure TableStep (lanes lanes' : List (ProducerLane L)) : Prop where
  /-- No lane appears or disappears. -/
  length : lanes'.length = lanes.length
  /-- Every lane comes from the lane of its number. -/
  lane : ∀ {j : ℕ} {lane' : ProducerLane L}, lanes'[j]? = some lane' →
    ∃ lane, lanes[j]? = some lane ∧ LaneStep lane lane'

theorem TableStep.refl (lanes : List (ProducerLane L)) : TableStep lanes lanes :=
  ⟨rfl, fun h => ⟨_, h, LaneStep.refl _⟩⟩

theorem TableStep.trans {a b c : List (ProducerLane L)} (h : TableStep a b) (h' : TableStep b c) :
    TableStep a c where
  length := h'.length.trans h.length
  lane := fun hj => by
    obtain ⟨lb, hb, hs'⟩ := h'.lane hj
    obtain ⟨la, ha, hs⟩ := h.lane hb
    exact ⟨la, ha, hs.trans hs'⟩

/-- Replacing one lane by a step of it. -/
theorem TableStep.set {lanes : List (ProducerLane L)} {i : ℕ} {lane lane' : ProducerLane L}
    (hi : lanes[i]? = some lane) (hs : LaneStep lane lane') :
    TableStep lanes (lanes.set i lane') where
  length := List.length_set
  lane := fun hj => by
    rcases cell_of_set hj with ⟨rfl, rfl⟩ | ⟨-, hj⟩
    · exact ⟨lane, hi, hs⟩
    · exact ⟨_, hj, LaneStep.refl _⟩

/-- A swapped lane holds its spare, which is empty. -/
theorem records_take {lane : ProducerLane L} (h : SpareEmpty lane) :
    lane.take.2.queues.records = [] := by
  unfold ProducerLane.take
  cases hs : lane.workerSpare with
  | none => rfl
  | some queues => exact h queues hs

/-- Swapping a lane is a step of it. -/
theorem LaneStep.take {lane : ProducerLane L} (h : SpareEmpty lane) :
    LaneStep lane lane.take.2 :=
  ⟨rfl, Or.inr (records_take h), fun _ queues hq => by cases hq⟩

/-- Recycling an emptied pair is a step of its lane. -/
theorem LaneStep.recycle (lane : ProducerLane L) {queues : LaneQueues L}
    (h : queues.records = []) : LaneStep lane (lane.recycle queues) where
  closed := lane.recycle_closed queues
  queues := Or.inl (lane.recycle_queues queues)
  spare := fun hs q hq => by
    unfold ProducerLane.recycle at hq
    split at hq
    · cases hq
      exact h
    · exact hs q hq

/-- Clearing a lane is a step of it. -/
theorem LaneStep.clear (lane : ProducerLane L) : LaneStep lane (clearLane lane) where
  closed := rfl
  queues := Or.inr rfl
  spare := fun _ q hq => by
    simp only [clearLane, Option.map_eq_some_iff] at hq
    obtain ⟨_, _, rfl⟩ := hq
    rfl

/-- Modifying one lane by steps of it. -/
theorem TableStep.modify (lanes : List (ProducerLane L)) (i : ℕ)
    {f : ProducerLane L → ProducerLane L} (hf : ∀ lane, LaneStep lane (f lane)) :
    TableStep lanes (lanes.modify i f) where
  length := List.length_modify ..
  lane := fun {j lane'} hj => by
    rw [List.getElem?_modify, Option.map_eq_map, Option.map_eq_some_iff] at hj
    obtain ⟨lane, hl, rfl⟩ := hj
    refine ⟨lane, hl, ?_⟩
    split
    · exact hf lane
    · exact LaneStep.refl lane

/-- Recycling emptied pairs is a step of the table. -/
theorem TableStep.recycle {pairs : List (ℕ × LaneQueues L)} (h : ∀ p ∈ pairs, p.2.records = [])
    (lanes : List (ProducerLane L)) : TableStep lanes (recycleLanes lanes pairs) := by
  induction pairs generalizing lanes with
  | nil => exact TableStep.refl lanes
  | cons p rest ih =>
    obtain ⟨hp, hr⟩ := List.forall_mem_cons.mp h
    exact (TableStep.modify lanes p.1 fun lane => LaneStep.recycle lane hp).trans (ih hr _)

/-- Recycling leaves every lane's queues alone. -/
theorem recycleLanes_queues (lanes : List (ProducerLane L)) (pairs : List (ℕ × LaneQueues L)) :
    (recycleLanes lanes pairs).map ProducerLane.queues = lanes.map ProducerLane.queues := by
  induction pairs generalizing lanes with
  | nil => rfl
  | cons p rest ih =>
    rw [recycleLanes, ih]
    refine List.ext_getElem? fun j => ?_
    rw [List.getElem?_map, List.getElem?_map, List.getElem?_modify, Option.map_eq_map,
      Option.map_map]
    refine congrArg₂ _ (funext fun lane => ?_) rfl
    simp only [Function.comp]
    split
    · exact lane.recycle_queues p.2
    · rfl

/-- Recycling leaves the records of the lanes alone. -/
theorem laneRecords_recycle (lanes : List (ProducerLane L)) (pairs : List (ℕ × LaneQueues L)) :
    laneRecords (recycleLanes lanes pairs) = laneRecords lanes := by
  have h : ∀ ls : List (ProducerLane L),
      laneRecords ls = (ls.map ProducerLane.queues).flatMap LaneQueues.records := fun ls => by
    rw [List.flatMap_map]
    rfl
  rw [h, h, recycleLanes_queues]

/-- The pairs a drain returns are empty. -/
theorem emptied_records (detached : List (ℕ × LaneQueues L)) (input : LaneQueues L) :
    ∀ p ∈ emptied detached input, p.2.records = [] := fun p hp =>
  drainBatches_empty (detached.map Prod.snd) input.reserved input.normal p.2
    (List.of_mem_zip hp).2

/-- Clearing registered lanes is a step of the table. -/
theorem TableStep.clear (lanes : List (ProducerLane L)) (ids : List ℕ) :
    TableStep lanes (clearLanes lanes ids).1 := by
  induction ids generalizing lanes with
  | nil => exact TableStep.refl lanes
  | cons i rest ih =>
    rw [clearLanes]
    split
    · exact ih lanes
    · rename_i lane hl
      exact (TableStep.set hl (LaneStep.clear lane)).trans (ih _)

/-- Clearing moves records out of the lanes. -/
theorem clearLanes_perm (lanes : List (ProducerLane L)) (ids : List ℕ) :
    (((laneRecords (clearLanes lanes ids).1).map QueuedLog.tag) ++ (clearLanes lanes ids).2).Perm
      ((laneRecords lanes).map QueuedLog.tag) := by
  induction ids generalizing lanes with
  | nil => simp [clearLanes]
  | cons i rest ih =>
    rw [clearLanes]
    split
    · exact ih lanes
    · rename_i lane hl
      have hset := flatMap_set_perm (fun lane => lane.queues.records) hl (clearLane lane)
      have hc : (clearLane lane).queues.records = [] := rfl
      rw [hc, List.append_nil] at hset
      have hset := hset.map QueuedLog.tag
      rw [List.map_append] at hset
      refine List.Perm.trans ?_ hset
      have hcomm : ∀ a b c : List Tag, (a ++ (b ++ c)).Perm ((a ++ c) ++ b) := fun a b c => by
        rw [List.append_assoc]
        exact List.perm_append_comm.append_left a
      exact (hcomm _ _ _).trans ((ih _).append_right _)

/-- A cleared lane is empty. -/
theorem clearLanes_records {lanes : List (ProducerLane L)} {ids : List ℕ} {j : ℕ}
    {lane : ProducerLane L} (hj : j ∈ ids) (hl : (clearLanes lanes ids).1[j]? = some lane) :
    lane.queues.records = [] := by
  induction ids generalizing lanes with
  | nil => exact absurd hj (by simp)
  | cons i rest ih =>
    rw [clearLanes] at hl
    by_cases hr : j ∈ rest
    · split at hl
      · exact ih hr hl
      · exact ih hr hl
    · have hi : j = i := (List.mem_cons.mp hj).resolve_right hr
      subst hi
      split at hl
      · rename_i hn
        obtain ⟨l0, h0, -⟩ := (TableStep.clear lanes rest).lane hl
        rw [hn] at h0
        cases h0
      · rename_i l1 h1
        obtain ⟨l0, h0, hs⟩ := (TableStep.clear (lanes.set j (clearLane l1)) rest).lane hl
        have hlt := (List.getElem?_eq_some_iff.mp h1).1
        rw [List.getElem?_set_self hlt] at h0
        cases h0
        rcases hs.queues with hq | hq
        · rw [hq]
          rfl
        · exact hq

/-- Every worker move is a step of the table. -/
theorem worker_table {x : Exporter L} {o : Oracle} {w w' : World L} {k k' : Worker L}
    (hm : WorkerMove x o w k w' k')
    (hs : ∀ {j : ℕ} {lane : ProducerLane L}, w.lanes[j]? = some lane → SpareEmpty lane) :
    TableStep w.lanes w'.lanes := by
  cases hm with
  | take hl hpc => exact TableStep.set hl (LaneStep.take (hs hl))
  | detach hpc => exact TableStep.recycle (emptied_records _ _) _
  | ledgerClear hpc => exact TableStep.clear _ _
  | pollReady hr hpc =>
    rename_i wait c cells
    cases c <;> exact TableStep.refl _
  | pollNext hr hpc =>
    rename_i wait c cells
    cases c <;> exact TableStep.refl _
  | _ => exact TableStep.refl _

end EdenLogger.LaneTable
