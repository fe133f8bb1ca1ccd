import EdenLogger.AdmissionSequences
import EdenLogger.RoundRobinPlaces

/-!
# Losslessness and fairness of a drain

One `drain_into` ends, empties what it detached, and puts out every detached
record once, each lane's in order. A record waits for at most one quantum of
every lane for each round up to its own, however long the other lanes are. The
lane that goes first changes from drain to drain, through all lanes in turn.
-/

namespace EdenLogger.DrainFairness

open ExporterLanes LogCollector GenerationState GenerationStep RecordFlow RoundRobin
open SequentialAdmission AdmissionRefinement LaneTable RunRules

variable {L : Type}

/-! ## The loop -/

/-- The loop of `drain_batches`: another pass unless the last one moved nothing. -/
inductive DrainRun (q : QueueKind) : List (LaneQueues L) → List (QueuedLog L) →
    List (LaneQueues L) × List (QueuedLog L) → Prop where
  | stop {batches : List (LaneQueues L)} {output : List (QueuedLog L)} :
    (drainPass q batches).2.length = 0 → DrainRun q batches output ((drainPass q batches).1, output)
  | again {batches : List (LaneQueues L)} {output : List (QueuedLog L)}
      {result : List (LaneQueues L) × List (QueuedLog L)} :
    (drainPass q batches).2.length ≠ 0 →
      DrainRun q (drainPass q batches).1 (output ++ (drainPass q batches).2) result →
      DrainRun q batches output result

/-- The loop ends within one more pass than there are records. -/
theorem drainLoop_run {q : QueueKind} {fuel : ℕ} {batches : List (LaneQueues L)}
    (hf : held (kindQueues q batches) < fuel) (output : List (QueuedLog L)) :
    DrainRun q batches output (drainLoop q fuel batches output) := by
  induction fuel generalizing batches output with
  | zero => omega
  | succ fuel ih =>
    rw [drainLoop]
    split
    · rename_i hstop
      exact .stop hstop
    · rename_i hagain
      have hheld := held_pass drainQuantum (kindQueues q batches)
      rw [← drainPass_left, ← drainPass_moved] at hheld
      exact .again hagain (ih (by omega) _)

/-- The loop has one result. -/
theorem DrainRun.result_unique {q : QueueKind} {batches : List (LaneQueues L)}
    {output : List (QueuedLog L)} {r r' : List (LaneQueues L) × List (QueuedLog L)}
    (h : DrainRun q batches output r) (h' : DrainRun q batches output r') : r = r' := by
  induction h with
  | stop hstop =>
    cases h' with
    | stop => rfl
    | again hagain => exact absurd hstop hagain
  | again hagain _ ih =>
    cases h' with
    | stop hstop => exact absurd hstop hagain
    | again _ hrun => exact ih hrun

/-- It ends with the batches and the output of `drainBatches`. -/
theorem drainBatches_run {q : QueueKind} {batches : List (LaneQueues L)}
    {output : List (QueuedLog L)} {result : List (LaneQueues L) × List (QueuedLog L)} :
    DrainRun q batches output result ↔ result = drainBatches q batches output := by
  have hrun : DrainRun q batches output (drainBatches q batches output) :=
    drainLoop_run (Nat.lt_succ_self _) output
  constructor
  · exact fun h => h.result_unique hrun
  · rintro rfl
    exact hrun

/-! ## One drain -/

/-- The registry lists existing lanes, each of them once. -/
structure Registered (w : World L) : Prop where
  nodup : w.registry.lanes.Nodup
  bound : ∀ j ∈ w.registry.lanes, j < w.lanes.length

/-- The queues of one kind, in the order in which a drain visits their lanes. -/
def laneQueues (w : World L) (q : QueueKind) : List (List (QueuedLog L)) :=
  (drainOrder w alone).map fun i => (queuesAt w.lanes i).get q

/-- After any calls on a fresh collector the registry is so. -/
theorem registered_of_calls {x : Exporter L} {calls : List (Call L)} {c : Collector L}
    (h : replay (call x) noCheck (Collector.new L) calls = some c) : Registered c.world := by
  have hrel := replay_rel (fun c t a => Refines.call c t a) (Refines.new x) calls
  obtain ⟨t, hrefines⟩ := rel_some h hrel
  exact ⟨hrefines.nodup, hrefines.bound⟩

/-- A drain detaches the queues of the lanes it visits. -/
theorem detach_pairs {w : World L} (hw : Registered w) :
    (detach w).2 = (drainOrder w alone).map fun i => (i, queuesAt w.lanes i) :=
  takeLanes_pairs (snapshot_order_nodup _ hw.nodup) fun i hi =>
    hw.bound i (mem_drainOrder.mp hi).1

/-- A loop keeps the number of pairs. -/
theorem drainLoop_length (q : QueueKind) (fuel : ℕ) (batches : List (LaneQueues L))
    (output : List (QueuedLog L)) :
    (drainLoop q fuel batches output).1.length = batches.length := by
  induction fuel generalizing batches output with
  | zero => rfl
  | succ fuel ih =>
    have hpass : (drainPass q batches).1.length = batches.length := List.length_map ..
    rw [drainLoop]
    split
    · exact hpass
    · rw [ih, hpass]

/-- Each lane gets its own pair back. -/
theorem emptied_lanes (detached : List (ℕ × LaneQueues L)) (input : LaneQueues L) :
    (emptied detached input).map Prod.fst = detached.map Prod.fst := by
  unfold emptied drainBatches
  refine List.map_fst_zip ?_
  rw [drainLoop_length, drainLoop_length, List.length_map, List.length_map]

/-- Each kind of what is detached goes behind its output, interleaved with bounded waits. -/
theorem moveDetached_interleaves (detached : List (ℕ × LaneQueues L)) (input : LaneQueues L)
    (q : QueueKind) :
    (moveDetached detached input).get q = input.get q ++ drained q (detached.map Prod.snd) ∧
      Interleaves (kindQueues q (detached.map Prod.snd)) (drained q (detached.map Prod.snd))
        (place drainQuantum ((kindQueues q (detached.map Prod.snd)).map List.length)) := by
  refine ⟨?_, drain_interleaves (by decide) (Nat.lt_succ_self _)⟩
  rw [moveDetached_eq]
  cases q <;> rfl

/-! ## The first lane -/

/-- A drain that keeps all lanes visits them from the cursor round, and the
next one starts one lane on. -/
theorem snapshot_all {registry : LaneRegistry} {keep : ℕ → Bool}
    (h : (registry.snapshot keep).1.lanes = registry.lanes) (hne : registry.lanes ≠ []) :
    (registry.snapshot keep).2 = registry.lanes.rotate registry.cursor ∧
      (registry.snapshot keep).1.cursor =
        (registry.cursor % registry.lanes.length + 1) % registry.lanes.length := by
  rw [snapshot_lanes] at h
  have hpos : registry.lanes.length ≠ 0 := fun h0 => hne (List.length_eq_zero_iff.mp h0)
  unfold LaneRegistry.snapshot
  dsimp only
  rw [h, if_neg hpos]
  exact ⟨List.rotate_mod _ _, rfl⟩

/-- Consecutive drains: each finds the registry as the one before left it.
Between them lanes are filled and emptied at will. -/
def Consecutive (ws : List (World L)) : Prop :=
  ws.IsChain fun w w' => w'.registry = (pruneLanes w alone).registry

/-- The lanes that go first in some drains. -/
def firstLanes (ws : List (World L)) : List ℕ := ws.filterMap fun w => (drainOrder w alone).head?

/-- No drain changes the list of lanes. -/
def Unchanged (lanes : List ℕ) (ws : List (World L)) : Prop :=
  ∀ w ∈ ws, w.registry.lanes = lanes ∧ (pruneLanes w alone).registry.lanes = lanes

/-- A front of a rotated list, one step on. -/
theorem take_rotate_succ {lanes : List ℕ} {c n : ℕ} (h : n < lanes.length) :
    (lanes.rotate c).take (n + 1) =
      ((lanes.rotate c).head?).toList ++ (lanes.rotate (c + 1)).take n := by
  have hlength : (lanes.rotate c).length = lanes.length := List.length_rotate lanes c
  rw [← List.rotate_rotate]
  cases hr : lanes.rotate c with
  | nil =>
    rw [hr] at hlength
    exact absurd h (by rw [← hlength]; exact Nat.not_lt_zero _)
  | cons i rest =>
    rw [hr, List.length_cons] at hlength
    rw [List.rotate_cons_succ, List.rotate_zero, List.take_append_of_le_length (by omega)]
    rfl

/-- The first lanes of consecutive drains follow one another round the list. -/
theorem firstLanes_eq {lanes : List ℕ} {ws : List (World L)} {c : ℕ}
    (hlen : ws.length ≤ lanes.length)
    (hc : ∀ w ∈ ws.head?, w.registry.cursor % lanes.length = c % lanes.length)
    (hchain : Consecutive ws) (hsame : Unchanged lanes ws) :
    firstLanes ws = (lanes.rotate c).take ws.length := by
  induction ws generalizing c with
  | nil => rfl
  | cons w ws ih =>
    rw [List.length_cons] at hlen
    have hne : w.registry.lanes ≠ [] := by
      rw [(hsame w List.mem_cons_self).1]
      exact List.ne_nil_of_length_pos (by omega)
    obtain ⟨hlanes, hpruned⟩ := hsame w List.mem_cons_self
    obtain ⟨horder, hcursor⟩ := snapshot_all (hpruned.trans hlanes.symm) hne
    have hstart := hc w rfl
    have hhead : drainOrder w alone = lanes.rotate c := by
      rw [drainOrder, horder, hlanes, ← List.rotate_mod lanes w.registry.cursor, hstart,
        List.rotate_mod]
    have hnext : ∀ w' ∈ ws.head?,
        w'.registry.cursor % lanes.length = (c + 1) % lanes.length := by
      intro w' hw'
      cases ws with
      | nil => cases hw'
      | cons w'' ws =>
        cases hw'
        have hregistry := (List.isChain_cons_cons.mp hchain).1
        have hadvance : w'.registry.cursor = (c % lanes.length + 1) % lanes.length := by
          rw [hregistry, ← hstart, ← hlanes]
          exact hcursor
        rw [hadvance, Nat.mod_mod, Nat.mod_add_mod]
    have hrest := ih (by omega) hnext (List.IsChain.of_cons hchain) fun w' hw' =>
      hsame w' (List.mem_cons_of_mem _ hw')
    rw [List.length_cons, take_rotate_succ (by omega), ← hrest, ← hhead]
    unfold firstLanes
    rw [List.filterMap_cons]
    cases (drainOrder w alone).head? <;> rfl

/-- As many drains as there are lanes let each lane go first once. -/
theorem firstLanes_perm {lanes : List ℕ} {ws : List (World L)} (hlen : ws.length = lanes.length)
    (hchain : Consecutive ws) (hsame : Unchanged lanes ws) : (firstLanes ws).Perm lanes := by
  cases ws with
  | nil =>
    rw [List.length_eq_zero_iff.mp hlen.symm]
    exact List.Perm.refl _
  | cons w ws =>
    have hfirst := firstLanes_eq (c := w.registry.cursor) hlen.le
      (fun w' hw' => by cases hw'; rfl) hchain hsame
    rw [hfirst, hlen, List.take_of_length_le (List.length_rotate _ _).le]
    exact List.rotate_perm _ _

/-! ## Every drain -/

/-- Drains are lossless and fair. Every pass loop ends, every detached pair goes
back to its lane empty, and every detached record is put out once in its
lane's order, behind fewer records of the same drain than a quantum of every
lane for each round up to its own. Each lane goes first in one of as many
drains as there are lanes. -/
theorem drain_lossless_fair {w : World L} (hw : Registered w) (output : LaneQueues L) :
    (∀ q (batches : List (LaneQueues L)) queue result,
      DrainRun q batches queue result ↔ result = drainBatches q batches queue) ∧
    (emptied (detach w).2 output).map Prod.fst = drainOrder w alone ∧
    (∀ p ∈ emptied (detach w).2 output, p.2.isEmpty = true) ∧
    (∀ q, ∃ moved position,
      (drainInto w output).2.get q = output.get q ++ moved ∧
      Interleaves (laneQueues w q) moved position ∧
      ∀ j i, (element (laneQueues w q) j i).isSome →
        position j i < 64 * (drainOrder w alone).length * (i / 64 + 1)) ∧
    ∀ ws : List (World L), ws.length = w.registry.lanes.length → Consecutive ws →
      Unchanged w.registry.lanes ws → (firstLanes ws).Perm w.registry.lanes := by
  have hpairs := detach_pairs hw
  refine ⟨?_, ?_, ?_, ?_, ?_⟩
  · exact fun q batches queue result => drainBatches_run
  · rw [emptied_lanes, hpairs, List.map_map]
    exact List.map_id _
  · exact fun p hp => (LaneQueues.isEmpty_iff _).mpr (emptied_records _ _ p hp)
  · intro q
    have hqueues : kindQueues q ((detach w).2.map Prod.snd) = laneQueues w q := by
      rw [hpairs, kindQueues, List.map_map, List.map_map]
      rfl
    obtain ⟨houtput, hmoved⟩ := moveDetached_interleaves (detach w).2 output q
    rw [hqueues] at hmoved
    refine ⟨_, _, houtput, hmoved, fun j i h => ?_⟩
    have hbound := place_bound (by decide : 0 < drainQuantum) h
    rwa [laneQueues, List.length_map] at hbound
  · exact fun ws hlen hchain hsame => firstLanes_perm hlen hchain hsame

/-- An open lane with this many normal records. -/
def fullLane (producer n : ℕ) : ProducerLane ℕ :=
  { ProducerLane.new with
    queues := ⟨(List.range n).map fun i => ⟨i, .normal, 1, i + 1, producer⟩, []⟩ }

/-- A long lane and a short one, with the short one next. -/
def twoLanes : World ℕ :=
  { World.new ℕ with lanes := [fullLane 0 65, fullLane 1 2], registry := ⟨[0, 1], 1⟩ }

/-- Both lanes are put out in full, and the short one is not held up. -/
theorem drain_lossless_fair_two :
    (drainOrder twoLanes alone).length = 2 ∧
    ∃ moved position,
      (drainInto twoLanes .new).2.get .normal = LaneQueues.new.get .normal ++ moved ∧
      Interleaves (laneQueues twoLanes .normal) moved position ∧
      ∀ j i, (element (laneQueues twoLanes .normal) j i).isSome →
        position j i < 64 * (drainOrder twoLanes alone).length * (i / 64 + 1) :=
  ⟨rfl, (drain_lossless_fair ⟨by decide, by decide⟩ .new).2.2.2.1 .normal⟩

end EdenLogger.DrainFairness
