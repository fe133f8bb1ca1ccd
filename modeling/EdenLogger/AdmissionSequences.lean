import EdenLogger.AdmissionRefinement

/-!
# Sequences of calls and the two queues

A drain swaps every lane in use out, so it yields what each lane's thread had
accepted since the drain before, and a release gives back what its record was
charged. With the submissions this makes every sequence of calls refine the
two queues.
-/

namespace EdenLogger.AdmissionRefinement

open MachineWord WakeUpPermit ExporterLanes LogCollector GenerationState GenerationStep
open GenerationMoves ListCells LaneTable RecordFlow CapacityAccount QueueAccounting
open SequentialAdmission RunRules

variable {L : Type} {x : Exporter L}

/-! ## Drains -/

/-- Swapping lanes out is a step of the table. -/
theorem takeLanes_table {lanes : List (ProducerLane L)} (h : ∀ lane ∈ lanes, SpareEmpty lane)
    (order : List ℕ) : TableStep lanes (takeLanes lanes order).1 := by
  induction order generalizing lanes with
  | nil => exact TableStep.refl lanes
  | cons i rest ih =>
    rw [takeLanes]
    split
    · exact ih h
    · rename_i lane hl
      have hs := LaneStep.take (h lane (List.mem_of_getElem? hl))
      have hset := forall_mem_set (i := i) h (hs.spare (h lane (List.mem_of_getElem? hl)))
      exact (TableStep.set hl hs).trans (ih hset)

/-- Other lanes are left alone. -/
theorem takeLanes_others {lanes : List (ProducerLane L)} {order : List ℕ} {j : ℕ}
    (hj : j ∉ order) : queuesAt (takeLanes lanes order).1 j = queuesAt lanes j := by
  induction order generalizing lanes with
  | nil => rfl
  | cons i rest ih =>
    have hrest : j ∉ rest := fun h => hj (List.mem_cons_of_mem _ h)
    have hne : i ≠ j := fun e => hj (e ▸ List.mem_cons_self)
    rw [takeLanes]
    split
    · exact ih hrest
    · rw [ih hrest, queuesAt, queuesAt, List.getElem?_set_ne hne]

/-- The swapped pairs are what the lanes held. -/
theorem takeLanes_pairs {lanes : List (ProducerLane L)} {order : List ℕ} (hn : order.Nodup)
    (hb : ∀ i ∈ order, i < lanes.length) :
    (takeLanes lanes order).2 = order.map fun i => (i, queuesAt lanes i) := by
  induction order generalizing lanes with
  | nil => rfl
  | cons i rest ih =>
    obtain ⟨hi, hn⟩ := List.nodup_cons.mp hn
    have hlt := hb i List.mem_cons_self
    have hl := List.getElem?_eq_getElem hlt
    have hq : queuesAt lanes i = lanes[i].queues := by rw [queuesAt, hl]; rfl
    simp only [takeLanes, hl, List.map_cons, hq]
    rw [ih hn fun k hk => by
      rw [List.length_set]
      exact hb k (List.mem_cons_of_mem _ hk)]
    refine congrArg₂ List.cons rfl (List.map_congr_left fun k hk => ?_)
    have hne : i ≠ k := fun e => hi (e ▸ hk)
    rw [queuesAt, queuesAt, List.getElem?_set_ne hne]

/-- Swapping moves records from the lanes to the pairs. -/
theorem takeLanes_perm {lanes : List (ProducerLane L)} (h : ∀ lane ∈ lanes, SpareEmpty lane)
    (order : List ℕ) :
    (detachedRecords (takeLanes lanes order).2 ++ laneRecords (takeLanes lanes order).1).Perm
      (laneRecords lanes) := by
  induction order generalizing lanes with
  | nil => exact List.Perm.refl _
  | cons i rest ih =>
    rw [takeLanes]
    split
    · exact ih h
    · rename_i lane hl
      have he := records_take (h lane (List.mem_of_getElem? hl))
      have hlane := h lane (List.mem_of_getElem? hl)
      have hs := (LaneStep.take hlane).spare hlane
      have hp := flatMap_set_perm (fun lane => lane.queues.records) hl lane.take.2
      rw [he, List.append_nil] at hp
      have hrest := (ih (forall_mem_set (i := i) h hs)).append_left lane.queues.records
      rw [← List.append_assoc] at hrest
      exact hrest.trans (List.perm_append_comm.trans hp)

/-- A lane that was swapped out holds nothing. -/
theorem takeLanes_records {lanes : List (ProducerLane L)} (h : ∀ lane ∈ lanes, SpareEmpty lane)
    {order : List ℕ} {j : ℕ} {lane' : ProducerLane L} (hj : j ∈ order)
    (hl' : (takeLanes lanes order).1[j]? = some lane') : lane'.queues.records = [] := by
  induction order generalizing lanes with
  | nil => cases hj
  | cons i rest ih =>
    rw [takeLanes] at hl'
    split at hl'
    · rename_i hnone
      rcases List.mem_cons.mp hj with rfl | hj
      · obtain ⟨lane, hl, -⟩ := (takeLanes_table h rest).lane hl'
        rw [hnone] at hl
        cases hl
      · exact ih h hj hl'
    · rename_i lane hl
      have hlane := h lane (List.mem_of_getElem? hl)
      have hset := forall_mem_set (i := i) h ((LaneStep.take hlane).spare hlane)
      by_cases hr : j ∈ rest
      · exact ih hset hr hl'
      · -- the lane is not swapped a second time
        have hij : j = i := (List.mem_cons.mp hj).resolve_right hr
        subst hij
        obtain ⟨lane₁, hl₁, hs⟩ := (takeLanes_table hset rest).lane hl'
        rw [List.getElem?_set_self (List.getElem?_eq_some_iff.mp hl).1] at hl₁
        cases hl₁
        rcases hs.queues with hq | hq
        · rw [hq]
          exact records_take hlane
        · exact hq

/-- The lanes a drain swaps out are the kept ones. -/
theorem mem_drainOrder {w : World L} {i : ℕ} :
    i ∈ drainOrder w alone ↔ i ∈ w.registry.lanes ∧ keepLane w alone i = true := by
  rw [drainOrder, mem_snapshot_order, snapshot_lanes, List.mem_filter]

/-- A lane in use or with records is kept. -/
theorem keepLane_of_used {w : World L} {j : ℕ} {lane : ProducerLane L}
    (hl : w.lanes[j]? = some lane) (hu : lane.closed = false ∨ lane.queues.records ≠ []) :
    keepLane w alone j = true := by
  have hk : lane.isClosedAndEmpty = false := by
    rcases hu with hu | hu
    · simp [ProducerLane.isClosedAndEmpty, hu]
    · have he : lane.queues.isEmpty = false := by
        rw [Bool.eq_false_iff]
        exact fun h => hu (lane.queues.isEmpty_iff.mp h)
      simp [ProducerLane.isClosedAndEmpty, he]
  simp [keepLane, hl, hk]

/-- A lane that a drain leaves alone holds nothing. -/
theorem Refines.idle {c : Collector L} {t : TwoQueues L} (h : Refines x c t) {j : ℕ}
    (hj : j ∉ drainOrder c.world alone) (q : QueueKind) :
    (queuesAt c.world.lanes j).get q = [] := by
  rw [queuesAt]
  cases hl : c.world.lanes[j]? with
  | none => cases q <;> rfl
  | some lane =>
    have hr : lane.queues.records = [] := by
      by_contra hne
      exact hj (mem_drainOrder.mpr
        ⟨h.registered hl (Or.inr hne), keepLane_of_used hl (Or.inr hne)⟩)
    obtain ⟨hres, hnor⟩ := List.append_eq_nil_iff.mp hr
    cases q
    · exact hnor
    · exact hres

/-- The pairs a drain detaches. -/
theorem Refines.detached {c : Collector L} {t : TwoQueues L} (h : Refines x c t) :
    (detach c.world).2.map Prod.snd =
      (drainOrder c.world alone).map (queuesAt c.world.lanes) := by
  have hn : (drainOrder c.world alone).Nodup := snapshot_order_nodup _ h.nodup
  rw [SequentialAdmission.detach, takeLanes_pairs hn fun i hi => h.bound i (mem_drainOrder.mp hi).1,
    List.map_map]
  rfl

/-- A kind of a lane holds records of that lane and kind only. -/
theorem Refines.lane_filter {c : Collector L} {t : TwoQueues L} (h : Refines x c t) (i j : ℕ)
    (q : QueueKind) :
    ((queuesAt c.world.lanes i).get q).filter (fun r => decide (r.producer = j)) =
      if i = j then (queuesAt c.world.lanes j).get q else [] := by
  rw [h.lane i q, h.lane j q, List.filter_filter]
  split
  · rename_i hij
    subst hij
    refine List.filter_congr fun r _ => ?_
    by_cases hr : r.producer = i <;> simp [ofLane, hr]
  · rename_i hij
    refine List.filter_eq_nil_iff.mpr fun r _ hr => hij ?_
    simp only [ofLane, Bool.and_eq_true, decide_eq_true_eq] at hr
    exact hr.2.1.symm.trans hr.1

/-- A drain yields, of a lane and a kind, what the lane held. -/
theorem Refines.yield {c : Collector L} {t : TwoQueues L} (h : Refines x c t) (j : ℕ)
    (q : QueueKind) :
    (LogCollector.drained q ((detach c.world).2.map Prod.snd)).filter
        (fun r => decide (r.producer = j)) =
      (queuesAt c.world.lanes j).get q := by
  have hn : (drainOrder c.world alone).Nodup := snapshot_order_nodup _ h.nodup
  rw [h.detached]
  have hk : kindQueues q ((drainOrder c.world alone).map (queuesAt c.world.lanes)) =
      (drainOrder c.world alone).map fun i => (queuesAt c.world.lanes i).get q := by
    rw [kindQueues, List.map_map]
    rfl
  have hsolo : RoundRobin.Solo (fun r => decide (r.producer = j))
      (kindQueues q ((drainOrder c.world alone).map (queuesAt c.world.lanes))) := by
    rw [hk]
    refine List.pairwise_map.mpr (hn.imp fun {a b} hab => ?_)
    rw [h.lane_filter, h.lane_filter]
    by_cases ha : a = j
    · exact Or.inr (if_neg fun hb => hab (ha.trans hb.symm))
    · exact Or.inl (if_neg ha)
  rw [drained_filter hsolo, hk, List.filter_flatten, List.map_map, ← List.flatMap_def]
  by_cases hj : j ∈ drainOrder c.world alone
  · obtain ⟨k, hk⟩ := List.mem_iff_getElem?.mp hj
    rw [flatMap_of_single _ hk fun {i b} hi hne => ?_]
    · simp only [Function.comp, h.lane_filter, if_true]
    · have hb : b ≠ j := fun e => hne (by
        subst e
        exact (List.getElem?_inj (List.getElem?_eq_some_iff.mp hi).1 hn).mp (hi.trans hk.symm))
      simp only [Function.comp, h.lane_filter, if_neg hb]
  · rw [h.idle hj]
    refine List.flatMap_eq_nil_iff.mpr fun i hi => ?_
    have hij : i ≠ j := fun e => hj (e ▸ hi)
    simp only [Function.comp, h.lane_filter, if_neg hij]

/-- An accepted record's ticket is its place. -/
theorem Refines.place {c : Collector L} {t : TwoQueues L} (h : Refines x c t) {i : ℕ}
    {r : QueuedLog L} (hr : t.accepted[i]? = some r) : r.ticket = i + 1 := by
  have hi := (List.getElem?_eq_some_iff.mp hr).1
  have ht : (t.accepted.map QueuedLog.ticket)[i]? = some r.ticket := by
    rw [List.getElem?_map, hr]
    rfl
  rw [h.tickets, List.getElem?_range' hi] at ht
  have := Option.some.inj ht
  omega

/-- Records that are put out are held. -/
theorem Refines.output_held {c : Collector L} {t : TwoQueues L} (h : Refines x c t)
    {r : QueuedLog L} (hr : r ∈ c.output.records) : r ∈ t.held :=
  h.places.subset (List.mem_append_left _ hr)

/-- After a drain no lane holds a record. -/
theorem Refines.drain_empties {c : Collector L} {t : TwoQueues L} (h : Refines x c t) (j : ℕ)
    (q : QueueKind) : (queuesAt (drainInto c.world c.output).1.lanes j).get q = [] := by
  have hrec : queuesAt (drainInto c.world c.output).1.lanes j =
      queuesAt (SequentialAdmission.detach c.world).1 j := by
    simp only [queuesAt, ← List.getElem?_map]
    exact congrArg (fun l => (l[j]?).getD LaneQueues.new) (recycleLanes_queues _ _)
  rw [hrec]
  by_cases hj : j ∈ drainOrder c.world alone
  · rw [queuesAt]
    cases hl : (SequentialAdmission.detach c.world).1[j]? with
    | none => cases q <;> rfl
    | some lane =>
      obtain ⟨hres, hnor⟩ := List.append_eq_nil_iff.mp (takeLanes_records h.spare hj hl)
      cases q
      · exact hnor
      · exact hres
  · have hkept : queuesAt (SequentialAdmission.detach c.world).1 j = queuesAt c.world.lanes j :=
      takeLanes_others hj
    rw [hkept]
    exact h.idle hj q

/-- `drain_into`. -/
theorem Refines.drain {c : Collector L} {t : TwoQueues L} (h : Refines x c t) :
    Refines x
      { c with
        world := (drainInto c.world c.output).1
        output := (drainInto c.world c.output).2
        drained := (drainInto c.world c.drained).2 }
      { t with yielded := t.accepted.length } := by
  have htable : TableStep c.world.lanes (drainInto c.world c.output).1.lanes :=
    (takeLanes_table h.spare _).trans (TableStep.recycle (emptied_records _ _) _)
  have hperm : ((drainInto c.world c.output).2.records ++
      laneRecords (drainInto c.world c.output).1.lanes).Perm t.held := by
    have htake := takeLanes_perm h.spare (drainOrder c.world alone)
    have hmove := moveDetached_records (detach c.world).2 c.output
    have hrec : laneRecords (drainInto c.world c.output).1.lanes =
        laneRecords (detach c.world).1 := laneRecords_recycle _ _
    rw [hrec]
    refine (hmove.append_right _).trans ?_
    refine (List.perm_append_comm.append_right _).trans ?_
    rw [List.append_assoc]
    exact (htake.append_left c.output.records).trans h.places
  have hregistry : (drainInto c.world c.output).1.registry.lanes =
      c.world.registry.lanes.filter (keepLane c.world alone) := snapshot_lanes _ _
  constructor
  case places => exact hperm
  case closed => exact (closed_table htable).trans h.closed
  case spare =>
    intro lane' hl'
    obtain ⟨j, hj⟩ := List.mem_iff_getElem?.mp hl'
    obtain ⟨lane, hl, hs⟩ := htable.lane hj
    exact hs.spare (h.spare lane (List.mem_of_getElem? hl))
  case registered =>
    intro j lane' hj hu
    obtain ⟨lane, hl, hs⟩ := htable.lane hj
    have hu' : lane.closed = false ∨ lane.queues.records ≠ [] := by
      rcases hu with hu | hu
      · exact Or.inl (hs.closed.symm.trans hu)
      · rcases hs.queues with hq | hq
        · exact Or.inr (hq ▸ hu)
        · exact absurd hq hu
    rw [hregistry]
    exact List.mem_filter.mpr ⟨h.registered hl hu', keepLane_of_used hl hu'⟩
  case nodup =>
    rw [hregistry]
    exact h.nodup.filter _
  case bound =>
    intro j hj
    rw [hregistry] at hj
    rw [htable.length]
    exact h.bound j (List.mem_filter.mp hj).1
  case yielded => exact Nat.le_refl _
  case lane =>
    intro j q
    rw [List.drop_length, List.filter_nil]
    exact h.drain_empties j q
  case drained =>
    intro j q
    have hmove : (drainInto c.world c.drained).2.get q =
        c.drained.get q ++ LogCollector.drained q ((detach c.world).2.map Prod.snd) := by
      rw [drainInto, moveDetached_eq]
      cases q <;> rfl
    rw [hmove, List.filter_append, h.drained, h.yield, h.lane, ← List.filter_append,
      List.take_append_drop, List.take_length]
  case output =>
    intro r hr
    have hm := h.held.subset (hperm.subset (List.mem_append_left _ hr))
    obtain ⟨i, hi⟩ := List.mem_iff_getElem?.mp hm
    rw [h.place hi]
    exact (List.getElem?_eq_some_iff.mp hi).1
  case results => exact h.results
  case gauges => exact h.gauges
  case within => exact h.within
  case ticket => exact h.ticket
  case tickets => exact h.tickets
  case held => exact h.held

/-! ## Releases -/

/-- What a lane still holds was accepted after the last drain. -/
theorem Refines.behind {c : Collector L} {t : TwoQueues L} (h : Refines x c t) {r : QueuedLog L}
    (hr : r ∈ laneRecords c.world.lanes) : t.yielded < r.ticket := by
  obtain ⟨lane, hlane, hr⟩ := List.mem_flatMap.mp hr
  obtain ⟨j, hj⟩ := List.mem_iff_getElem?.mp hlane
  have hq : ∀ q, lane.queues.get q = (t.accepted.drop t.yielded).filter (ofLane j q) := fun q => by
    rw [← h.lane j q, queuesAt, hj]
    rfl
  have hm : r ∈ t.accepted.drop t.yielded := by
    have hget : ∃ q, r ∈ lane.queues.get q := by
      rcases List.mem_append.mp hr with hr | hr
      · exact ⟨.reserved, hr⟩
      · exact ⟨.normal, hr⟩
    obtain ⟨q, hr⟩ := hget
    rw [hq q] at hr
    exact (List.mem_filter.mp hr).1
  obtain ⟨i, hi⟩ := List.mem_iff_getElem?.mp hm
  rw [List.getElem?_drop] at hi
  rw [h.place hi]
  omega

/-- Held records have different tickets. -/
theorem Refines.held_nodup {c : Collector L} {t : TwoQueues L} (h : Refines x c t) :
    (t.held.map QueuedLog.ticket).Nodup := by
  have hn : (t.accepted.map QueuedLog.ticket).Nodup := by
    rw [h.tickets]
    exact List.nodup_range'
  exact hn.sublist (h.held.map _)

/-- The records that may be released are those put out. -/
theorem Refines.find_iff {c : Collector L} {t : TwoQueues L} (h : Refines x c t) (ticket : ℕ) :
    (∃ r ∈ c.output.records, r.ticket = ticket) ↔
      ticket ≤ t.yielded ∧ ∃ r ∈ t.held, r.ticket = ticket := by
  constructor
  · rintro ⟨r, hr, rfl⟩
    exact ⟨h.output r hr, r, h.output_held hr, rfl⟩
  · rintro ⟨hle, r, hr, rfl⟩
    refine ⟨r, ?_, rfl⟩
    rcases List.mem_append.mp (h.places.symm.subset hr) with hr | hr
    · exact hr
    · have := h.behind hr
      omega

/-- A release takes the weight of its record off the gauges of its queue. -/
theorem gauge_release (w : World L) (r : QueuedLog L) (m : Measure) (q : QueueKind) :
    gauge (release w r.queue r.bytes) m q =
      if r.queue = q then wrappingSub (gauge w m q) (weight m r) else gauge w m q := by
  by_cases hq : r.queue = q
  · subst hq
    cases m <;>
      simp [QueueAccounting.gauge, release, subDepth, subBytes, setDepth, setBytes, weight]
  · cases m <;>
      simp [QueueAccounting.gauge, release, subDepth, subBytes, setDepth, setBytes, hq, Ne.symm hq]

/-- `release`. -/
theorem Refines.release {c : Collector L} {t : TwoQueues L} (h : Refines x c t) {r : QueuedLog L}
    (hr : r ∈ c.output.records) :
    Refines x
      { c with
        world := release c.world r.queue r.bytes
        output := withoutTicket c.output r.ticket }
      { t with held := t.held.filter fun r' => r'.ticket ≠ r.ticket } := by
  have hsum : ∀ m q, heldIn m q t.held =
      weightIn m q r + heldIn m q (t.held.filter fun r' => r'.ticket ≠ r.ticket) := fun m q => by
    rw [← heldIn_cons]
    exact heldIn_perm (perm_cons_filter h.held_nodup (h.output_held hr)) m q
  have hlanes : (laneRecords c.world.lanes).filter (fun r' => decide (r'.ticket ≠ r.ticket)) =
      laneRecords c.world.lanes := by
    refine List.filter_eq_self.mpr fun r' hr' => ?_
    have hlt := h.behind hr'
    have hle := h.output r hr
    rw [decide_eq_true_eq]
    omega
  have hout : (withoutTicket c.output r.ticket).records =
      c.output.records.filter fun r' => decide (r'.ticket ≠ r.ticket) := by
    rw [LaneQueues.records, LaneQueues.records, List.filter_append]
    rfl
  exact
    { h with
      gauges := fun m q => by
        rw [gauge_release, h.gauges m q]
        dsimp only
        have hs := hsum m q
        have hword := (h.within m q).trans (limit_le x m q)
        split
        · rename_i hq
          have hw : weightIn m q r = weight m r := if_pos hq
          rw [wrappingSub_of_le (by omega) hword]
          omega
        · rename_i hq
          have hw : weightIn m q r = 0 := if_neg hq
          omega
      within := fun m q => by
        have hs := hsum m q
        have := h.within m q
        dsimp only
        omega
      held := List.filter_sublist.trans h.held
      places := by
        dsimp only
        rw [hout]
        have hp := h.places.filter fun r' => decide (r'.ticket ≠ r.ticket)
        rwa [List.filter_append, hlanes] at hp
      output := fun r' hr' => by
        rw [hout] at hr'
        exact h.output r' (List.mem_filter.mp hr').1 }

/-! ## Every sequence of calls -/

/-- One call. -/
theorem Refines.call (c : Collector L) (t : TwoQueues L) (a : Call L) (h : Refines x c t) :
    Option.Rel (Refines x) (call x c a) (specify x t a) := by
  cases a with
  | register => exact .some h.register
  | submit j log priority => exact h.submit j log priority
  | close j =>
    simp only [SequentialAdmission.call, specify]
    have hlen : t.closed.length = c.world.lanes.length := by rw [← h.closed, List.length_map]
    cases hl : c.world.lanes[j]? with
    | none =>
      have hno : ¬ j < t.closed.length := by
        rw [hlen]
        exact Nat.not_lt.mpr (List.getElem?_eq_none_iff.mp hl)
      rw [if_neg hno]
      exact .none
    | some lane =>
      have hlt : j < t.closed.length := by
        rw [hlen]
        exact (List.getElem?_eq_some_iff.mp hl).1
      rw [if_pos hlt]
      exact .some (h.close hl)
  | drain => exact .some h.drain
  | release ticket =>
    simp only [SequentialAdmission.call, specify]
    cases hf : c.output.records.find? fun r => decide (r.ticket = ticket) with
    | none =>
      have hno : ¬ (ticket ≤ t.yielded ∧ ∃ r ∈ t.held, r.ticket = ticket) := fun hs => by
        obtain ⟨r, hr, he⟩ := (h.find_iff ticket).mpr hs
        exact List.find?_eq_none.mp hf r hr (decide_eq_true he)
      rw [if_neg hno]
      exact .none
    | some r =>
      have hr := List.mem_of_find?_eq_some hf
      have he : r.ticket = ticket := by simpa using List.find?_some hf
      subst he
      rw [if_pos ((h.find_iff r.ticket).mp ⟨r, hr, rfl⟩)]
      exact .some (h.release hr)

/-- Fresh collectors. -/
theorem Refines.new (x : Exporter L) : Refines x (Collector.new L) (TwoQueues.new L) where
  results := rfl
  gauges := fun m q => by cases m <;> cases q <;> rfl
  within := fun m q => Nat.zero_le _
  ticket := rfl
  tickets := rfl
  held := List.Sublist.refl _
  places := List.Perm.refl _
  closed := rfl
  spare := fun lane hl => by cases hl
  registered := fun hl => by cases hl
  nodup := List.nodup_nil
  bound := fun j hj => by cases hj
  yielded := Nat.le_refl _
  lane := fun j q => by cases q <;> rfl
  drained := fun j q => by cases q <;> rfl
  output := fun r hr => by cases hr

/-- A defined result corresponds to a state of the specification. -/
theorem rel_some {o : Option (Collector L)} {o' : Option (TwoQueues L)} {c : Collector L}
    (ho : o = some c) (h : Option.Rel (Refines x) o o') : ∃ t, Refines x c t := by
  subst ho
  cases h with
  | some h => exact ⟨_, h⟩

/-- Whatever is called in whatever order, the collector answers and holds what
the two queues do: both admit the sequence or neither does, and the states
correspond. A refused submission changes nothing. -/
theorem admission_refines (x : Exporter L) (calls : List (Call L)) :
    Option.Rel (Refines x) (replay (call x) noCheck (Collector.new L) calls)
        (replay (specify x) noCheck (TwoQueues.new L) calls) ∧
      ∀ c, replay (call x) noCheck (Collector.new L) calls = some c →
        ∀ (j : ℕ) (lane : ProducerLane L) (log : L) (priority : Bool),
          (submitToLane x c.world j lane log priority).1 ≠ .accepted →
            (submitToLane x c.world j lane log priority).2 = c.world := by
  have hrel : Option.Rel (Refines x) (replay (call x) noCheck (Collector.new L) calls)
      (replay (specify x) noCheck (TwoQueues.new L) calls) :=
    replay_rel (fun c t a => Refines.call c t a) (Refines.new x) calls
  refine ⟨hrel, fun c hc j lane log priority hno => ?_⟩
  obtain ⟨t, h⟩ := rel_some hc hrel
  unfold submitToLane at hno ⊢
  rcases h.claimEither (min (x.estimatedSizeBytes log) wordMax) priority with
    ⟨q, -, -, -, ha⟩ | ⟨f, -, -, ha⟩
  · simp only [ha] at hno
    exact absurd rfl hno
  · simp only [ha]

/-- A lane that fills most of the normal queue's bytes. -/
def fillingCalls : List (Call ℕ) := [.register, .submit 0 600 false, .submit 0 500 false]

/-- Whether a further submission of five hundred bytes is refused for bytes. -/
def refusesMore (c : Collector ℕ) : Bool :=
  decide (c.results = [.accepted, .byteCapacity]) &&
    (c.world.lanes[0]?).any fun lane =>
      decide ((submitToLane sample c.world 0 lane 500 false).1 = .byteCapacity)

/-- After six hundred bytes of a thousand, five hundred more are refused and
leave the collector as it was. -/
theorem admission_refines_filled : ∃ (c : Collector ℕ) (t : TwoQueues ℕ) (lane : ProducerLane ℕ),
    replay (call sample) noCheck (Collector.new ℕ) fillingCalls = some c ∧ Refines sample c t ∧
      t.results = [.accepted, .byteCapacity] ∧ c.world.lanes[0]? = some lane ∧
      (submitToLane sample c.world 0 lane 500 false).2 = c.world := by
  have hp : (replay (call sample) noCheck (Collector.new ℕ) fillingCalls).any refusesMore = true :=
    by decide +kernel
  obtain ⟨c, hc, hp⟩ := (Option.any_eq_true _ _).mp hp
  rw [refusesMore, Bool.and_eq_true] at hp
  obtain ⟨lane, hl, hno⟩ := (Option.any_eq_true _ _).mp hp.2
  obtain ⟨hrel, hkeep⟩ := admission_refines sample fillingCalls
  obtain ⟨t, ht⟩ := rel_some hc hrel
  have hrefused := of_decide_eq_true hno
  refine ⟨c, t, lane, hc, ht, ht.results.symm.trans (of_decide_eq_true hp.1), hl, ?_⟩
  exact hkeep c hc 0 lane 500 false (by rw [hrefused]; decide)

end EdenLogger.AdmissionRefinement
