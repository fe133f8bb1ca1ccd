import EdenLogger.SequentialAdmission

/-!
# Admission as a plain two-queue specification

Each queue has slots and bytes, a record takes both of one queue, and releasing
it gives them back. What is accepted is numbered from one, and a drain puts
out, lane by lane and kind by kind, what was accepted. The collector's
functions, one at a time, do this and nothing else.
-/

namespace EdenLogger.AdmissionRefinement

open MachineWord WakeUpPermit ExporterLanes LogCollector GenerationState GenerationStep
open GenerationMoves ListCells LaneTable RecordFlow CapacityAccount QueueAccounting
open SequentialAdmission RunRules

variable {L : Type} {x : Exporter L}

/-! ## The specification -/

/-- Two bounded queues. -/
structure TwoQueues (L : Type) where
  /-- Accepted records, in order. -/
  accepted : List (QueuedLog L)
  /-- Accepted records that are not released. -/
  held : List (QueuedLog L)
  /-- How many of the accepted records the drains have put out. -/
  yielded : ℕ
  /-- For each lane, whether its thread has exited. -/
  closed : List Bool
  /-- Results of the submissions, in order. -/
  results : List SubmitResult

/-- Nothing accepted. -/
def TwoQueues.new (L : Type) : TwoQueues L := ⟨[], [], 0, [], []⟩

/-- Whether a queue has enough free bytes. -/
def hasBytes (x : Exporter L) (t : TwoQueues L) (q : QueueKind) (bytes : ℕ) : Prop :=
  heldIn .bytes q t.held + bytes ≤ byteCapacity x q

/-- Whether a queue has a free slot. -/
def hasSlot (x : Exporter L) (t : TwoQueues L) (q : QueueKind) : Prop :=
  heldIn .records q t.held < capacity x q

instance (x : Exporter L) (t : TwoQueues L) (q : QueueKind) (bytes : ℕ) :
    Decidable (hasBytes x t q bytes) := by
  unfold hasBytes
  infer_instance

instance (x : Exporter L) (t : TwoQueues L) (q : QueueKind) : Decidable (hasSlot x t q) := by
  unfold hasSlot
  infer_instance

/-- The queue that accepts a record: normal if it has room, otherwise reserved
if the record has priority and reserved has room. -/
def chosen (x : Exporter L) (t : TwoQueues L) (bytes : ℕ) (priority : Bool) : Option QueueKind :=
  if hasSlot x t .normal ∧ hasBytes x t .normal bytes then some .normal
  else if priority ∧ hasSlot x t .reserved ∧ hasBytes x t .reserved bytes then some .reserved
  else none

/-- Why a record is refused: for bytes if some queue tried lacked them. -/
def refusal (x : Exporter L) (t : TwoQueues L) (bytes : ℕ) (priority : Bool) : SubmitResult :=
  if ¬ hasBytes x t .normal bytes ∨ priority ∧ ¬ hasBytes x t .reserved bytes then .byteCapacity
  else .recordCapacity

/-- Accept a record or refuse it. -/
def TwoQueues.submit (x : Exporter L) (t : TwoQueues L) (j : ℕ) (log : L) (priority : Bool) :
    TwoQueues L :=
  let bytes := min (x.estimatedSizeBytes log) wordMax
  match chosen x t bytes priority with
  | some q =>
    let r : QueuedLog L := ⟨log, q, bytes, t.accepted.length + 1, j⟩
    { t with
      accepted := t.accepted ++ [r]
      held := t.held ++ [r]
      results := t.results ++ [.accepted] }
  | none => { t with results := t.results ++ [refusal x t bytes priority] }

/-- One call of the specification. -/
def specify (x : Exporter L) (t : TwoQueues L) : Call L → Option (TwoQueues L)
  | .register => some { t with closed := t.closed ++ [false] }
  | .submit j log priority =>
    if t.closed[j]? = some false ∧ t.accepted.length < wordMax then some (t.submit x j log priority)
    else none
  | .close j =>
    if j < t.closed.length then some { t with closed := t.closed.set j true } else none
  | .drain => some { t with yielded := t.accepted.length }
  | .release ticket =>
    if ticket ≤ t.yielded ∧ ∃ r ∈ t.held, r.ticket = ticket then
      some { t with held := t.held.filter fun r => r.ticket ≠ ticket }
    else none

/-! ## Claims without contention -/

/-- On a counter within its capacity a claim adds its amount if it fits, and
changes nothing otherwise. -/
theorem claimCounter_eq {depth capacity : ℕ} (amount : ℕ) (h : depth ≤ capacity)
    (hcap : capacity ≤ wordMax) :
    claimCounter depth capacity amount =
      if depth + amount ≤ capacity then (true, depth + amount) else (false, depth) := by
  have hsize : size = wordMax + 1 := by decide
  unfold claimCounter claimAmount
  split
  · rename_i hc
    rw [if_neg]
    intro hle
    split_ifs at hc <;> omega
  · rename_i n hc
    have hg := granted_fits hcap (show claimAmount depth capacity amount = .granted n from hc)
    rw [if_pos hg.2, hg.1]
  · rename_i n hc
    have ho : claimAmount depth capacity amount = .overshot n := hc
    obtain ⟨hle, hsmall⟩ := small_of_overshot ho
    have hn := counter_of_overshot ho
    have hno : ¬ depth + amount ≤ capacity := fun hle' => by
      split_ifs at hc
      omega
    rw [if_neg hno, hn, wrappingAdd, Nat.mod_eq_of_lt (by omega),
      wrappingSub_of_le (by omega) (by omega), Nat.add_sub_cancel]

/-- Writing a value back changes nothing. -/
theorem set_get_self {α : Type*} (v : PerQueue α) (q : QueueKind) : v.set q (v.get q) = v := by
  cases q <;> rfl

theorem setBytes_self (w : World L) (q : QueueKind) :
    setBytes w q (w.metrics.queueBytes.get q) = w := by
  simp only [setBytes, set_get_self]

theorem setDepth_self (w : World L) (q : QueueKind) :
    setDepth w q (w.metrics.queueDepth.get q) = w := by
  simp only [setDepth, set_get_self]

/-- Bytes claimed and given back change nothing. -/
theorem subBytes_setBytes {w : World L} {q : QueueKind} {bytes : ℕ}
    (h : w.metrics.queueBytes.get q + bytes ≤ wordMax) :
    subBytes (setBytes w q (w.metrics.queueBytes.get q + bytes)) q bytes = w := by
  simp only [subBytes, setBytes, PerQueue.get_set_self, wrappingSub_of_le (Nat.le_add_left _ _) h,
    Nat.add_sub_cancel]
  cases q <;> rfl

/-- The gauges are within their capacities. -/
def Within (x : Exporter L) (w : World L) : Prop := ∀ m q, gauge w m q ≤ limit x m q

/-- A claim on a queue takes bytes and a slot if both fit, and changes nothing
otherwise. -/
theorem claimQueue_eq {w : World L} (h : Within x w) (q : QueueKind) (bytes : ℕ) :
    claimQueue x w q bytes =
      if ¬ w.metrics.queueBytes.get q + bytes ≤ byteCapacity x q then (some .bytes, w)
      else if ¬ w.metrics.queueDepth.get q < capacity x q then (some .records, w)
      else (none, setDepth (setBytes w q (w.metrics.queueBytes.get q + bytes)) q
        (w.metrics.queueDepth.get q + 1)) := by
  have hb : w.metrics.queueBytes.get q ≤ byteCapacity x q := h .bytes q
  have hd : w.metrics.queueDepth.get q ≤ capacity x q := h .records q
  have hbw : byteCapacity x q ≤ wordMax := limit_le x .bytes q
  unfold claimQueue
  rw [claimCounter_eq bytes hb hbw, claimCounter_eq 1 hd (limit_le x .records q)]
  by_cases hfit : w.metrics.queueBytes.get q + bytes ≤ byteCapacity x q
  · by_cases hslot : w.metrics.queueDepth.get q < capacity x q
    · simp [hfit, hslot, Nat.succ_le_of_lt hslot]
    · have hno : ¬ w.metrics.queueDepth.get q + 1 ≤ capacity x q := by omega
      have hback := setDepth_self (setBytes w q (w.metrics.queueBytes.get q + bytes)) q
      have hsame : (setBytes w q (w.metrics.queueBytes.get q + bytes)).metrics.queueDepth.get q =
          w.metrics.queueDepth.get q := rfl
      rw [hsame] at hback
      simp [hfit, hslot, hno, hback, subBytes_setBytes (hfit.trans hbw)]
  · simp [hfit, setBytes_self]

/-! ## The refinement -/

/-- The queues of a lane, empty ones if there is no such lane. -/
def queuesAt (lanes : List (ProducerLane L)) (j : ℕ) : LaneQueues L :=
  ((lanes[j]?).map ProducerLane.queues).getD .new

/-- The records of a lane and a kind. -/
def ofLane (j : ℕ) (q : QueueKind) (r : QueuedLog L) : Bool := decide (r.producer = j ∧ r.queue = q)

/-- The collector's state stands for a state of the specification. -/
structure Refines (x : Exporter L) (c : Collector L) (t : TwoQueues L) : Prop where
  /-- The same answers were given. -/
  results : c.results = t.results
  /-- A gauge is what the queue holds. -/
  gauges : ∀ m q, gauge c.world m q = heldIn m q t.held
  /-- No queue holds more than it may. -/
  within : ∀ m q, heldIn m q t.held ≤ limit x m q
  /-- The ticket counter counts the accepted records. -/
  ticket : c.world.nextTicket = t.accepted.length
  /-- Tickets number the accepted records from one. -/
  tickets : t.accepted.map QueuedLog.ticket = List.range' 1 t.accepted.length
  /-- Held records are accepted. -/
  held : t.held.Sublist t.accepted
  /-- The held records are in the lanes or put out. -/
  places : (c.output.records ++ laneRecords c.world.lanes).Perm t.held
  /-- Closed lanes are those whose threads have exited. -/
  closed : c.world.lanes.map ProducerLane.closed = t.closed
  /-- No spare pair holds a record. -/
  spare : ∀ lane ∈ c.world.lanes, SpareEmpty lane
  /-- A lane in use or with records is registered. -/
  registered : ∀ {j : ℕ} {lane : ProducerLane L}, c.world.lanes[j]? = some lane →
    lane.closed = false ∨ lane.queues.records ≠ [] → j ∈ c.world.registry.lanes
  /-- No lane is registered twice. -/
  nodup : c.world.registry.lanes.Nodup
  /-- Registered lanes exist. -/
  bound : ∀ j ∈ c.world.registry.lanes, j < c.world.lanes.length
  /-- Drains yield accepted records. -/
  yielded : t.yielded ≤ t.accepted.length
  /-- A lane holds what its thread had accepted since the last drain. -/
  lane : ∀ j q, (queuesAt c.world.lanes j).get q =
    (t.accepted.drop t.yielded).filter (ofLane j q)
  /-- The drains put out, lane by lane and kind by kind, what was accepted. -/
  drained : ∀ j q, (c.drained.get q).filter (fun r => decide (r.producer = j)) =
    (t.accepted.take t.yielded).filter (ofLane j q)
  /-- The unreleased part of what was put out. -/
  output : ∀ r ∈ c.output.records, r.ticket ≤ t.yielded

theorem Refines.admissible {c : Collector L} {t : TwoQueues L} (h : Refines x c t) :
    Within x c.world := fun m q => (h.gauges m q).trans_le (h.within m q)

/-- Take bytes and a slot of a queue. -/
def charge (w : World L) (q : QueueKind) (bytes : ℕ) : World L :=
  setDepth (setBytes w q (w.metrics.queueBytes.get q + bytes)) q (w.metrics.queueDepth.get q + 1)

/-- A claim on a queue as the specification sees it. -/
theorem Refines.claimQueue {c : Collector L} {t : TwoQueues L} (h : Refines x c t) (q : QueueKind)
    (bytes : ℕ) : claimQueue x c.world q bytes =
      if ¬ hasBytes x t q bytes then (some .bytes, c.world)
      else if ¬ hasSlot x t q then (some .records, c.world)
      else (none, charge c.world q bytes) := by
  have hb : c.world.metrics.queueBytes.get q = heldIn .bytes q t.held := h.gauges .bytes q
  have hd : c.world.metrics.queueDepth.get q = heldIn .records q t.held := h.gauges .records q
  rw [claimQueue_eq h.admissible]
  simp only [hasBytes, hasSlot, charge, hb, hd]

/-- The two queues' decisions are those of the specification. -/
theorem Refines.claimEither {c : Collector L} {t : TwoQueues L} (h : Refines x c t) (bytes : ℕ)
    (priority : Bool) :
    (∃ q, chosen x t bytes priority = some q ∧ hasSlot x t q ∧ hasBytes x t q bytes ∧
      claimEither x c.world bytes priority = (.ok q, charge c.world q bytes)) ∨
    (∃ f, chosen x t bytes priority = none ∧ submitResult f = refusal x t bytes priority ∧
      claimEither x c.world bytes priority = (.error f, c.world)) := by
  have hr := h.claimQueue .reserved bytes
  unfold SequentialAdmission.claimEither chosen refusal
  rw [h.claimQueue]
  by_cases hb : hasBytes x t .normal bytes
  · by_cases hs : hasSlot x t .normal
    · simp [hb, hs]
    · cases priority
      · simp [hb, hs, submitResult]
      · by_cases hb' : hasBytes x t .reserved bytes <;> by_cases hs' : hasSlot x t .reserved <;>
          simp [hb, hs, hb', hs', hr, ClaimFailure.combine, submitResult]
  · cases priority
    · simp [hb, submitResult]
    · by_cases hb' : hasBytes x t .reserved bytes <;> by_cases hs' : hasSlot x t .reserved <;>
        simp [hb, hb', hs', hr, ClaimFailure.combine, submitResult]

/-! ## Submissions -/

section PushAccepted

variable (w : World L) (j : ℕ) (lane : ProducerLane L) (r : QueuedLog L)

@[simp] theorem pushAccepted_lanes :
    (pushAccepted w j lane r).lanes = w.lanes.set j (lane.push r).2 := by
  unfold pushAccepted
  split <;> rfl

@[simp] theorem pushAccepted_registry : (pushAccepted w j lane r).registry = w.registry := by
  unfold pushAccepted
  split <;> rfl

@[simp] theorem pushAccepted_metrics : (pushAccepted w j lane r).metrics = w.metrics := by
  unfold pushAccepted
  split <;> rfl

@[simp] theorem pushAccepted_ticket :
    (pushAccepted w j lane r).nextTicket = w.nextTicket + 1 := by
  unfold pushAccepted
  split <;> rfl

end PushAccepted

/-- The charge of a record is its weight on the gauges of its queue. -/
theorem gauge_charge (w : World L) (r : QueuedLog L) (m : Measure) (q : QueueKind) :
    gauge (charge w r.queue r.bytes) m q = gauge w m q + weightIn m q r := by
  by_cases hq : q = r.queue
  · subst hq
    cases m <;> simp [QueueAccounting.gauge, charge, setDepth, setBytes, weightIn, weight]
  · cases m <;> simp [QueueAccounting.gauge, charge, setDepth, setBytes, weightIn, hq, Ne.symm hq]

/-- A push appends its record to its lane and kind. -/
theorem queuesAt_push {lanes : List (ProducerLane L)} {lane : ProducerLane L} {r : QueuedLog L}
    (hl : lanes[r.producer]? = some lane) (i : ℕ) (q : QueueKind) :
    (queuesAt (lanes.set r.producer (lane.push r).2) i).get q =
      (queuesAt lanes i).get q ++ [r].filter (ofLane i q) := by
  have hlt := (List.getElem?_eq_some_iff.mp hl).1
  by_cases hi : i = r.producer
  · subst hi
    rw [queuesAt, queuesAt, List.getElem?_set_self hlt, hl]
    by_cases hq : q = r.queue
    · subst hq
      simp [ProducerLane.push, ofLane]
    · simp [ProducerLane.push, ofLane, hq, Ne.symm hq]
  · simp [queuesAt, List.getElem?_set_ne (Ne.symm hi), ofLane, Ne.symm hi]

/-- A table whose replaced lane keeps its flag has the same flags. -/
theorem closed_set {lanes : List (ProducerLane L)} {j : ℕ} {lane : ProducerLane L}
    (hl : lanes[j]? = some lane) (lane' : ProducerLane L) (h : lane'.closed = lane.closed) :
    (lanes.set j lane').map ProducerLane.closed = lanes.map ProducerLane.closed := by
  rw [List.map_set, h]
  exact set_self (by rw [List.getElem?_map, hl]; rfl)

/-- Accepting a record. -/
theorem Refines.accept {c : Collector L} {t : TwoQueues L} (h : Refines x c t) {r : QueuedLog L}
    {lane : ProducerLane L} (hl : c.world.lanes[r.producer]? = some lane)
    (hopen : lane.closed = false) (hticket : r.ticket = t.accepted.length + 1)
    (hs : hasSlot x t r.queue) (hb : hasBytes x t r.queue r.bytes) :
    Refines x
      { c with
        world := pushAccepted (charge c.world r.queue r.bytes) r.producer lane r
        results := c.results ++ [.accepted] }
      { t with
        accepted := t.accepted ++ [r]
        held := t.held ++ [r]
        results := t.results ++ [.accepted] } := by
  have hheld : ∀ m q, heldIn m q (t.held ++ [r]) = heldIn m q t.held + weightIn m q r :=
    fun m q => by simp [heldIn]
  constructor
  case results => simp only [h.results]
  case gauges =>
    intro m q
    have hg : gauge (pushAccepted (charge c.world r.queue r.bytes) r.producer lane r) m q =
        gauge (charge c.world r.queue r.bytes) m q := by
      cases m <;> simp [QueueAccounting.gauge]
    rw [hg, gauge_charge, hheld, h.gauges]
  case within =>
    intro m q
    rw [hheld]
    by_cases hq : r.queue = q
    · subst hq
      cases m with
      | records =>
        have hslot : heldIn .records r.queue t.held < limit x .records r.queue := hs
        simp only [weightIn, weight, if_true]
        omega
      | bytes =>
        have hfit : heldIn .bytes r.queue t.held + r.bytes ≤ limit x .bytes r.queue := hb
        simpa only [weightIn, weight, if_true] using hfit
    · simpa only [weightIn, if_neg hq, Nat.add_zero] using h.within m q
  case ticket =>
    simp only [pushAccepted_ticket, List.length_append, List.length_singleton]
    exact congrArg (· + 1) h.ticket
  case tickets =>
    simp only [List.map_append, h.tickets, List.map_singleton, List.length_append,
      List.length_singleton, List.range'_concat, hticket]
    simp [Nat.add_comm]
  case held => exact h.held.append (List.Sublist.refl _)
  case places =>
    rw [pushAccepted_lanes]
    have hp := (laneRecords_push hl r).append_left c.output.records
    refine hp.trans (List.perm_middle.trans ?_)
    exact (h.places.cons r).trans (List.perm_append_singleton r t.held).symm
  case closed =>
    rw [pushAccepted_lanes]
    exact (closed_set hl (lane.push r).2 rfl).trans h.closed
  case spare =>
    rw [pushAccepted_lanes]
    exact forall_mem_set h.spare (h.spare lane (List.mem_of_getElem? hl))
  case registered =>
    intro j lane' hj hu
    rw [pushAccepted_lanes] at hj
    rw [pushAccepted_registry]
    rcases cell_of_set hj with ⟨rfl, rfl⟩ | ⟨-, hj⟩
    · exact h.registered hl (Or.inl hopen)
    · exact h.registered hj hu
  case nodup =>
    rw [pushAccepted_registry]
    exact h.nodup
  case bound =>
    rw [pushAccepted_registry, pushAccepted_lanes, List.length_set]
    exact h.bound
  case yielded =>
    rw [List.length_append]
    exact Nat.le_add_right_of_le h.yielded
  case lane =>
    intro j q
    rw [pushAccepted_lanes, List.drop_append_of_le_length h.yielded, List.filter_append,
      ← h.lane]
    exact queuesAt_push hl j q
  case drained =>
    intro j q
    rw [List.take_append_of_le_length h.yielded]
    exact h.drained j q
  case output => exact h.output

/-- Whether a lane is open, by the collector and by the specification. -/
theorem Refines.open_iff {c : Collector L} {t : TwoQueues L} (h : Refines x c t) {j : ℕ}
    {lane : ProducerLane L} (hl : c.world.lanes[j]? = some lane) :
    t.closed[j]? = some lane.closed := by
  rw [← h.closed, List.getElem?_map, hl]
  rfl

/-- A submission. -/
theorem Refines.submit {c : Collector L} {t : TwoQueues L} (h : Refines x c t) (j : ℕ) (log : L)
    (priority : Bool) :
    Option.Rel (Refines x) (call x c (.submit j log priority))
      (specify x t (.submit j log priority)) := by
  simp only [call, specify]
  cases hl : c.world.lanes[j]? with
  | none =>
    have hno : t.closed[j]? = none := by
      rw [← h.closed, List.getElem?_map, hl]
      rfl
    simp only [hno, Option.bind_none]
    exact .none
  | some lane =>
    simp only [h.open_iff hl, Option.bind_some, Option.some.injEq, h.ticket]
    split
    · rename_i hc
      refine .some ?_
      unfold submitToLane TwoQueues.submit
      rcases h.claimEither (min (x.estimatedSizeBytes log) wordMax) priority with
        ⟨q, hq, hs, hb, ha⟩ | ⟨f, hq, hf, ha⟩
      · have hn : (charge c.world q (min (x.estimatedSizeBytes log) wordMax)).nextTicket =
            t.accepted.length := h.ticket
        simp only [hq, ha, hn]
        exact h.accept (r := ⟨log, q, _, _, j⟩) hl hc.1 rfl hs hb
      · simp only [hq, ha, hf]
        exact { h with results := by rw [h.results] }
    · exact .none

/-! ## Lanes that come and go -/

/-- A table whose lanes were each changed as the worker may has the same flags. -/
theorem closed_table {lanes lanes' : List (ProducerLane L)} (h : TableStep lanes lanes') :
    lanes'.map ProducerLane.closed = lanes.map ProducerLane.closed := by
  refine List.ext_getElem? fun j => ?_
  rw [List.getElem?_map, List.getElem?_map]
  cases hj : lanes'[j]? with
  | none =>
    have hlen := List.getElem?_eq_none_iff.mp hj
    rw [h.length] at hlen
    rw [List.getElem?_eq_none_iff.mpr hlen]
  | some lane' =>
    obtain ⟨lane, hl, hs⟩ := h.lane hj
    rw [hl, Option.map_some, Option.map_some, hs.closed]

/-- Registering a lane. -/
theorem Refines.register {c : Collector L} {t : TwoQueues L} (h : Refines x c t) :
    Refines x { c with world := registerLane c.world }
      { t with closed := t.closed ++ [false] } := by
  have hq : ∀ j, queuesAt (registerLane c.world).lanes j = queuesAt c.world.lanes j := by
    intro j
    have hn : (registerLane c.world).lanes = c.world.lanes ++ [.new] := rfl
    rw [hn, queuesAt, queuesAt]
    rcases Nat.lt_trichotomy j c.world.lanes.length with hj | rfl | hj
    · rw [List.getElem?_append_left hj]
    · simp [ProducerLane.new]
    · have hlen : (c.world.lanes ++ [ProducerLane.new]).length ≤ j := by
        rw [List.length_append, List.length_singleton]
        exact hj
      rw [List.getElem?_eq_none hlen, List.getElem?_eq_none hj.le]
  constructor
  case places => rw [laneRecords_register]; exact h.places
  case closed => simp [registerLane, h.closed, ProducerLane.new]
  case spare =>
    intro lane hl
    rcases List.mem_append.mp hl with hl | hl
    · exact h.spare lane hl
    · rw [List.mem_singleton.mp hl]
      intro queues hn
      cases hn
  case registered =>
    intro j lane hj hu
    rcases cell_of_append hj with hj | ⟨rfl, -⟩
    · exact List.mem_append_left _ (h.registered hj hu)
    · exact List.mem_append_right _ List.mem_cons_self
  case nodup =>
    refine h.nodup.append (List.nodup_singleton _) ?_
    intro j hj hn
    have := h.bound j hj
    rw [List.mem_singleton.mp hn] at this
    exact Nat.lt_irrefl _ this
  case bound =>
    intro j hj
    simp only [registerLane, List.length_append, List.length_singleton]
    rcases List.mem_append.mp hj with hj | hj
    · exact Nat.lt_succ_of_lt (h.bound j hj)
    · rw [List.mem_singleton.mp hj]
      exact Nat.lt_succ_self _
  case lane => intro j q; rw [hq]; exact h.lane j q
  case results => exact h.results
  case gauges => exact h.gauges
  case within => exact h.within
  case ticket => exact h.ticket
  case tickets => exact h.tickets
  case held => exact h.held
  case yielded => exact h.yielded
  case drained => exact h.drained
  case output => exact h.output

/-- A thread's exit. -/
theorem Refines.close {c : Collector L} {t : TwoQueues L} (h : Refines x c t) {j : ℕ}
    {lane : ProducerLane L} (hl : c.world.lanes[j]? = some lane) :
    Refines x
      { c with world := { c.world with
          lanes := c.world.lanes.set j { lane with closed := true } } }
      { t with closed := t.closed.set j true } := by
  have hlt := (List.getElem?_eq_some_iff.mp hl).1
  have hq : ∀ i, queuesAt (c.world.lanes.set j { lane with closed := true }) i =
      queuesAt c.world.lanes i := by
    intro i
    rw [queuesAt, queuesAt]
    by_cases hi : i = j
    · rw [hi, List.getElem?_set_self hlt, hl]
      rfl
    · rw [List.getElem?_set_ne (Ne.symm hi)]
  have hr : laneRecords (c.world.lanes.set j { lane with closed := true }) =
      laneRecords c.world.lanes :=
    flatMap_set_eq (fun l : ProducerLane L => l.queues.records) hl rfl
  exact
    { h with
      places := by rw [hr]; exact h.places
      closed := by rw [List.map_set, h.closed]
      spare := forall_mem_set h.spare (h.spare lane (List.mem_of_getElem? hl))
      registered := fun {i lane'} hi hu => by
        rcases cell_of_set hi with ⟨rfl, rfl⟩ | ⟨-, hi⟩
        · rcases hu with hu | hu
          · cases hu
          · exact h.registered hl (Or.inr hu)
        · exact h.registered hi hu
      bound := by rw [List.length_set]; exact h.bound
      lane := fun i q => by rw [hq]; exact h.lane i q }

end EdenLogger.AdmissionRefinement
