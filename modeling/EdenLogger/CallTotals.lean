import EdenLogger.BatchLimits
import EdenLogger.QueueAccounting
import EdenLogger.ReceiveSites

/-!
# Totals of a generation

Every call of the callback is counted once: as filtered, as refused for one of
three reasons, or as accepted by a ticket. A call that two queues refuse counts
as one refusal. What was accepted and is not completed is in memory: on the way
to a lane, queued, or with the worker. The queues' capacities bound the first
two. The worker holds no more than one batch, since it looks for a record only
with room in its batch and with nothing carried over.
-/

namespace EdenLogger.CallTotals

open MachineWord ExporterConfig ExporterLanes LogCollector GenerationState GenerationStep
open GenerationMoves GenerationFrames ListCells RecordFlow BatchLimits ReceiveSites
open CapacityAccount QueueAccounting RunRules

variable {L : Type} {x : Exporter L} {s s' : State L} {a : Action L}

/-! ## Calls -/

/-- Whether a thread's call is not counted yet. -/
def undecided (p : Producer L) : ℕ :=
  match p.pc with
  | .entered _ | .resolve _ | .claimBytes _ _ | .undoBytes _ _ | .claimDepth _ _ | .undoDepth _ _
  | .returnBytes _ _ | .takeTicket _ _ | .refused _ => 1
  | _ => 0

/-- Calls that are not counted yet. -/
def undecidedIn (threads : List (Producer L)) : ℕ := (threads.map undecided).sum

/-- Calls counted, by any counter. -/
def counted (w : World L) : ℕ :=
  w.metrics.filtered + w.metrics.droppedStopped + w.metrics.droppedQueueFull +
    w.metrics.droppedQueueBytesFull + w.nextTicket

/-- What the 64-bit counters show of the counted calls. The refusals wrap, the tickets do not. -/
def shown (w : World L) : ℕ :=
  w.metrics.filtered % size + w.metrics.droppedStopped % size +
    w.metrics.droppedQueueFull % size + w.metrics.droppedQueueBytesFull % size + w.nextTicket

/-- The monitor counts the calls that enter the callback. -/
def countCalls (_ : State L) (a : Action L) (_ : State L) (n : ℕ) : ℕ :=
  match a with
  | .enter _ _ => n + 1
  | _ => n

/-- The steps of a generation, with a count of the calls. -/
abbrev callingStep (x : Exporter L) := monitored (step x) countCalls

/-- A refused claim is not decided yet: the call goes on to the next queue, or is counted next. -/
theorem undecided_refuse (r : Submission L) (failure : ClaimFailure) (q : QueueKind)
    (lane : Option ℕ) : undecided ⟨refuse r failure q, lane⟩ = 1 := by
  unfold refuse
  cases q with
  | normal => cases r.priority <;> rfl
  | reserved => rfl

/-- A step of a thread counts its call, or leaves it as it was. -/
theorem producer_counted {i : ℕ} {w w' : World L} {p p' : Producer L}
    (hm : ProducerMove x i w p w' p') : counted w' + undecided p' = counted w + undecided p := by
  cases hm
  case stopped log ha hpc | filtered log ha hf hpc =>
    simp only [counted, undecided, hpc]
    omega
  case bytesRefused hc hpc | undoBytes hpc | returnBytes hpc =>
    rw [undecided_refuse]
    simp only [undecided, hpc, counted, subBytes, setBytes]
  case takeTicket r q hn hpc =>
    simp only [counted, undecided, hpc]
    omega
  case push r q ticket j lane hj hl hpc =>
    have hout : undecided (L := L) ⟨if lane.queues.isEmpty then .notify else .leaving, p.lane⟩ =
        0 := by
      cases lane.queues.isEmpty <;> rfl
    rw [hout]
    simp only [undecided, hpc, counted, pushLane]
  case refused failure hpc =>
    cases failure <;> simp only [counted, undecided, countRefused, hpc] <;> omega
  all_goals
    rename_i hpc
    simp only [undecided, hpc, counted, registerLane, setBytes, setDepth, subDepth, notifyRecords]

/-- The worker counts no call. -/
theorem worker_counted {o : Oracle} {w w' : World L} {k k' : Worker L}
    (hm : WorkerMove x o w k w' k') : counted w' = counted w := by
  cases hm
  case pollReady wait c cells hr hpc | pollNext wait c cells hr hpc => cases c <;> rfl
  case pop site log input hi hpc => simp only [counted, subDepth, setDepth]
  all_goals rfl

/-- A call is undecided between its entry and the step that counts it. -/
theorem undecidedIn_set {threads : List (Producer L)} {i : ℕ} {p : Producer L}
    (hi : threads[i]? = some p) (p' : Producer L) :
    undecidedIn (threads.set i p') + undecided p = undecidedIn threads + undecided p' := by
  obtain ⟨m, hm, hset⟩ := sum_map_split undecided hi
  unfold undecidedIn
  rw [hset, hm]
  omega

/-- Every step keeps the account of calls. -/
theorem calls_step {n : ℕ} (h : n = undecidedIn s.threads + counted s.world)
    (hm : Move x s a s') :
    countCalls s a s' n = undecidedIn s'.threads + counted s'.world := by
  cases hm with
  | spawn =>
    simp only [countCalls, undecidedIn, List.map_append, List.sum_append] at h ⊢
    exact h
  | @enter i log p hi hpc hr =>
    have hset := undecidedIn_set hi { p with pc := .entered log }
    have hidle : undecided p = 0 := by simp only [undecided, hpc]
    have hin : undecided { p with pc := ProducerPc.entered log } = 1 := rfl
    dsimp only [countCalls]
    omega
  | @producer i p p' w' hi hm =>
    have hset := undecidedIn_set hi p'
    have hp := producer_counted hm
    dsimp only [countCalls]
    omega
  | @exit i p hi hpc =>
    have hset := undecidedIn_set hi
      { p with pc := if p.lane.isSome then .closing else .gone }
    have hidle : undecided p = 0 := by simp only [undecided, hpc]
    have hout : undecided (L := L) ⟨if p.lane.isSome then .closing else .gone, p.lane⟩ = 0 := by
      cases p.lane <;> rfl
    dsimp only [countCalls]
    omega
  | worker ha hm =>
    dsimp only [countCalls]
    rw [worker_counted hm]
    exact h
  | flush hj hm =>
    dsimp only [countCalls]
    rw [(flush_world hm).1]
    exact h
  | @control op rest hp hr =>
    dsimp only [countCalls]
    have hw : counted (controlStep s.world s.control op).1 = counted s.world := by
      cases op <;> first | rfl | (simp only [controlStep]; split <;> rfl)
    rw [hw]
    exact h
  | _ => exact h

/-- Wrapped counters show the calls up to the word size. -/
theorem shown_mod (u : ℕ) (w : World L) : (u + shown w) % size = (u + counted w) % size := by
  unfold shown counted size
  omega

/-- Every call of a run is counted once, or is still on its way to be counted.
The wrapped counters show as much up to the word size. -/
theorem calls_accounted {n : ℕ} (h : Reach (callingStep x) (State.init L, 0) (s, n)) :
    n = undecidedIn s.threads + counted s.world ∧
      (undecidedIn s.threads + shown s.world) % size = n % size := by
  have hn : n = undecidedIn s.threads + counted s.world :=
    ReachWhile.invariant (I := fun p => p.2 = undecidedIn p.1.threads + counted p.1.world) rfl
      (fun p q a hp _ hs => by
        obtain ⟨hstep, hcount⟩ := of_monitored hs
        rw [hcount]
        exact calls_step hp (stepMove hstep)) h
  exact ⟨hn, by rw [shown_mod, hn]⟩

/-- Three calls enter: one is accepted, one is too large and one is on its way. -/
theorem calls_accounted_three : ∃ s : State ℕ, undecidedIn s.threads = 1 ∧
    s.world.metrics.droppedQueueBytesFull = 1 ∧ s.world.nextTicket = 1 ∧
    3 = undecidedIn s.threads + counted s.world ∧
    (undecidedIn s.threads + shown s.world) % size = 3 % size := by
  obtain ⟨p, hp, ht⟩ := exists_reach (callingStep sample) (State.init ℕ, 0)
    (.spawn :: submitAlone 0 3 ++ .enter 0 2000 :: producerSteps 0 5 ++ [.enter 0 5])
    (fun p => decide (p.2 = 3 ∧ undecidedIn p.1.threads = 1 ∧
      p.1.world.metrics.droppedQueueBytesFull = 1 ∧ p.1.world.nextTicket = 1)) (by decide +kernel)
  obtain ⟨hn, hu, hd, ha⟩ := of_decide_eq_true ht
  obtain ⟨hall, hshown⟩ := calls_accounted hp
  exact ⟨p.1, hu, hd, ha, hn.symm.trans hall, hn ▸ hshown⟩

/-! ## The worker's records -/

/-- Nothing is completed that was not, and only a pop takes a record from the inbox. -/
theorem worker_taken {o : Oracle} {w w' : World L} {k k' : Worker L}
    (hm : WorkerMove x o w k w' k') :
    w.history.completed.length ≤ w'.history.completed.length ∧
      (w'.history.popped.length = w.history.popped.length ∨
        (∃ site, k.pc = .pop site) ∧ w'.history.popped.length = w.history.popped.length + 1) := by
  cases hm
  case pop site log input hi hpc =>
    exact ⟨Nat.le_refl _, .inr ⟨⟨site, hpc⟩, by simp [subDepth, setDepth]⟩⟩
  case ignored hc hpc | complete hc hpc =>
    exact ⟨by simp, .inl rfl⟩
  case pollReady wait c cells hr hpc | pollNext wait c cells hr hpc =>
    cases c <;> exact ⟨Nat.le_refl _, .inl rfl⟩
  all_goals exact ⟨Nat.le_refl _, .inl rfl⟩

/-- What the worker holds is what it took and has not completed. -/
theorem held_taken (h : ExportLaw s) :
    (holdingTickets s.worker).length + s.world.history.completed.length =
      s.world.history.popped.length := by
  have hlength := List.Perm.length_eq h
  rwa [List.length_append, List.length_map] at hlength

/-- Where the worker pops, a batch has room for one more record. -/
theorem room_of_pop {site : Site} {k : Worker L} (hpos : 0 < x.config.maxBatchRecords)
    (hk : SiteLaw k) (hl : pcLimits x k.pc) (hpc : k.pc = .pop site) :
    (holdingTickets k).length < x.config.maxBatchRecords := by
  have hp : k.pending = [] := hk.pending (by rw [hpc]; rfl)
  rw [hpc] at hl
  simp only [holdingTickets, hpc, held, hp, List.map_nil, List.nil_append, List.append_nil,
    List.length_map]
  cases site with
  | firstDraining | receive | exitCheck => exact hpos
  | nextDraining a | nextPolled a | nextWoken a => exact HasRoom.room hl

/-- The worker holds no more than one batch. -/
theorem load_le (hv : x.config.validate = .ok ()) {ok : State L → Action L → Prop}
    (h : ReachWhile (step x) ok (State.init L) s) :
    (holdingTickets s.worker).length ≤ x.config.maxBatchRecords := by
  obtain ⟨-, -, -, -, hpos, -⟩ := Config.validate_limits hv
  refine invariant_of_moves_using
    (I := fun s => (holdingTickets s.worker).length ≤ x.config.maxBatchRecords)
    (J := fun s => ExportLaw s ∧ SiteLaw s.worker ∧ pcLimits x s.worker.pc)
    (fun _ hr => ⟨exportLaw hr, siteLaw hr, (limitLaw hv hr).worker⟩) (Nat.zero_le _) ?_ h
  rintro s s' a ⟨he, hk, hl⟩ ⟨he', -, -⟩ hi _ hm
  cases hm with
  | worker ha hm =>
    have hbefore := held_taken he
    have hafter := held_taken he'
    obtain ⟨hdone, hpop | ⟨⟨site, hpc⟩, hpop⟩⟩ := worker_taken hm
    · dsimp only at hafter ⊢
      omega
    · have hroom := room_of_pop hpos hk hl hpc
      dsimp only at hafter ⊢
      omega
  | _ => exact hi

/-! ## Records in memory -/

/-- Queued records are those of the two queues. -/
theorem length_eq_held (logs : List (QueuedLog L)) :
    logs.length = heldIn .records .normal logs + heldIn .records .reserved logs := by
  induction logs with
  | nil => rfl
  | cons log logs ih =>
    rw [heldIn_cons, heldIn_cons, List.length_cons, ih]
    cases hq : log.queue <;> simp only [weightIn, weight, hq, reduceIte, reduceCtorEq] <;> omega

/-- A thread with a ticket holds a granted claim. -/
theorem taken_length_le (threads : List (Producer L)) :
    (taken threads).length ≤
      grantedIn .records .normal threads + grantedIn .records .reserved threads := by
  induction threads with
  | nil => exact Nat.le_refl _
  | cons p threads ih =>
    have hp : (ticketOf p).length ≤
        grantedOf .records .normal p + grantedOf .records .reserved p := by
      unfold ticketOf grantedOf
      split
      · rename_i r q ticket hpc
        cases q <;> simp [hpc]
      · exact Nat.zero_le _
    simp only [taken, grantedIn, List.flatMap_cons, List.length_append, List.map_cons,
      List.sum_cons] at ih ⊢
    omega

/-- Nothing is discarded before the gauges are reset. -/
theorem discarded_nil {ok : State L → Action L → Prop}
    (h : ReachWhile (step x) ok (State.init L) s) (hr : s.world.history.gaugesReset = false) :
    s.world.history.discarded = [] := by
  refine invariant_of_moves (I := fun s => s.world.history.gaugesReset = false →
    s.world.history.discarded = []) (fun _ => rfl) ?_ h hr
  intro s s' a hi _ hm hr
  have hprev := hi (gaugesReset_of_move hm hr)
  cases hm with
  | producer hi hm =>
    dsimp only
    rw [(producer_frame hm).history]
    exact hprev
  | worker ha hm =>
    cases hm
    case ledgerClear => cases hr
    case pollReady wait c cells hr hpc | pollNext wait c cells hr hpc => cases c <;> exact hprev
    all_goals exact hprev
  | flush hj hm =>
    dsimp only
    rw [(flush_world hm).1]
    exact hprev
  | @control op rest hp hr' =>
    cases op <;> first | exact hprev | (simp only [controlStep]; split <;> exact hprev)
  | _ => exact hprev

/-- Records in memory: admitted ones on their way to a lane, queued ones, and the worker's. -/
def retained (s : State L) : ℕ :=
  grantedIn .records .normal s.threads + grantedIn .records .reserved s.threads +
    (queued s.world s.worker).length + (holdingTickets s.worker).length

/-- The records that two queues and a batch hold. -/
def retention (x : Exporter L) : ℕ :=
  capacity x .normal + capacity x .reserved + x.config.maxBatchRecords

/-- Until the gauges are reset, no more records are in memory than two queues
and a batch hold, and the accepted ones are completed up to so many. -/
theorem memory_bounded (hv : x.config.validate = .ok ())
    (h : ReachWhile (step x) (NoWrap x) (State.init L) s)
    (hr : s.world.history.gaugesReset = false) :
    retained s ≤ retention x ∧
      s.world.nextTicket ≤ s.world.history.completed.length + retention x := by
  have hnormal := held_le_limit (fun _ _ => id) h hr .records .normal
  have hreserved := held_le_limit (fun _ _ => id) h hr .records .reserved
  have hlength := length_eq_held (queued s.world s.worker)
  have hload := load_le hv h
  have hretained : retained s ≤ retention x := by
    simp only [retained, retention]
    simp only [limit] at hnormal hreserved
    omega
  have hlocated := (conserved h).located_perm.length_eq
  have htaken := taken_length_le s.threads
  simp only [located, discarded_nil h hr, List.map_nil, List.length_append, List.length_map,
    List.length_nil, List.length_range'] at hlocated
  refine ⟨hretained, ?_⟩
  simp only [retained] at hretained
  omega

/-- A generation with room for one record in each queue and in a batch. -/
def snug : Exporter ℕ where
  config := { sampleConfig with
    normalQueueCapacity := 1
    reservedQueueCapacity := 1
    maxBatchRecords := 1
    priorityThreshold := .info }
  level := sample.level
  audience := sample.audience
  estimatedSizeBytes := sample.estimatedSizeBytes
  map := sample.map
  resource := sample.resource
  map_length := sample.map_length
  resource_length := sample.resource_length
  scope_length := sample.scope_length

/-- Whether an optimistic addition of a step fits a word. -/
def wrapCheck (x : Exporter ℕ) (s : State ℕ) (a : Action ℕ) : Bool :=
  match a with
  | .producer i => (s.threads[i]?).all fun p => (asks p).all fun c =>
      decide (Fitting (limit x c.1 c.2.1) (gauge s.world c.1 c.2.1) c.2.2)
  | _ => true

/-- The check means what it says. -/
theorem noWrap_of_check (x : Exporter ℕ) (s : State ℕ) (a : Action ℕ)
    (h : wrapCheck x s a = true) : NoWrap x s a := by
  rintro m q k ⟨i, p, rfl, hi, hask⟩
  simp only [wrapCheck, hi, hask, Option.all_some] at h
  exact of_decide_eq_true h

/-- One record is with the worker, and two more are submitted behind it. -/
def fillRun : List (Action ℕ) :=
  .spawn :: submitAlone 0 3 ++ workerSteps 9 .fatal ++ submitAlone 0 4 ++
    .enter 0 5 :: producerSteps 0 9

/-- The bound is met: one record is with the worker and one in each queue. -/
theorem memory_bounded_snug : ∃ s : State ℕ, s.world.nextTicket = 3 ∧ retention snug = 3 ∧
    retained s ≤ 3 ∧ s.world.nextTicket ≤ s.world.history.completed.length + 3 := by
  obtain ⟨s, hs, hp⟩ := exists_reach_of_replay (step snug) (noWrap_of_check snug) (State.init ℕ)
    fillRun (fun s => decide (s.world.nextTicket = 3 ∧ s.world.history.gaugesReset = false))
    (by decide +kernel)
  obtain ⟨hn, hr⟩ := of_decide_eq_true hp
  exact ⟨s, hn, by decide, memory_bounded (x := snug) (by decide +kernel) hs hr⟩

end EdenLogger.CallTotals
