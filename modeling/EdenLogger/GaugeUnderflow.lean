import EdenLogger.HandleProgram
import EdenLogger.QueueAccounting

/-!
# Subtractions from the queue gauges

While the gauges are not reset, every subtraction is covered by what its gauge
accounts for. A deadline that expires resets them under submissions that still
hold claims, and a submission that takes such a claim back subtracts from a
gauge that no longer counts it. A monitor keeps, for every gauge, what each
thread claimed on it since its last reset and still holds; the gauge covers
the sum of that in every run whose submissions take back only what the
monitor has.
-/

namespace EdenLogger.GaugeUnderflow

open MachineWord WakeUpPermit ExporterLanes LogCollector GenerationState GenerationStep
open GenerationMoves GenerationFrames ListCells LaneTable LaneOwnership RecordFlow
open FlushSoundness HandleProgram CapacityAccount QueueAccounting RunRules

variable {L : Type} {x : Exporter L} {s s' : State L} {a : Action L}

/-! ## Before a reset -/

/-- A subtraction of a thread is of a claim it holds. -/
theorem claimOf_returns {p : Producer L} {m : Measure} {q : QueueKind} {k : ℕ}
    (h : returns p = some (m, q, k)) : claimOf m q p = k := by
  unfold returns at h
  split at h
  case h_4 => cases h
  all_goals
    rename_i hpc
    cases h
    simp only [claimOf, grantedOf, failedOf, hpc, if_true, Nat.add_zero, Nat.zero_add]

/-- One thread's claim is part of all claims. -/
theorem claimOf_le {i : ℕ} {p : Producer L} (hi : s.threads[i]? = some p) (m : Measure)
    (q : QueueKind) : claimOf m q p ≤ claimed m q s.threads := by
  obtain ⟨n, hn, -⟩ := sum_map_split (claimOf m q) hi
  unfold claimed
  omega

/-- What is subtracted is accounted for. -/
theorem subtracts_le {m : Measure} {q : QueueKind} {k : ℕ} (h : subtracts s a = some (m, q, k)) :
    k ≤ accounted s m q := by
  unfold accounted
  cases a with
  | producer i =>
    simp only [subtracts, Option.bind_eq_some_iff] at h
    obtain ⟨p, hi, h⟩ := h
    have := claimOf_le hi m q
    rw [claimOf_returns h] at this
    omega
  | worker o =>
    simp only [subtracts, releases] at h
    split at h
    · rename_i site hpc
      rw [Option.map_eq_some_iff] at h
      obtain ⟨⟨log, input⟩, hi, h⟩ := h
      cases h
      have hq : (queued s.world s.worker).Perm (log :: (laneRecords s.world.lanes ++
          (detachedRecords (held s.worker.pc).detached ++ input.records))) := by
        rw [queued, LaneQueues.records_popFront hi, ← List.append_assoc, ← List.append_assoc]
        exact List.perm_middle
      rw [heldIn_perm hq, heldIn_cons]
      simp only [weightIn, weight, if_true]
      omega
    · rename_i site log hpc
      cases h
      have hh : (held s.worker.pc).hand = [log] := by rw [hpc]; rfl
      simp only [releasing, hh, heldIn, List.map_cons, List.map_nil, List.sum_cons, List.sum_nil,
        weightIn, weight, if_true]
      omega
    · cases h
  | _ => cases h

/-- A step that subtracts does what it says. -/
theorem gauge_of_subtracts {m : Measure} {q : QueueKind} {k : ℕ} (hs : step x s a = some s')
    (h : subtracts s a = some (m, q, k)) :
    gauge s'.world m q = wrappingSub (gauge s.world m q) k := by
  cases stepMove hs with
  | @producer i p p' w' hi hm =>
    simp only [subtracts, hi, Option.bind_some] at h
    unfold returns at h
    cases hm <;> rename_i hpc <;> rw [hpc] at h <;> cases h
    · exact gauge_setBytes _ _ _
    · exact gauge_setDepth _ _ _
    · exact gauge_setBytes _ _ _
  | worker ha hm =>
    simp only [subtracts, releases] at h
    cases hm
    case pop site log input hi hpc =>
      simp only [hpc, hi, Option.map_some, Option.some.injEq, Prod.mk.injEq] at h
      obtain ⟨rfl, rfl, rfl⟩ := h
      exact gauge_setDepth _ _ _
    case popNone site hi hpc =>
      simp only [hpc, (LaneQueues.popFront_eq_none_iff _).mpr hi, Option.map_none,
        reduceCtorEq] at h
    case release site log hpc =>
      simp only [hpc, Option.some.injEq, Prod.mk.injEq] at h
      obtain ⟨rfl, rfl, rfl⟩ := h
      exact gauge_setBytes _ _ _
    all_goals
      rename_i hpc
      simp only [hpc, reduceCtorEq] at h
  | _ => cases h

/-! ## Across a reset -/

/-- For every gauge, what each thread claimed on it since its last reset and
still holds. -/
abbrev Since := Measure → QueueKind → List ℕ

/-- Whether an operation of the handle's command resets a gauge. -/
def resetsGauge (m : Measure) (q : QueueKind) : ControlOp → Bool
  | .resetDepth q' => decide (m = .records ∧ q = q')
  | .resetBytes q' => decide (m = .bytes ∧ q = q')
  | _ => false

/-- Whether the worker is about to reset the gauges. -/
def clearsGauges : WorkerPc L → Bool
  | .ledgerClear _ _ => true
  | _ => false

/-- An entry follows its thread's claim: added to, or closed. -/
def follow (before after entry : ℕ) : ℕ := if before ≤ after then entry + (after - before) else 0

/-- The monitor's step. -/
def track (s : State L) (a : Action L) (s' : State L) (since : Since) : Since := fun m q =>
  match a with
  | .spawn => since m q ++ [0]
  | .producer i =>
    match s.threads[i]?, s'.threads[i]?, (since m q)[i]? with
    | some p, some p', some entry =>
      (since m q).set i (follow (claimOf m q p) (claimOf m q p') entry)
    | _, _, _ => since m q
  | .worker _ => if clearsGauges s.worker.pc then (since m q).map fun _ => 0 else since m q
  | .control =>
    if s.control.program.head?.any (resetsGauge m q) then (since m q).map fun _ => 0 else since m q
  | _ => since m q

/-- A submission takes back what it claimed since the gauge's last reset. -/
def Timely (p : State L × Since) (a : Action L) : Prop :=
  ∀ i m q k, a = .producer i → subtracts p.1 a = some (m, q, k) → (p.2 m q)[i]? = some k

/-- Nothing wraps, and claims are taken back in time. -/
def Careful (x : Exporter L) (p : State L × Since) (a : Action L) : Prop :=
  NoWrap x p.1 a ∧ Timely p a

/-- The monitor's entries are parts of the threads' claims, and every gauge
covers them. -/
structure Covered (p : State L × Since) : Prop where
  entries : ∀ m q, List.Forall₂ (fun n t => n ≤ claimOf m q t) (p.2 m q) p.1.threads
  covers : ∀ m q, (p.2 m q).sum ≤ gauge p.1.world m q
  word : ∀ m q, gauge p.1.world m q ≤ wordMax

/-- A followed entry stays part of its claim. -/
theorem follow_le {before after entry : ℕ} (h : entry ≤ before) :
    follow before after entry ≤ after := by
  unfold follow
  split <;> omega

/-- The monitor's entries stay parts of the threads' claims. -/
theorem Covered.entries_step {since : Since} (h : Covered (s, since)) (hm : Move x s a s')
    (m : Measure) (q : QueueKind) :
    List.Forall₂ (fun n t => n ≤ claimOf m q t) (track s a s' since m q) s'.threads := by
  have h0 := h.entries m q
  cases hm with
  | spawn =>
    refine List.rel_append h0 (.cons (Nat.zero_le _) .nil)
  | @enter i log p hi hpc hr =>
    refine forall₂_set_right h0 hi fun n hn => ?_
    obtain ⟨hg, hf⟩ := unclaiming_outside (p := p) (by rw [hpc]; rfl) m q
    simp only [claimOf, hg, hf] at hn
    omega
  | @exit i p hi hpc =>
    refine forall₂_set_right h0 hi fun n hn => ?_
    obtain ⟨hg, hf⟩ := unclaiming_outside (p := p) (by rw [hpc]; rfl) m q
    simp only [claimOf, hg, hf] at hn
    omega
  | @producer i p p' w' hi hm =>
    obtain ⟨entry, hentry, hle⟩ := forall₂_cell h0 hi
    have hi' : (s.threads.set i p')[i]? = some p' :=
      List.getElem?_set_self (List.getElem?_eq_some_iff.mp hi).1
    simp only [track, hi, hi', hentry]
    exact forall₂_set h0 i (follow_le hle)
  | worker ha hm =>
    simp only [track]
    split
    · exact forall₂_zero h0
    · exact h0
  | control hp hr =>
    simp only [track]
    split
    · exact forall₂_zero h0
    · exact h0
  | _ => exact h0

/-- A thread's access keeps its gauge above the entries, if nothing wraps and
the claim is taken back in time. -/
theorem covers_producer {i : ℕ} {w w' : World L} {p p' : Producer L}
    (hm : ProducerMove x i w p w' p') (m : Measure) (q : QueueKind) {entry rest : ℕ}
    (hword : gauge w m q ≤ wordMax)
    (hcov : rest + entry ≤ gauge w m q)
    (hfit : ∀ k, asks p = some (m, q, k) → Fitting (limit x m q) (gauge w m q) k)
    (htime : ∀ k, returns p = some (m, q, k) → entry = k) :
    rest + follow (claimOf m q p) (claimOf m q p') entry ≤ gauge w' m q ∧
      gauge w' m q ≤ wordMax := by
  unfold follow claimOf
  rcases producer_account hm m q 0 0 with ⟨-, ha⟩ | ⟨log, -, hg, hp, hf, hp', hf'⟩
  · simp only [Nat.zero_add] at ha
    cases ha with
    | same hc hg hf =>
      dsimp only at hc hg hf
      rw [hc, hg, hf, if_pos (Nat.le_refl _)]
      omega
    | @grant k n hn hk hc hg hf =>
      dsimp only at hn hc hg hf
      obtain ⟨hn, hle'⟩ := granted_fits (limit_le x m q) hn
      have hl := limit_le x m q
      rw [hc, hg, hf, if_pos (by omega)]
      omega
    | @overshoot k n hn hk hc hg hf =>
      dsimp only at hn hc hg hf
      obtain ⟨hle', hsmall⟩ := small_of_overshot hn
      have hfits := hfit k hk hle' hsmall
      have hsum : n = gauge w m q + k := by
        rw [counter_of_overshot hn, wrappingAdd, Nat.mod_eq_of_lt]
        exact lt_of_le_of_lt hfits (by decide)
      rw [hc, hg, hf, if_pos (by omega)]
      omega
    | @undo k hk hc hg hf | @giveBack k hk hc hg hf =>
      dsimp only at hc hg hf
      have hentry := htime k hk
      rw [wrappingSub_of_le (by omega) hword] at hc
      rw [hc, hg]
      split <;> omega
  · rw [hg, hp', hf']
    split <;> omega

/-- A worker that moves after a reset made the reset itself. -/
theorem cleared_after_reset {o : Oracle} {w' : World L} {k' : Worker L} (hh : HandleLaw s)
    (ha : s.aborted = false) (hr : s.world.history.gaugesReset = true)
    (hm : WorkerMove x o s.world s.worker w' k') : hasCleared s.worker.pc = true := by
  rcases hh.reset hr with (hab | hfin) | hcl
  · rw [hab] at ha
    cases ha
  · rw [not_finished_of_move hm] at hfin
    cases hfin
  · exact hcl

/-- After a reset the worker touches the gauges only to reset them. -/
theorem worker_after_reset {o : Oracle} {w' : World L} {k' : Worker L} (hh : HandleLaw s)
    (ha : s.aborted = false) (hr : s.world.history.gaugesReset = true)
    (hm : WorkerMove x o s.world s.worker w' k') (hc : clearsGauges s.worker.pc = false)
    (m : Measure) (q : QueueKind) : gauge w' m q = gauge s.world m q := by
  have hcl := cleared_after_reset hh ha hr hm
  cases releaseMove hm with
  | keep hh hg hp hc => exact hg m q
  | pop hpc hi hw hk =>
    rw [hpc] at hcl
    cases hcl
  | release hpc hw hk =>
    rw [hpc] at hcl
    cases hcl
  | reset hpc hw hk =>
    rw [hpc] at hc
    cases hc

/-- The worker resets the gauges in one place. -/
theorem worker_resets {o : Oracle} {w w' : World L} {k k' : Worker L}
    (hm : WorkerMove x o w k w' k') (hc : clearsGauges k.pc = false) :
    w'.history.gaugesReset = w.history.gaugesReset := by
  cases hm
  case ledgerClear hpc =>
    rw [hpc] at hc
    cases hc
  case pollReady wait c cells hr hpc => cases c <;> rfl
  case pollNext wait c cells hr hpc => cases c <;> rfl
  all_goals rfl

/-- There it leaves every gauge at zero. -/
theorem worker_clears {o : Oracle} {w w' : World L} {k k' : Worker L}
    (hm : WorkerMove x o w k w' k') (hc : clearsGauges k.pc = true) (m : Measure) (q : QueueKind) :
    gauge w' m q = 0 := by
  cases hm
  case ledgerClear hpc => cases m <;> cases q <;> rfl
  all_goals
    rename_i hpc
    rw [hpc] at hc
    cases hc

/-- An operation of the command resets the gauge or leaves it alone. -/
theorem control_resets (w : World L) (c : Control) (op : ControlOp) (m : Measure) (q : QueueKind) :
    gauge (controlStep w c op).1 m q = if resetsGauge m q op then 0 else gauge w m q := by
  cases op
  case storeShuttingDown =>
    simp only [controlStep, resetsGauge]
    split <;> cases m <;> rfl
  case resetDepth q' => cases m <;> cases q <;> cases q' <;> rfl
  case resetBytes q' => cases m <;> cases q <;> cases q' <;> rfl
  all_goals cases m <;> rfl

/-- The gauges cover the monitor's entries after every careful step. -/
theorem Covered.step {since : Since} (h : Covered (s, since)) (hh : HandleLaw s)
    (ha : Careful x (s, since) a) (hm : Move x s a s')
    (hsound : s'.world.history.gaugesReset = false → ∀ m q, (account s' m q).Sound (limit x m q)) :
    Covered (s', track s a s' since) := by
  have hentries := h.entries_step hm
  obtain ⟨hwrap, htime⟩ := ha
  have hboth : ∀ m q, (track s a s' since m q).sum ≤ gauge s'.world m q ∧
      gauge s'.world m q ≤ wordMax := by
    intro m q
    have h0 := h.covers m q
    have hw := h.word m q
    cases hr : s'.world.history.gaugesReset with
    | false =>
      have hs := hsound hr m q
      have hsum := sum_le_of_forall₂ (hentries m q)
      have hex := hs.exact
      rw [account_total, accounted, claimed] at hex
      refine ⟨?_, hs.word⟩
      change _ ≤ (account s' m q).counter
      omega
    | true =>
      cases hm with
      | spawn =>
        simp only [track, List.sum_append, List.sum_singleton, Nat.add_zero]
        exact ⟨h0, hw⟩
      | @producer i p p' w' hi hm =>
        obtain ⟨entry, hentry, -⟩ := forall₂_cell (h.entries m q) hi
        obtain ⟨rest, hrest, hset⟩ := sum_map_split id hentry
        have hi' : (s.threads.set i p')[i]? = some p' :=
          List.getElem?_set_self (List.getElem?_eq_some_iff.mp hi).1
        simp only [List.map_id, id] at hrest hset
        simp only [track, hi, hi', hentry, hset]
        refine covers_producer hm m q hw (hrest ▸ h0) (fun k hk => hwrap m q k ⟨i, p, rfl, hi, hk⟩)
          fun k hk => ?_
        have hent := htime i m q k rfl (by simp only [subtracts, hi, Option.bind_some, hk])
        exact Option.some.inj (hentry.symm.trans hent)
      | @worker o w' k' hab hm =>
        simp only [track]
        split
        · rename_i hc
          rw [sum_map_zero, worker_clears hm hc]
          exact ⟨Nat.le_refl 0, Nat.zero_le _⟩
        · rename_i hc
          have hc := Bool.eq_false_of_not_eq_true hc
          dsimp only at hr
          rw [worker_resets hm hc] at hr
          rw [worker_after_reset hh hab hr hm hc]
          exact ⟨h0, hw⟩
      | @control op rest hp hr' =>
        simp only [track, hp, List.head?_cons, Option.any_some, control_resets]
        split
        · rw [sum_map_zero]
          exact ⟨Nat.le_refl 0, Nat.zero_le _⟩
        · exact ⟨h0, hw⟩
      | flush hj hm =>
        rw [(flush_world hm).1]
        exact ⟨h0, hw⟩
      | _ => exact ⟨h0, hw⟩
  exact ⟨hentries, fun m q => (hboth m q).1, fun m q => (hboth m q).2⟩

/-- The monitor at the start of a generation: no threads, no entries. -/
def Since.new : Since := fun _ _ => []

/-- A careful run of a generation, as the monitor sees it. -/
abbrev CarefulRun (x : Exporter L) (p : State L × Since) : Prop :=
  ReachWhile (monitored (step x) track) (Careful x) (State.init L, Since.new) p

/-- The gauges cover the monitor's entries in every careful run. -/
theorem covered {p : State L × Since} (h : CarefulRun x p) : Covered p :=
  h.invariant_using
    (J := fun p => HandleLaw p.1 ∧
      (p.1.world.history.gaugesReset = false → ∀ m q, (account p.1 m q).Sound (limit x m q)))
    (fun p hp => by
      have hrun : ReachWhile (step x) (NoWrap x) (State.init L) p.1 :=
        hp.unmonitored fun _ _ ha => ha.1
      exact ⟨handleLaw hrun, fun hr m q => account_sound (fun _ _ ha => ha) hrun hr m q⟩)
    ⟨fun _ _ => .nil, fun _ _ => Nat.zero_le _,
      fun m q => by cases m <;> cases q <;> exact Nat.zero_le _⟩
    fun p p' a hJ hJ' hi ha hs => by
      obtain ⟨hstep, htrack⟩ := of_monitored hs
      obtain ⟨t, since⟩ := p
      obtain ⟨t', since'⟩ := p'
      dsimp only at htrack
      subst htrack
      exact hi.step hJ.1 ha (stepMove hstep) hJ'.2

/-- In a run in which no optimistic addition wraps its gauge, the gauges cover every subtraction
until they are reset. -/
theorem covered_before_reset {m : Measure} {q : QueueKind} {k : ℕ}
    (h : ReachWhile (step x) (NoWrap x) (State.init L) s)
    (hr : s.world.history.gaugesReset = false) (hk : subtracts s a = some (m, q, k)) :
    k ≤ gauge s.world m q := by
  have hex := (account_sound (fun _ _ ha => ha) h hr m q).exact
  rw [account_total] at hex
  exact (subtracts_le hk).trans hex.ge

/-- The worker gives nothing back after a reset. -/
theorem released_before_reset {o : Oracle} {r : Measure × QueueKind × ℕ} (hh : HandleLaw s)
    (hs : step x s (.worker o) = some s') (hk : releases s.worker = some r) :
    s.world.history.gaugesReset = false := by
  by_contra hr
  rw [Bool.not_eq_false] at hr
  cases stepMove hs with
  | worker hab hm =>
    have hcl := cleared_after_reset hh hab hr hm
    simp only [releases] at hk
    split at hk
    · rename_i hpc
      rw [hpc] at hcl
      cases hcl
    · rename_i hpc
      rw [hpc] at hcl
      cases hcl
    · cases hk

/-- In a run in which no optimistic addition wraps its gauge, and no submission
takes back what it claimed before a reset, no gauge is smaller than what is
subtracted from it. -/
theorem no_underflow {p : State L × Since} {a : Action L} {m : Measure} {q : QueueKind} {k : ℕ}
    (h : CarefulRun x p) (ha : Careful x p a) (hs : step x p.1 a = some s')
    (hk : subtracts p.1 a = some (m, q, k)) : k ≤ gauge p.1.world m q := by
  have hrun : ReachWhile (step x) (NoWrap x) (State.init L) p.1 :=
    h.unmonitored fun _ _ ha => ha.1
  cases hr : p.1.world.history.gaugesReset with
  | false => exact covered_before_reset hrun hr hk
  | true =>
    cases a with
    | producer i =>
      have hent := ha.2 i m q k rfl hk
      obtain ⟨rest, hrest, -⟩ := sum_map_split id hent
      have hcov := (covered h).covers m q
      simp only [List.map_id, id] at hrest
      omega
    | worker o =>
      rw [released_before_reset (handleLaw hrun) hs hk] at hr
      cases hr
    | _ => cases hk

/-! ## Concrete runs -/

/-- The worker parks, a first thread is granted bytes and a second one
overshoots them. -/
def overshotRun : List (Action ℕ) :=
  workerSteps 9 .fatal ++ [.spawn, .spawn] ++ .enter 0 600 :: producerSteps 0 3 ++
    .enter 1 600 :: producerSteps 1 3

/-- The shutdown's deadline expires and the gauges are reset. -/
def expiredRun : List (Action ℕ) :=
  .command .shutdown :: controlSteps 13 ++ .expireDeadline :: .control :: .cancelWorker ::
    controlSteps 10

/-- The second thread takes its bytes back from a gauge that was reset. -/
theorem gauge_underflows : ∃ s s', Reachable sample s ∧ step sample s (.producer 1) = some s' ∧
    subtracts s (.producer 1) = some (.bytes, .normal, 600) ∧
    gauge s.world .bytes .normal = 0 ∧ gauge s'.world .bytes .normal = size - 600 := by
  obtain ⟨s, hs, hp⟩ := exists_reach (step sample) (State.init ℕ) (overshotRun ++ expiredRun)
    (fun s => (step sample s (.producer 1)).any fun s' => decide (
      subtracts s (.producer 1) = some (.bytes, .normal, 600) ∧
        gauge s.world .bytes .normal = 0 ∧ gauge s'.world .bytes .normal = size - 600))
    (by decide +kernel)
  rw [Option.any_eq_true] at hp
  obtain ⟨s', hs', hp⟩ := hp
  exact ⟨s, s', hs, hs', of_decide_eq_true hp⟩

/-- An action's condition as a check on its thread. -/
def carefulCheck (p : State ℕ × Since) (a : Action ℕ) : Bool :=
  match a with
  | .producer i => (p.1.threads[i]?).all fun t =>
      (asks t).all
          (fun c => decide (Fitting (limit sample c.1 c.2.1) (gauge p.1.world c.1 c.2.1) c.2.2)) &&
        (returns t).all fun c => decide ((p.2 c.1 c.2.1)[i]? = some c.2.2)
  | _ => true

/-- The check means what it says. -/
theorem careful_of_check (p : State ℕ × Since) (a : Action ℕ) (h : carefulCheck p a = true) :
    Careful sample p a := by
  refine ⟨fun m q k => ?_, fun i m q k ha hk => ?_⟩
  · rintro ⟨i, t, rfl, hi, hask⟩
    simp only [carefulCheck, hi, hask, Option.all_some, Bool.and_eq_true] at h
    exact of_decide_eq_true h.1
  · subst ha
    simp only [subtracts, Option.bind_eq_some_iff] at hk
    obtain ⟨t, hi, hk⟩ := hk
    simp only [carefulCheck, hi, hk, Option.all_some, Bool.and_eq_true] at h
    exact of_decide_eq_true h.2

/-- The second thread takes its bytes back before anything is reset. -/
theorem no_underflow_overshot : ∃ s, Reachable sample s ∧
    subtracts s (.producer 1) = some (.bytes, .normal, 600) ∧
    600 ≤ gauge s.world .bytes .normal := by
  obtain ⟨p, hp, ht⟩ := exists_reach_of_replay (monitored (step sample) track) careful_of_check
    (State.init ℕ, Since.new) overshotRun
    (fun p => carefulCheck p (.producer 1) && (step sample p.1 (.producer 1)).isSome &&
      decide (subtracts p.1 (.producer 1) = some (.bytes, .normal, 600))) (by decide +kernel)
  simp only [Bool.and_eq_true, decide_eq_true_eq, Option.isSome_iff_exists] at ht
  obtain ⟨⟨hc, s', hs'⟩, hk⟩ := ht
  have hreach : Reachable sample p.1 := hp.unmonitored fun _ _ _ => trivial
  exact ⟨p.1, hreach, hk, no_underflow hp (careful_of_check p _ hc) hs' hk⟩

end EdenLogger.GaugeUnderflow
