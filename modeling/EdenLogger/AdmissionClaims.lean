import EdenLogger.QueueAccounting

/-!
# From the claim to the release

A record is pushed by the submission that claimed its queue's bytes and one of
its slots, and is released by the worker under the queue and the bytes it
carries. So every release returns what some earlier step of the run claimed,
and with nobody in between the gauges are what the records held amount to.
-/

namespace EdenLogger.AdmissionClaims

open MachineWord WakeUpPermit ExporterLanes LogCollector GenerationState GenerationStep
open GenerationMoves GenerationFrames ListCells LaneTable LaneOwnership RecordFlow
open QueueAccounting RunRules

variable {L : Type} {x : Exporter L} {s s' : State L} {a : Action L}

/-- A submission about to claim on a gauge. -/
def claiming (r : Submission L) (q : QueueKind) : Measure → ProducerPc L
  | .records => .claimDepth r q
  | .bytes => .claimBytes r q

/-- A submission whose claim on a gauge was just granted. -/
def granted (r : Submission L) (q : QueueKind) : Measure → ProducerPc L
  | .records => .takeTicket r q
  | .bytes => .claimDepth r q

/-- What a submission claims on a gauge. -/
def amount (r : Submission L) : Measure → ℕ
  | .records => 1
  | .bytes => r.bytes

/-- A step of the run granted a submission of a thread its claim on a gauge. -/
def Granted (x : Exporter L) (s : State L) (i : ℕ) (r : Submission L) (q : QueueKind)
    (m : Measure) : Prop :=
  ∃ t t' lane, Reach (step x) (State.init L) t ∧ t.threads[i]? = some ⟨claiming r q m, lane⟩ ∧
    step x t (.producer i) = some t' ∧ t'.threads[i]? = some ⟨granted r q m, lane⟩ ∧
    gauge t'.world m q = wrappingAdd (gauge t.world m q) (amount r m) ∧ Reach (step x) t' s

/-- The submission that pushed a record claimed what the record carries. -/
def Admitted (x : Exporter L) (s : State L) (log : QueuedLog L) : Prop :=
  ∃ r : Submission L, r.log = log.log ∧ r.bytes = log.bytes ∧
    ∀ m, Granted x s log.producer r log.queue m

/-- A submission that holds a granted claim on a gauge. -/
def Holds (r : Submission L) (q : QueueKind) (pc : ProducerPc L) : Measure → Prop
  | .records => pc = .takeTicket r q ∨ ∃ ticket, pc = .push r q ticket
  | .bytes => pc = .claimDepth r q ∨ pc = .undoDepth r q ∨ pc = .returnBytes r q ∨
      pc = .takeTicket r q ∨ ∃ ticket, pc = .push r q ticket

/-- The records whose release has not completed. -/
def unreleased (w : World L) (k : Worker L) : List (QueuedLog L) := queued w k ++ (held k.pc).hand

/-- Whoever holds a claim was granted it, and records were admitted. -/
structure ClaimLaw (x : Exporter L) (s : State L) : Prop where
  threads : ∀ {i : ℕ} {p : Producer L}, s.threads[i]? = some p →
    ∀ r q m, Holds r q p.pc m → Granted x s i r q m
  records : ∀ log ∈ unreleased s.world s.worker, Admitted x s log

/-- What a run granted stays granted in its continuations. -/
theorem Granted.next {i : ℕ} {r : Submission L} {q : QueueKind} {m : Measure}
    (h : Granted x s i r q m) (hs : step x s a = some s') : Granted x s' i r q m := by
  obtain ⟨t, t', lane, hr, hi, ht, hi', hg, hr'⟩ := h
  exact ⟨t, t', lane, hr, hi, ht, hi', hg, hr'.next trivial hs⟩

/-- A record stays admitted. -/
theorem Admitted.next {log : QueuedLog L} (h : Admitted x s log) (hs : step x s a = some s') :
    Admitted x s' log := by
  obtain ⟨r, hl, hb, hg⟩ := h
  exact ⟨r, hl, hb, fun m => (hg m).next hs⟩

/-- A refused submission holds no claim. -/
theorem not_holds_refuse (r r' : Submission L) (f : ClaimFailure) (q q' : QueueKind)
    (m : Measure) : ¬ Holds r' q' (refuse r f q) m := by
  cases q with
  | normal =>
    simp only [refuse]
    split <;> cases m <;> simp [Holds]
  | reserved => cases m <;> simp [refuse, Holds]

/-- A thread holds a claim from the step that granted it. -/
theorem producer_holds {i : ℕ} {w w' : World L} {p p' : Producer L} {r : Submission L}
    {q : QueueKind} {m : Measure} (hm : ProducerMove x i w p w' p') (h : Holds r q p'.pc m) :
    Holds r q p.pc m ∨ p = ⟨claiming r q m, p.lane⟩ ∧ p' = ⟨granted r q m, p.lane⟩ ∧
      gauge w' m q = wrappingAdd (gauge w m q) (amount r m) := by
  cases hm
  case bytesRefused | undoBytes | returnBytes => exact absurd h (not_holds_refuse _ _ _ _ _ _)
  case bytesGranted r' q' n hc hpc =>
    cases m with
    | records => simp [Holds] at h
    | bytes =>
      simp only [Holds, ProducerPc.claimDepth.injEq, reduceCtorEq, exists_false, or_false] at h
      obtain ⟨rfl, rfl⟩ := h
      refine Or.inr ⟨by rw [claiming, ← hpc], rfl, ?_⟩
      rw [gauge_setBytes]
      exact counter_of_granted hc
  case depthGranted r' q' n hc hpc =>
    cases m with
    | records =>
      simp only [Holds, ProducerPc.takeTicket.injEq, reduceCtorEq, exists_false, or_false] at h
      obtain ⟨rfl, rfl⟩ := h
      refine Or.inr ⟨by rw [claiming, ← hpc], rfl, ?_⟩
      rw [gauge_setDepth]
      exact counter_of_granted hc
    | bytes => exact Or.inl (by simp_all [Holds])
  case push r' q' ticket j lane hj hl hpc =>
    dsimp only at h
    split at h <;> cases m <;> simp [Holds] at h
  all_goals cases m <;> simp_all [Holds]

/-- The worker takes unreleased records from nowhere. -/
theorem worker_unreleased {o : Oracle} {w w' : World L} {k k' : Worker L}
    (hm : WorkerMove x o w k w' k')
    (hs : ∀ {j : ℕ} {lane : ProducerLane L}, w.lanes[j]? = some lane → SpareEmpty lane) :
    ∀ log ∈ unreleased w' k', log ∈ unreleased w k := by
  intro log hlog
  rw [unreleased, List.mem_append] at hlog ⊢
  cases releaseMove hm with
  | keep hh hg hp hc =>
    rw [hh] at hlog
    rcases worker_queue hm hs with ⟨hq, -, -⟩ | ⟨_, _, _, -, -, -, hp', -⟩ |
      ⟨retained, remaining, _, hpc, -⟩
    · rwa [hq.mem_iff] at hlog
    · exact absurd (hp.symm.trans hp') (by simp)
    · exact absurd hpc (hc retained remaining)
  | @pop site log' input hpc hi hw hk =>
    rw [hk, List.mem_singleton] at hlog
    rcases worker_queue hm hs with ⟨-, hp, -⟩ | ⟨_, log₁, _, -, hi', hq, -, -⟩ |
      ⟨_, _, _, hpc', -⟩
    · rw [hw] at hp
      exact absurd hp (by simp [subDepth, setDepth])
    · rw [hi] at hi'
      cases hi'
      rw [hq.mem_iff, List.mem_cons]
      tauto
    · rw [hpc] at hpc'
      cases hpc'
  | @release site log' hpc hw hk =>
    rw [hk] at hlog
    rcases worker_queue hm hs with ⟨hq, -, -⟩ | ⟨_, _, _, hpc', -⟩ | ⟨_, _, _, hpc', -⟩
    · rw [hq.mem_iff] at hlog
      exact Or.inl (hlog.resolve_right (List.not_mem_nil))
    · rw [hpc] at hpc'
      cases hpc'
    · rw [hpc] at hpc'
      cases hpc'
  | @reset retained remaining hpc hw hk =>
    subst hw hk
    simp only [clearQueues, queued, held, detachedRecords, List.flatMap_nil,
      LaneQueues.records_new, List.append_nil, List.not_mem_nil, or_false] at hlog
    obtain ⟨lane', hlane', hlog⟩ := List.mem_flatMap.mp hlog
    obtain ⟨j, hj⟩ := List.mem_iff_getElem?.mp hlane'
    obtain ⟨lane, hl, hstep⟩ := (TableStep.clear w.lanes w.registry.lanes).lane hj
    rcases hstep.queues with hq | hq
    · rw [hq] at hlog
      exact Or.inl (List.mem_append_left _
        (List.mem_flatMap.mpr ⟨lane, List.mem_of_getElem? hl, hlog⟩))
    · rw [hq] at hlog
      cases hlog

/-- A thread that starts or ends a stay in the callback holds no claim. -/
theorem not_holds_outside {r : Submission L} {q : QueueKind} {pc : ProducerPc L} {m : Measure}
    (h : pc.outside = true ∨ ∃ log, pc = .entered log) : ¬ Holds r q pc m := by
  rcases h with h | ⟨log, rfl⟩
  · cases pc <;> cases m <;> simp_all [Holds, ProducerPc.outside]
  · cases m <;> simp [Holds]

/-- The claims of threads are kept by every step of a run. -/
theorem ClaimLaw.step_threads (h : ClaimLaw x s) (hreach : Reach (step x) (State.init L) s)
    (hs : GenerationStep.step x s a = some s') {i : ℕ} {p : Producer L}
    (hi : s'.threads[i]? = some p) (r : Submission L) (q : QueueKind) (m : Measure)
    (hp : Holds r q p.pc m) : Granted x s' i r q m := by
  cases stepMove hs with
  | spawn =>
    rcases cell_of_append hi with hi | ⟨-, rfl⟩
    · exact (h.threads hi r q m hp).next hs
    · exact absurd hp (not_holds_outside (Or.inl rfl))
  | enter hj hpc hr =>
    rcases cell_of_set hi with ⟨rfl, rfl⟩ | ⟨-, hi⟩
    · exact absurd hp (not_holds_outside (Or.inr ⟨_, rfl⟩))
    · exact (h.threads hi r q m hp).next hs
  | exit hj hpc =>
    rcases cell_of_set hi with ⟨rfl, rfl⟩ | ⟨-, hi⟩
    · exact absurd hp (not_holds_outside (Or.inl (by dsimp only; split <;> rfl)))
    · exact (h.threads hi r q m hp).next hs
  | @producer j p₀ p' w' hj hm =>
    rcases cell_of_set hi with ⟨rfl, rfl⟩ | ⟨-, hi⟩
    · rcases producer_holds hm hp with hp | ⟨hp, hp', hg⟩
      · exact (h.threads hj r q m hp).next hs
      · exact ⟨s, _, p₀.lane, hreach, by rw [hj, hp], hs, by rw [hi, hp'], hg, .refl⟩
    · exact (h.threads hi r q m hp).next hs
  | _ => exact (h.threads hi r q m hp).next hs

/-- A pushed record was admitted. -/
theorem producer_unreleased {i : ℕ} {w w' : World L} {p p' : Producer L}
    (hm : ProducerMove x i w p w' p') (k : Worker L) {log : QueuedLog L}
    (hlog : log ∈ unreleased w' k) :
    log ∈ unreleased w k ∨ ∃ r : Submission L, r.log = log.log ∧ r.bytes = log.bytes ∧
      log.producer = i ∧ ∀ m, Holds r log.queue p.pc m := by
  rw [unreleased, queued, List.mem_append, List.mem_append] at hlog
  have hrest : log ∈ laneRecords w.lanes → log ∈ unreleased w k := fun hl => by
    rw [unreleased, queued, List.mem_append, List.mem_append]
    exact Or.inl (Or.inl hl)
  rcases hlog with (hlog | hlog) | hlog
  · cases hm
    case register hl hpc =>
      rw [laneRecords_register] at hlog
      exact Or.inl (hrest hlog)
    case push r q ticket j lane hj hl hpc =>
      rcases List.mem_cons.mp ((laneRecords_push hl _).mem_iff.mp hlog) with rfl | hlog
      · refine Or.inr ⟨r, rfl, rfl, rfl, fun m => ?_⟩
        rw [hpc]
        cases m <;> simp [Holds]
      · exact Or.inl (hrest hlog)
    case close j lane hj hl hpc =>
      have he : laneRecords (w.lanes.set j { lane with closed := true }) = laneRecords w.lanes :=
        flatMap_set_eq _ hl rfl
      exact Or.inl (hrest (he ▸ hlog))
    case refused failure hpc =>
      cases failure <;> exact Or.inl (hrest hlog)
    all_goals exact Or.inl (hrest hlog)
  · refine Or.inl ?_
    rw [unreleased, queued, List.mem_append, List.mem_append]
    exact Or.inl (Or.inr hlog)
  · refine Or.inl ?_
    rw [unreleased, List.mem_append]
    exact Or.inr hlog

/-- Claims and admissions are kept by every step of a run. -/
theorem ClaimLaw.step (h : ClaimLaw x s) (hreach : Reach (step x) (State.init L) s)
    (hs : GenerationStep.step x s a = some s') : ClaimLaw x s' := by
  refine ⟨h.step_threads hreach hs, fun log hlog => ?_⟩
  have ho := lanesOwned hreach
  cases stepMove hs with
  | producer hi hm =>
    rcases producer_unreleased hm s.worker hlog with hlog | ⟨r, hl, hb, rfl, hh⟩
    · exact (h.records log hlog).next hs
    · exact ⟨r, hl, hb, fun m => (h.threads hi r _ m (hh m)).next hs⟩
  | worker ha hm => exact (h.records log (worker_unreleased hm ho.spare log hlog)).next hs
  | flush hj hm =>
    rw [(flush_world hm).1] at hlog
    exact (h.records log hlog).next hs
  | @control op rest hp hr =>
    have hf := controlStep_frame s.world s.control op
    simp only [unreleased, queued, hf.lanes] at hlog
    exact (h.records log hlog).next hs
  | _ => exact (h.records log hlog).next hs

/-- Claims and admissions hold in every run. -/
theorem claimLaw (h : Reach (step x) (State.init L) s) : ClaimLaw x s :=
  h.invariant_using (I := ClaimLaw x) (fun _ hr => hr)
    ⟨fun hi => by simp [State.init] at hi, fun _ hlog => by
      simp [unreleased, queued, laneRecords, detachedRecords, State.init, World.new, Worker.new,
        held] at hlog⟩
    fun _ _ _ hr _ hi _ hs => hi.step hr hs

/-! ## Accounting -/

/-- Whether a submission is in progress. -/
def submitting : ProducerPc L → Bool
  | .resolve _ | .claimBytes _ _ | .undoBytes _ _ | .claimDepth _ _ | .undoDepth _ _ => true
  | .returnBytes _ _ | .takeTicket _ _ | .push _ _ _ | .notify => true
  | _ => false

/-- Without submissions in progress nothing is claimed. -/
theorem claimed_quiet {threads : List (Producer L)} (m : Measure) (q : QueueKind)
    (h : ∀ p ∈ threads, submitting p.pc = false) : claimed m q threads = 0 := by
  refine List.sum_eq_zero fun n hn => ?_
  obtain ⟨p, hp, rfl⟩ := List.mem_map.mp hn
  have hq := h p hp
  unfold claimOf grantedOf failedOf
  cases m <;> cases hpc : p.pc <;> rw [hpc] at hq <;> first | rfl | cases hq

/-- Counted in records, what is held is at most the number of records. -/
theorem heldIn_records_le (q : QueueKind) (logs : List (QueuedLog L)) :
    heldIn .records q logs ≤ logs.length := by
  induction logs with
  | nil => exact Nat.le_refl 0
  | cons log rest ih =>
    rw [heldIn_cons, List.length_cons]
    simp only [weightIn, weight]
    split <;> omega

/-- Fewer records are queued than there are words. -/
theorem queued_lt_size (hc : Conserved s) : (queued s.world s.worker).length < size := by
  have hlen := (List.Perm.length_eq (hc.located_perm))
  simp only [located, List.length_append, List.length_map, List.length_range'] at hlen
  have hb : s.world.nextTicket ≤ wordMax := hc.bound
  have hw : wordMax < size := by decide
  omega

/-- Until the gauges are reset, each stands for the records held under its
queue, the claims of submissions in progress and the bytes of a release in
progress. Without these it is exactly what the records held amount to, and
every release returns what the record's submission was granted. -/
theorem gauges_account (h : Reach (step x) (State.init L) s)
    (hr : s.world.history.gaugesReset = false) :
    (∀ m q, gauge s.world m q = (heldIn m q (queued s.world s.worker) + claimed m q s.threads +
      releasing m q s.worker.pc) % size) ∧
    ((∀ p ∈ s.threads, submitting p.pc = false) → (held s.worker.pc).hand = [] → ∀ q,
      gauge s.world .records q = heldIn .records q (queued s.world s.worker) ∧
      (heldIn .bytes q (queued s.world s.worker) < size →
        gauge s.world .bytes q = heldIn .bytes q (queued s.world s.worker))) ∧
    (∀ site log, s.worker.pc = .release site log → Admitted x s log ∧ ∀ o s',
      step x s (.worker o) = some s' →
        gauge s'.world .bytes log.queue = wrappingSub (gauge s.world .bytes log.queue) log.bytes ∧
        ∀ m q, ¬ (m = .bytes ∧ q = log.queue) → gauge s'.world m q = gauge s.world m q) ∧
    (∀ site log input, s.worker.pc = .pop site → s.worker.input.popFront = some (log, input) →
      Admitted x s log ∧ ∀ o s', step x s (.worker o) = some s' →
        s'.worker.pc = .release site log ∧
        gauge s'.world .records log.queue = wrappingSub (gauge s.world .records log.queue) 1 ∧
        ∀ m q, ¬ (m = .records ∧ q = log.queue) → gauge s'.world m q = gauge s.world m q) := by
  have hg := gaugeLaw h hr
  have hc := conserved h
  have hl := claimLaw h
  refine ⟨hg, fun hp hh q => ?_, fun site log hpc => ?_, fun site log input hpc hi => ?_⟩
  · have hrel : ∀ m, releasing m q s.worker.pc = 0 := fun m => by
      cases m with
      | records => rfl
      | bytes => simp only [releasing, hh]; rfl
    have hq : ∀ m, gauge s.world m q = heldIn m q (queued s.world s.worker) % size := fun m => by
      rw [hg m q, accounted, claimed_quiet m q hp, hrel, Nat.add_zero]
    refine ⟨(hq .records).trans (mod_size_of_lt ?_),
      fun hb => (hq .bytes).trans (mod_size_of_lt hb)⟩
    exact (heldIn_records_le q _).trans_lt (queued_lt_size hc)
  · have hh : (held s.worker.pc).hand = [log] := by rw [hpc]; rfl
    refine ⟨hl.records log ?_, fun o s' hs => ?_⟩
    · rw [unreleased, hh]
      exact List.mem_append_right _ List.mem_cons_self
    · cases stepMove hs with
      | worker ha hm =>
        simp only [step, ha, workerStep, hpc] at hs
        cases hs
        exact ⟨gauge_setBytes _ _ _, fun m q hn => gauge_setBytes_of_ne hn⟩
  · refine ⟨hl.records log ?_, fun o s' hs => ?_⟩
    · rw [unreleased, queued, LaneQueues.records_popFront hi]
      simp
    · cases stepMove hs with
      | worker ha hm =>
        simp only [step, ha, workerStep, hpc, hi] at hs
        cases hs
        exact ⟨rfl, gauge_setDepth _ _ _, fun m q hn => gauge_setDepth_of_ne hn⟩

/-- One record, popped and not released. -/
def poppedRun : List (Action ℕ) := .spawn :: submitAlone 0 30 ++ workerSteps 5 .fatal

/-- In that run the record is about to return the thirty bytes it was granted. -/
theorem gauges_account_popped : ∃ s, Reachable sample s ∧
    ∃ site log, s.worker.pc = .release site log ∧ log.bytes = 30 ∧ Admitted sample s log := by
  obtain ⟨s, hs, hp⟩ := exists_reach (step sample) (State.init ℕ) poppedRun
    (fun s => decide (s.world.history.gaugesReset = false ∧
      (held s.worker.pc).hand.map QueuedLog.bytes = [30])) (by decide +kernel)
  obtain ⟨hr, hh⟩ := of_decide_eq_true hp
  have hg := (gauges_account hs hr).2.2.1
  cases hpc : s.worker.pc with
  | release site log =>
    rw [hpc] at hh
    exact ⟨s, hs, site, log, hpc, by simpa [held] using hh, (hg site log hpc).1⟩
  | _ =>
    rw [hpc] at hh
    simp [held] at hh

/-- Half of all words may be held in the normal queue's bytes. -/
def wide : Exporter ℕ where
  config := { sampleConfig with normalQueueBytes := wordMax / 2 }
  level := sample.level
  audience := sample.audience
  estimatedSizeBytes := sample.estimatedSizeBytes
  map := sample.map
  resource := sample.resource
  map_length := sample.map_length
  resource_length := sample.resource_length
  scope_length := sample.scope_length

/-- The first thread fills the queue, the second and the third overshoot it
until its gauge wraps, and two more threads fill it again. -/
def wrapRun : List (Action ℕ) :=
  List.replicate 5 .spawn ++ submitAlone 0 (wordMax / 2) ++
    .enter 1 (wordMax / 2) :: producerSteps 1 3 ++ .enter 2 2 :: producerSteps 2 3 ++
    submitAlone 3 (wordMax / 2) ++ producerSteps 1 3 ++ submitAlone 4 (wordMax / 2) ++
    producerSteps 2 3

/-- While a release is between its two accesses its bytes are neither held nor
claimed, and once the gauge of bytes has wrapped the records held may amount
to more than a word counts. -/
theorem gauges_off :
    (∃ s, Reachable sample s ∧ s.world.history.gaugesReset = false ∧
      gauge s.world .bytes .normal ≠ (heldIn .bytes .normal (queued s.world s.worker) +
        claimed .bytes .normal s.threads) % size) ∧
    ∃ s, Reachable wide s ∧ s.world.history.gaugesReset = false ∧
      (∀ p ∈ s.threads, submitting p.pc = false) ∧ (held s.worker.pc).hand = [] ∧
      gauge s.world .bytes .normal ≠ heldIn .bytes .normal (queued s.world s.worker) := by
  constructor
  · obtain ⟨s, hs, hp⟩ := exists_reach (step sample) (State.init ℕ) poppedRun
      (fun s => decide (s.world.history.gaugesReset = false ∧
        gauge s.world .bytes .normal ≠ (heldIn .bytes .normal (queued s.world s.worker) +
          claimed .bytes .normal s.threads) % size)) (by decide +kernel)
    exact ⟨s, hs, of_decide_eq_true hp⟩
  · obtain ⟨s, hs, hp⟩ := exists_reach (step wide) (State.init ℕ) wrapRun
      (fun s => decide (s.world.history.gaugesReset = false ∧
        (∀ p ∈ s.threads, submitting p.pc = false) ∧
        (held s.worker.pc).hand.length = 0 ∧
        gauge s.world .bytes .normal ≠ heldIn .bytes .normal (queued s.world s.worker)))
      (by decide +kernel)
    obtain ⟨h1, h2, h3, h4⟩ := of_decide_eq_true hp
    exact ⟨s, hs, h1, h2, List.length_eq_zero_iff.mp h3, h4⟩

end EdenLogger.AdmissionClaims
