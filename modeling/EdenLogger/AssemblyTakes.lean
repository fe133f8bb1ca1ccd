import EdenLogger.BatchExport
import EdenLogger.BatchLimits

/-!
# Records taken by an assembly

The assembly loop is bounded by the length of the batch. A record that no request
can hold is taken and dropped without growing the batch, and the loop goes on to
the next one without a look at the deadline or at a flush. A monitor counts both
kinds of records.
-/

namespace EdenLogger.AssemblyTakes

open MachineWord ExporterConfig ExporterLanes LogCollector GenerationState GenerationStep
open GenerationMoves RunRules BatchLimits BatchExport

variable {L : Type} {x : Exporter L} {s s' : State L} {a : Action L}

/-! ## The monitor -/

/-- The assembly that a record is received for. -/
def siteAssembly : Site → Option Assembly
  | .nextDraining b | .nextPolled b | .nextWoken b => some b
  | .firstDraining | .receive | .exitCheck => none

/-- The batch the worker is assembling. -/
def assemblyOf : WorkerPc L → Option Assembly
  | .drain (.receiving site) | .take (.receiving site) _ _ | .pop site | .release site _ =>
    siteAssembly site
  | .assemble b | .offer b _ => some b
  | .poll (.assembly b) _ | .parked (.assembly b) => some b
  | .completing (.assemble b) _ | .notifyProgress (.assemble b) _ => some b
  | _ => none

/-- A record that was taken and is neither in the batch nor dropped. -/
def held : WorkerPc L → ℕ
  | .release site _ => if (siteAssembly site).isSome then 1 else 0
  | .offer _ _ => 1
  | _ => 0

/-- What the assembly loop has taken for its batch. -/
structure Takes where
  /-- Records from the carry-over queue and the inbox. -/
  taken : ℕ
  /-- Those of them that were dropped for their size. -/
  oversize : ℕ
  deriving DecidableEq

/-- Count what a step of the worker takes and drops. A new batch starts with its first record. -/
def countTakes (pc pc' : WorkerPc L) (t : Takes) : Takes :=
  match pc, pc' with
  | .first _, .assemble _ => ⟨0, 0⟩
  | .assemble _, .offer _ _ => ⟨t.taken + 1, t.oversize⟩
  | .pop site, .release _ _ => ⟨t.taken + if (siteAssembly site).isSome then 1 else 0, t.oversize⟩
  | .offer _ _, .completing _ _ => ⟨t.taken, t.oversize + 1⟩
  | _, _ => t

/-- The monitor. -/
def trackTakes (s : State L) (_ : Action L) (s' : State L) (t : Takes) : Takes :=
  countTakes s.worker.pc s'.worker.pc t

/-- The steps of a generation, monitored. -/
abbrev takingStep (x : Exporter L) := monitored (GenerationStep.step x) trackTakes

/-- A worker that stays where it is takes nothing. -/
theorem countTakes_same (pc : WorkerPc L) (t : Takes) : countTakes pc pc t = t := by
  cases pc <;> rfl

/-! ## The account of an assembly -/

/-- Every record taken is in the batch behind its first one, is held, or was dropped. -/
structure TakeLaw (x : Exporter L) (pc : WorkerPc L) (t : Takes) : Prop where
  account : ∀ b, assemblyOf pc = some b → t.taken + 1 = b.batch.length + held pc + t.oversize
  bound : t.taken < x.config.maxBatchRecords + t.oversize

/-- A step to another place of the same assembly. -/
theorem TakeLaw.go {pc pc' : WorkerPc L} {t : Takes} (h : TakeLaw x pc t)
    (hcount : countTakes pc pc' t = t)
    (ha : ∀ b, assemblyOf pc' = some b → assemblyOf pc = some b ∧ held pc' = held pc) :
    TakeLaw x pc' (countTakes pc pc' t) := by
  rw [hcount]
  refine ⟨fun b hb => ?_, h.bound⟩
  obtain ⟨hsame, hheld⟩ := ha b hb
  rw [hheld]
  exact h.account b hsame

/-- A step to a place without an assembly. -/
theorem TakeLaw.leave {pc pc' : WorkerPc L} {t : Takes} (h : TakeLaw x pc t)
    (hcount : countTakes pc pc' t = t) (ha : assemblyOf pc' = none) :
    TakeLaw x pc' (countTakes pc pc' t) :=
  h.go hcount fun b hb => by rw [ha] at hb; cases hb

/-- Entering `try_receive` stays with the assembly of the site. -/
theorem assemblyOf_tryReceive (input : LaneQueues L) (site : Site) :
    assemblyOf (tryReceive input site) = siteAssembly site ∧ held (tryReceive input site) = 0 := by
  unfold tryReceive
  split <;> exact ⟨rfl, rfl⟩

/-- Nothing is taken or dropped on the way into it. -/
theorem countTakes_tryReceive (pc : WorkerPc L) (input : LaneQueues L) (site : Site) (t : Takes) :
    countTakes pc (tryReceive input site) t = t := by
  unfold tryReceive
  split <;> cases pc <;> rfl

/-- Entering `try_receive`. -/
theorem TakeLaw.receive {pc : WorkerPc L} {t : Takes} (h : TakeLaw x pc t) (input : LaneQueues L)
    {site : Site} (hheld : held pc = 0)
    (hsite : ∀ b, siteAssembly site = some b → assemblyOf pc = some b) :
    TakeLaw x (tryReceive input site) (countTakes pc (tryReceive input site) t) := by
  obtain ⟨ha, hr⟩ := assemblyOf_tryReceive input site
  refine h.go (countTakes_tryReceive _ _ _ _) fun b hb => ⟨hsite b (ha.symm.trans hb), ?_⟩
  rw [hr, hheld]

/-- A record is taken. -/
theorem TakeLaw.take {pc pc' : WorkerPc L} {t : Takes} {b : Assembly} (h : TakeLaw x pc t)
    (hb : assemblyOf pc = some b) (hheld : held pc = 0)
    (hroom : b.batch.length < x.config.maxBatchRecords)
    (hcount : countTakes pc pc' t = ⟨t.taken + 1, t.oversize⟩)
    (hb' : assemblyOf pc' = some b) (hheld' : held pc' = 1) :
    TakeLaw x pc' (countTakes pc pc' t) := by
  have haccount := h.account b hb
  rw [hcount]
  refine ⟨fun c hc => ?_, ?_⟩
  · obtain rfl := Option.some.inj (hb'.symm.trans hc)
    dsimp only
    omega
  · dsimp only
    omega

/-- The worker's steps. -/
theorem TakeLaw.worker {t : Takes} {o : Oracle} {w w' : World L} {k k' : Worker L}
    (hpos : 0 < x.config.maxBatchRecords) (hl : pcLimits x k.pc) (h : TakeLaw x k.pc t)
    (hm : WorkerMove x o w k w' k') : TakeLaw x k'.pc (countTakes k.pc k'.pc t) := by
  have hroom : ∀ {site : Site} {b : Assembly}, siteLimits x site → siteAssembly site = some b →
      b.batch.length < x.config.maxBatchRecords := by
    intro site b hlimits hb
    cases site <;> cases hb <;> exact hlimits.room
  cases hm
  case first r ho hpc =>
    rw [hpc]
    refine ⟨fun b hb => ?_, hpos⟩
    obtain rfl := Option.some.inj hb
    rfl
  case assembleCarried b r pending hlen hp hpc =>
    rw [hpc] at h ⊢
    exact h.take rfl rfl hlen rfl rfl rfl
  case pop site log input hi hpc =>
    rw [hpc] at h hl ⊢
    cases hsite : siteAssembly site with
    | none =>
      refine h.leave ?_ hsite
      simp only [countTakes, hsite, Option.isSome_none, Bool.false_eq_true, if_false, Nat.add_zero]
    | some b =>
      refine h.take hsite rfl (hroom hl hsite) ?_ hsite ?_
      · simp only [countTakes, hsite, Option.isSome_some, if_true]
      · simp only [held, hsite, Option.isSome_some, if_true]
  case offerOversize b r ho hpc =>
    rw [hpc] at h ⊢
    have haccount := h.account b rfl
    refine ⟨fun c hc => ?_, Nat.lt_succ_of_lt h.bound⟩
    obtain rfl := Option.some.inj hc
    simp only [countTakes, held] at haccount ⊢
    omega
  case offerFits b r ho hf hpc =>
    rw [hpc] at h ⊢
    have haccount := h.account b rfl
    refine ⟨fun c hc => ?_, h.bound⟩
    obtain rfl := Option.some.inj hc
    simp only [countTakes, held, addRecord, List.length_append, List.length_singleton]
      at haccount ⊢
    omega
  case release site log hpc =>
    rw [hpc] at h ⊢
    cases site with
    | nextDraining b | nextPolled b | nextWoken b => exact h.go rfl fun c hc => ⟨hc, rfl⟩
    | firstDraining | receive | exitCheck => exact h.leave rfl rfl
  case drain d hpc | take d i todo detached lane hlane hpc | detach d detached hpc =>
    rw [hpc] at h ⊢
    cases d with
    | boundary => exact h.leave rfl rfl
    | receiving site => exact h.go rfl fun c hc => ⟨hc, rfl⟩
  case popNone site hi hpc =>
    rw [hpc] at h ⊢
    cases site with
    | firstDraining => exact h.receive _ rfl fun c hc => by cases hc
    | nextPolled b => exact h.go rfl fun c hc => ⟨hc, rfl⟩
    | _ => exact h.leave rfl rfl
  case chooseReceive site hp hs hpc =>
    rw [hpc] at h ⊢
    refine h.receive _ rfl fun c hc => ?_
    rw [hs] at hc
    split at hc <;> cases hc
  case assembleReceive b site hlen hp hs hpc =>
    rw [hpc] at h ⊢
    refine h.receive _ rfl fun c hc => ?_
    rw [hs] at hc
    split at hc <;> exact hc
  case pollReady wait c cells hr hpc =>
    rw [hpc] at h ⊢
    cases wait with
    | receive => cases c <;> exact h.receive _ rfl fun b hb => by cases hb
    | assembly b =>
      cases c with
      | records => exact h.receive _ rfl fun c hc => hc
      | _ => exact h.leave rfl rfl
    | _ => exact h.leave rfl rfl
  case pollNext wait c cells hr hpc =>
    rw [hpc] at h ⊢
    cases wait with
    | assembly b => exact h.go rfl fun c hc => ⟨hc, rfl⟩
    | _ => exact h.leave rfl rfl
  case suspend wait hpc | wake wait hpc =>
    rw [hpc] at h ⊢
    cases wait with
    | assembly b => exact h.go rfl fun c hc => ⟨hc, rfl⟩
    | _ => exact h.leave rfl rfl
  case completed resume hpc | ignored resume r rest hc hpc | complete resume r rest t hc hpc
      | notifyProgress resume rest hpc =>
    rw [hpc] at h ⊢
    cases resume with
    | assemble b => exact h.go rfl fun c hc => ⟨hc, rfl⟩
    | _ => exact h.leave rfl rfl
  all_goals
    rename_i hpc
    rw [hpc] at h ⊢
    exact h.leave rfl rfl

/-- Every step keeps the account. -/
theorem TakeLaw.step {t : Takes} (hpos : 0 < x.config.maxBatchRecords)
    (hl : pcLimits x s.worker.pc) (h : TakeLaw x s.worker.pc t) (hm : Move x s a s') :
    TakeLaw x s'.worker.pc (trackTakes s a s' t) := by
  unfold trackTakes
  by_cases ha : ∀ o, a ≠ .worker o
  · rw [(untouched_of_move hm ha).worker, countTakes_same]
    exact h
  · cases hm with
    | worker hab hm => exact h.worker hpos hl hm
    | _ => exact (ha fun o hc => by cases hc).elim

/-- In every run an assembly has taken fewer records than a batch may hold, besides those it
dropped for their size. -/
theorem takeLaw (hv : x.config.validate = .ok ()) {ok : State L × Takes → Action L → Prop}
    {t : Takes} (h : ReachWhile (takingStep x) ok (State.init L, ⟨0, 0⟩) (s, t)) :
    TakeLaw x s.worker.pc t := by
  have hpos : 0 < x.config.maxBatchRecords := (Config.validate_limits hv).2.2.2.2.1
  refine h.invariant_using (I := fun p => TakeLaw x p.1.worker.pc p.2)
    (J := fun p => pcLimits x p.1.worker.pc) (fun p hp => ?_)
    ⟨(fun b hb => by cases hb), hpos⟩ fun p q a hl _ hp _ hs => ?_
  · have hrun : Reach (GenerationStep.step x) (State.init L) p.1 :=
      hp.unmonitored fun _ _ _ => trivial
    exact (limitLaw hv hrun).worker
  · obtain ⟨hstep, htrack⟩ := of_monitored hs
    rw [htrack]
    exact hp.step hpos hl (stepMove hstep)

/-! ## A bounded number of records -/

/-- Steps of a worker that is not offered an oversize record while it assembles a batch. -/
def smallOffers (x : Exporter L) (s : State L) (a : Action L) : Prop :=
  ∀ o b r, a = .worker o → s.worker.pc = .offer b r → isOversize x r = false

/-- An offered record is dropped only if it is oversize. -/
theorem isOversize_of_offer {o : Oracle} {w w' : World L} {k k' : Worker L} {b : Assembly}
    {r : MappedLog} {resume : Resume} {rest : List MappedLog} (hm : WorkerMove x o w k w' k')
    (hpc : k.pc = .offer b r) (hpc' : k'.pc = .completing resume rest) :
    isOversize x r = true := by
  cases hm
  case offerOversize b' r' ho hoffer =>
    rw [hoffer] at hpc
    cases hpc
    exact ho
  case offerFits | offerCarry => cases hpc'
  all_goals
    rename_i hother
    rw [hother] at hpc
    cases hpc

/-- Nothing else is counted as dropped. -/
theorem oversize_countTakes {pc pc' : WorkerPc L} {t : Takes} (h : t.oversize = 0)
    (hne : ∀ b r resume rest, pc = .offer b r → pc' ≠ .completing resume rest) :
    (countTakes pc pc' t).oversize = 0 := by
  unfold countTakes
  split
  · rfl
  · exact h
  · exact h
  · exact absurd rfl (hne _ _ _ _ rfl)
  · exact h

/-- Then nothing is dropped. -/
theorem oversize_of_smallOffers {t : Takes} (h : ReachWhile (takingStep x)
    (fun p => smallOffers x p.1) (State.init L, ⟨0, 0⟩) (s, t)) : t.oversize = 0 := by
  refine h.invariant (I := fun p => p.2.oversize = 0) rfl fun p q a hp hok hs => ?_
  obtain ⟨s', t'⟩ := q
  obtain ⟨hstep, htrack⟩ := of_monitored hs
  dsimp only at hstep htrack ⊢
  rw [htrack]
  refine oversize_countTakes hp fun b r resume rest hpc hpc' => ?_
  by_cases ha : ∀ o, a ≠ .worker o
  · rw [(untouched_of_move (stepMove hstep) ha).worker, hpc] at hpc'
    cases hpc'
  · cases stepMove hstep with
    | @worker o w' k' hab hm =>
      have ho := isOversize_of_offer hm hpc hpc'
      rw [hok o b r rfl hpc] at ho
      cases ho
    | _ => exact (ha fun o hc => by cases hc).elim

/-- As long as no oversize record is offered to a batch, an assembly takes fewer records from the
carry-over queue and the inbox than the batch may hold. -/
theorem assembly_takes_bounded (hv : x.config.validate = .ok ()) {t : Takes}
    (h : ReachWhile (takingStep x) (fun p => smallOffers x p.1) (State.init L, ⟨0, 0⟩) (s, t)) :
    t.taken < x.config.maxBatchRecords := by
  have hbound := (takeLaw hv h).bound
  rw [oversize_of_smallOffers h] at hbound
  exact hbound

/-- A check for such steps. -/
def smallCheck (x : Exporter L) (p : State L × Takes) : Action L → Bool
  | .worker _ =>
    match p.1.worker.pc with
    | .offer _ r => !isOversize x r
    | _ => true
  | _ => true

/-- Steps that pass it are such steps. -/
theorem smallOffers_of_check (p : State L × Takes) (a : Action L) (h : smallCheck x p a = true) :
    smallOffers x p.1 a := by
  intro o b r ha hpc
  subst ha
  simp only [smallCheck, hpc, Bool.not_eq_true'] at h
  exact h

/-- Records of the given lengths, submitted by one thread before the worker looks. -/
def submitMore (lengths : List ℕ) : List (Action ℕ) :=
  .spawn :: submitAlone 0 3 ++ lengths.flatMap fun n => .enter 0 n :: producerSteps 0 7

/-- Three records: the assembly takes two of them behind the first. -/
theorem assembly_takes_two : ∃ (s : State ℕ) (t : Takes),
    ReachWhile (takingStep sample) (fun p => smallOffers sample p.1) (State.init ℕ, ⟨0, 0⟩) (s, t) ∧
      t.taken = 2 ∧ t.taken < sample.config.maxBatchRecords := by
  obtain ⟨⟨s, t⟩, hs, ht⟩ := exists_reach_of_replay (takingStep sample)
    (smallOffers_of_check (x := sample)) (State.init ℕ, ⟨0, 0⟩) (submitMore [4, 5] ++ lateSteps 22)
    (fun p => decide (p.2.taken = 2)) (by decide +kernel)
  exact ⟨s, t, hs, of_decide_eq_true ht, assembly_takes_bounded (by decide +kernel) hs⟩

/-- Whether a batch of one record waits while five records were taken. -/
def heldBack (p : State ℕ × Takes) : Bool :=
  decide (p.2.taken = 5) &&
    (assemblyOf p.1.worker.pc).any fun b : Assembly => decide (b.batch.length = 1)

/-- Behind a first record stand five that no request can hold. The assembly takes all of them,
more than a batch may hold, while its batch of one record waits, although the deadline has passed
all along. -/
theorem assembly_takes_oversize : ∃ (s : State ℕ) (t : Takes) (b : Assembly),
    ReachWhile (takingStep sample) anyStep (State.init ℕ, ⟨0, 0⟩) (s, t) ∧
      assemblyOf s.worker.pc = some b ∧ b.batch.length = 1 ∧
      ¬ t.taken ≤ sample.config.maxBatchRecords := by
  obtain ⟨⟨s, t⟩, hs, ht⟩ := exists_reach (takingStep sample) (State.init ℕ, ⟨0, 0⟩)
    (submitMore [100, 100, 100, 100, 100] ++ lateSteps 42) heldBack (by decide +kernel)
  obtain ⟨htaken, hbatch⟩ := (Bool.and_eq_true _ _).mp ht
  obtain ⟨b, hb, hlen⟩ := (Option.any_eq_true _ _).mp hbatch
  refine ⟨s, t, b, hs, hb, of_decide_eq_true hlen, ?_⟩
  rw [of_decide_eq_true htaken]
  decide

end EdenLogger.AssemblyTakes
