import EdenLogger.AdmissionClaims

/-!
# What a rejected record would not have fitted

With no release in between, what is granted is given up only by a submission
that finds no slot, and slots run out only when all of them are taken for
good. So a queue that refuses a slot ends up with all slots taken. A queue
that refuses bytes ends up so too, or with too many bytes for the record: its
own, and those of failed claims that the refused one still found added.
-/

namespace EdenLogger.RejectedSubmissions

open MachineWord WakeUpPermit ExporterLanes LogCollector GenerationState GenerationStep
open GenerationMoves GenerationFrames ListCells LaneTable LaneOwnership RecordFlow
open CapacityAccount QueueAccounting AdmissionClaims RunRules

variable {L : Type} {x : Exporter L} {s s' : State L} {a : Action L}

/-- A step of the generation that releases no record and wraps no gauge. -/
structure Undisturbed (x : Exporter L) (s : State L) (a : Action L) : Prop where
  /-- No optimistic addition wraps its gauge. -/
  fits : NoWrap x s a
  /-- The worker takes no record out of the inbox and finishes no release. -/
  unreleased : ∀ o, a = .worker o → releases s.worker = none

/-- A thread gives up what it was granted by pushing it, or as bytes for which
there is no slot. -/
theorem producer_granted {i : ℕ} {w w' : World L} {p p' : Producer L}
    (hm : ProducerMove x i w p w' p') (m : Measure) (q : QueueKind) :
    (laneRecords w'.lanes = laneRecords w.lanes ∧ grantedOf m q p ≤ grantedOf m q p') ∨
      (∃ log : QueuedLog L, (laneRecords w'.lanes).Perm (log :: laneRecords w.lanes) ∧
        grantedOf m q p = weightIn m q log) ∨
      m = .bytes ∧ ∃ r, p.pc = .returnBytes r q := by
  rcases producer_account hm m q 0 0 with ⟨hl, ha⟩ | ⟨log, hl, -, hp, -⟩
  · simp only [Nat.zero_add] at ha
    cases ha with
    | same hc hg hf | grant h hk hc hg hf | overshoot h hk hc hg hf | undo hk hc hg hf =>
      dsimp only at hg
      exact Or.inl ⟨hl, by omega⟩
    | giveBack hk hc hg hf =>
      unfold returns at hk
      split at hk
      case h_1 hpc =>
        cases hk
        exact Or.inl ⟨hl, by simp only [grantedOf, hpc]; exact Nat.zero_le _⟩
      case h_2 hpc =>
        cases hk
        exact Or.inr (Or.inr ⟨rfl, _, hpc⟩)
      case h_3 hpc =>
        cases hk
        exact Or.inl ⟨hl, by simp only [grantedOf, hpc]; exact Nat.zero_le _⟩
      case h_4 => cases hk
  · exact Or.inr (Or.inl ⟨log, hl, hp⟩)

/-- Without releases a total granted shrinks only by bytes for which there is no slot. -/
theorem granted_step (ho : LanesOwned s) (hm : Move x s a s')
    (hr : s'.world.history.gaugesReset = false)
    (hfree : ∀ o, a = .worker o → releases s.worker = none)
    (m : Measure) (q : QueueKind) :
    (account s m q).granted ≤ (account s' m q).granted ∨
      m = .bytes ∧ ∃ p ∈ s.threads, ∃ r, p.pc = .returnBytes r q := by
  have hs := account_step ho hm hr m q
  cases hm with
  | @producer i p p' w' hi hm =>
    obtain ⟨n, hn, hset⟩ := sum_map_split (grantedOf m q) hi
    rcases producer_granted hm m q with ⟨hl, hle⟩ | ⟨log, hl, hw⟩ | ⟨hbytes, r, hpc⟩
    · have hq : queued w' s.worker = queued s.world s.worker := by
        unfold queued
        rw [hl]
      refine Or.inl ?_
      simp only [account, grantedIn, hn, hset, hq]
      omega
    · have hp : (queued w' s.worker).Perm (log :: queued s.world s.worker) := hl.append_right _
      refine Or.inl ?_
      simp only [account, grantedIn, hn, hset, heldIn_perm hp m q, heldIn_cons, hw]
      omega
    · exact Or.inr ⟨hbytes, p, List.mem_of_getElem? hi, r, hpc⟩
  | worker ha hm =>
    cases hs with
    | giveBack hk hc hg hf =>
      rw [subtracts, hfree _ rfl] at hk
      cases hk
    | same hc hg hf | grant h hk hc hg hf | overshoot h hk hc hg hf | undo hk hc hg hf =>
      exact Or.inl (by omega)
  | _ =>
    cases hs with
    | giveBack hk hc hg hf => cases hk
    | same hc hg hf | grant h hk hc hg hf | overshoot h hk hc hg hf | undo hk hc hg hf =>
      exact Or.inl (by omega)

/-- Every slot of a queue is granted. -/
def Full (x : Exporter L) (s : State L) (q : QueueKind) : Prop :=
  capacity x q ≤ (account s .records q).granted

/-- A submission that found no slot in a queue. -/
def Slotless (q : QueueKind) (p : Producer L) : Prop :=
  ∃ r, p.pc = .undoDepth r q ∨ p.pc = .returnBytes r q

/-- A failed claim of a slot is that of a slotless submission. -/
theorem slotless_of_failed {q : QueueKind} {threads : List (Producer L)}
    (h : 0 < failedIn .records q threads) : ∃ p ∈ threads, Slotless q p := by
  by_contra hn
  push Not at hn
  refine absurd (List.sum_eq_zero fun n hm => ?_) (Nat.ne_of_gt h)
  obtain ⟨p, hp, rfl⟩ := List.mem_map.mp hm
  have hno := hn p hp
  unfold failedOf
  split
  · rename_i hpc
    split
    · rename_i hq
      exact absurd ⟨_, Or.inl (hq ▸ hpc)⟩ hno
    · rfl
  · rename_i hm _
    cases hm
  · rfl

/-- A submission is refused a slot of a full queue. -/
theorem full_of_refused {q : QueueKind} (hs : (account s .records q).Sound (capacity x q))
    (hslot : ∀ p ∈ s.threads, Slotless q p → Full x s q)
    (h : ∀ n, claimAmount (gauge s.world .records q) (capacity x q) 1 ≠ .granted n) :
    Full x s q := by
  have hcap : capacity x q ≤ wordMax := limit_le x .records q
  have hlt := lt_of_not_granted hcap h
  by_cases hf : 0 < failedIn .records q s.threads
  · obtain ⟨p, hp, hslotless⟩ := slotless_of_failed hf
    exact hslot p hp hslotless
  · have hex := hs.exact
    simp only [account] at hex
    unfold Full
    simp only [account]
    omega

/-- Submissions without a slot belong to full queues. -/
structure Crowded (x : Exporter L) (s : State L) : Prop where
  hand : (held s.worker.pc).hand = []
  full : s.world.history.gaugesReset = false → ∀ q, ∀ p ∈ s.threads, Slotless q p → Full x s q

/-- A thread becomes slotless where it is refused a slot. -/
theorem producer_slotless {i : ℕ} {w w' : World L} {p p' : Producer L} {q : QueueKind}
    (hm : ProducerMove x i w p w' p') (h : Slotless q p') :
    Slotless q p ∨ ∀ n, claimAmount (gauge w .records q) (capacity x q) 1 ≠ .granted n := by
  obtain ⟨r, h⟩ := h
  cases hm
  case depthRefused r' q' hc hpc =>
    rcases h with h | h
    · cases h
    · cases h
      refine Or.inr fun n hn => ?_
      rw [QueueAccounting.gauge, hc] at hn
      cases hn
  case depthOvershot r' q' n' hc hpc =>
    rcases h with h | h
    · cases h
      refine Or.inr fun n hn => ?_
      rw [QueueAccounting.gauge, hc] at hn
      cases hn
    · cases h
  case undoDepth r' q' hpc =>
    rcases h with h | h
    · cases h
    · cases h
      exact Or.inl ⟨_, Or.inl hpc⟩
  case bytesRefused r' q' hc hpc | undoBytes r' q' hpc | returnBytes r' q' hpc =>
    cases q' <;> simp only [refuse] at h
    · split at h <;> rcases h with h | h <;> cases h
    · rcases h with h | h <;> cases h
  case push =>
    dsimp only at h
    split at h <;> rcases h with h | h <;> cases h
  all_goals rcases h with h | h <;> cases h

/-- Nobody outside the callback, or entering it, is slotless. -/
theorem not_slotless {q : QueueKind} {p : Producer L}
    (h : p.pc.outside = true ∨ ∃ log, p.pc = .entered log) : ¬ Slotless q p := by
  rintro ⟨r, hp | hp⟩ <;> rw [hp] at h <;> simp [ProducerPc.outside] at h

/-- The worker without a release keeps its hand. -/
theorem worker_hand {o : Oracle} {w w' : World L} {k k' : Worker L}
    (hm : WorkerMove x o w k w' k') (hf : releases k = none) (h : (held k.pc).hand = []) :
    (held k'.pc).hand = [] := by
  cases releaseMove hm with
  | keep hh hg hp hc => exact hh.trans h
  | pop hpc hi hw hk =>
    simp only [releases, hpc, hi, Option.map_some, reduceCtorEq] at hf
  | release hpc hw hk => exact hk
  | reset hpc hw hk =>
    rw [hk]
    rfl

/-- Undisturbed steps keep slotless submissions to full queues. -/
theorem Crowded.step (h : Crowded x s) (ho : LanesOwned s)
    (hsound : s.world.history.gaugesReset = false →
      ∀ q, (account s .records q).Sound (capacity x q))
    (ha : Undisturbed x s a) (hm : Move x s a s') : Crowded x s' := by
  have hfull : s'.world.history.gaugesReset = false → ∀ q, Full x s q → Full x s' q :=
    fun hr q hq => by
      rcases granted_step ho hm hr ha.unreleased .records q with hle | ⟨hm, -⟩
      · exact hq.trans hle
      · cases hm
  refine ⟨?_, fun hr q p hp hslot => hfull hr q ?_⟩
  · cases hm with
    | worker hab hm => exact worker_hand hm (ha.unreleased _ rfl) h.hand
    | _ => exact h.hand
  · have hr0 := gaugesReset_of_move hm hr
    have h0 := h.full hr0 q
    cases hm with
    | spawn =>
      rcases List.mem_append.mp hp with hp | hp
      · exact h0 p hp hslot
      · rw [List.mem_singleton] at hp
        subst hp
        exact absurd hslot (not_slotless (Or.inl rfl))
    | enter hi hpc hret =>
      rcases List.mem_or_eq_of_mem_set hp with hp | rfl
      · exact h0 p hp hslot
      · exact absurd hslot (not_slotless (Or.inr ⟨_, rfl⟩))
    | exit hi hpc =>
      rcases List.mem_or_eq_of_mem_set hp with hp | rfl
      · exact h0 p hp hslot
      · exact absurd hslot (not_slotless (Or.inl (by dsimp only; split <;> rfl)))
    | producer hi hm =>
      rcases List.mem_or_eq_of_mem_set hp with hp | rfl
      · exact h0 p hp hslot
      · rcases producer_slotless hm hslot with hslot | href
        · exact h0 _ (List.mem_of_getElem? hi) hslot
        · exact full_of_refused (hsound hr0 q) h0 href
    | _ => exact h0 p hp hslot

/-- What runs of undisturbed steps keep, from a state without submissions or a
release in progress. -/
theorem crowded {t : State L} (h0 : ReachWhile (step x) (NoWrap x) (State.init L) s)
    (hquiet : ∀ p ∈ s.threads, submitting p.pc = false) (hhand : (held s.worker.pc).hand = [])
    (h : ReachWhile (step x) (Undisturbed x) s t) : Crowded x t :=
  h.invariant_using (J := fun t => ReachWhile (step x) (NoWrap x) (State.init L) t)
    (fun t ht => h0.trans (ht.mono fun _ _ ha => ha.fits))
    ⟨hhand, fun _ q p hp hslot => by
      have := hquiet p hp
      obtain ⟨r, hpc | hpc⟩ := hslot <;> rw [hpc] at this <;> cases this⟩
    fun t u a hr _ hi ha hs => hi.step (lanesOwned hr)
      (fun hreset q => account_sound (fun _ _ ha => ha) hr hreset .records q) ha (stepMove hs)

/-- A run of undisturbed steps keeps what is granted of a queue's bytes, or its
slots are all taken. -/
theorem granted_run {t u : State L} (h0 : ReachWhile (step x) (NoWrap x) (State.init L) s)
    (hquiet : ∀ p ∈ s.threads, submitting p.pc = false) (hhand : (held s.worker.pc).hand = [])
    (ht : ReachWhile (step x) (Undisturbed x) s t) (hu : ReachWhile (step x) (Undisturbed x) t u)
    (hr : u.world.history.gaugesReset = false) (q : QueueKind) :
    (account t .records q).granted ≤ (account u .records q).granted ∧
      ((account t .bytes q).granted ≤ (account u .bytes q).granted ∨ Full x u q) := by
  have hinv := hu.invariant_using (I := fun u => u.world.history.gaugesReset = false →
      (account t .records q).granted ≤ (account u .records q).granted ∧
        ((account t .bytes q).granted ≤ (account u .bytes q).granted ∨ Full x u q))
    (J := fun u => LanesOwned u ∧ Crowded x u)
    (fun u hu => ⟨lanesOwned ((h0.trans (ht.mono fun _ _ ha => ha.fits)).trans
      (hu.mono fun _ _ ha => ha.fits)), crowded h0 hquiet hhand (ht.trans hu)⟩)
    (fun _ => ⟨Nat.le_refl _, Or.inl (Nat.le_refl _)⟩)
    fun v w a hJ _ hi ha hs hr => by
      have hm := stepMove hs
      have hr0 := gaugesReset_of_move hm hr
      obtain ⟨hrec, hbytes⟩ := hi hr0
      have hle : (account v .records q).granted ≤ (account w .records q).granted := by
        rcases granted_step hJ.1 hm hr ha.unreleased .records q with hle | ⟨hm, -⟩
        · exact hle
        · cases hm
      refine ⟨hrec.trans hle, ?_⟩
      rcases hbytes with hbytes | hfull
      · rcases granted_step hJ.1 hm hr ha.unreleased .bytes q with hb | ⟨-, p, hp, r, hpc⟩
        · exact Or.inl (hbytes.trans hb)
        · exact Or.inr ((hJ.2.full hr0 q p hp ⟨r, Or.inr hpc⟩).trans hle)
      · exact Or.inr (hfull.trans hle)
  exact hinv hr

/-- What is granted when all submissions have returned is held. -/
theorem granted_quiet (hquiet : ∀ p ∈ s.threads, submitting p.pc = false)
    (hhand : (held s.worker.pc).hand = []) (m : Measure) (q : QueueKind) :
    (account s m q).granted = heldIn m q (queued s.world s.worker) := by
  have hc := claimed_quiet m q hquiet
  rw [claimed_eq] at hc
  have hrel : releasing m q s.worker.pc = 0 := by
    cases m with
    | records => rfl
    | bytes =>
      simp only [releasing, hhand]
      rfl
  simp only [account]
  omega

/-- A record refused by a queue could not have been added to what the queue
holds once all submissions have returned: all slots are taken, or its bytes
exceed the budget together with the bytes held and the failed claims that the
refused claim found added. -/
theorem rejected_for_admitted {t u : State L} {q : QueueKind}
    (h0 : ReachWhile (step x) (NoWrap x) (State.init L) s)
    (hquiet : ∀ p ∈ s.threads, submitting p.pc = false) (hhand : (held s.worker.pc).hand = [])
    (ht : ReachWhile (step x) (Undisturbed x) s t) (hu : ReachWhile (step x) (Undisturbed x) t u)
    (hreturned : ∀ p ∈ u.threads, submitting p.pc = false)
    (hr : u.world.history.gaugesReset = false) :
    (∀ p ∈ t.threads, ∀ r, p.pc = .claimDepth r q →
      (∀ n, claimAmount (gauge t.world .records q) (capacity x q) 1 ≠ .granted n) →
      heldIn .records q (queued u.world u.worker) = capacity x q) ∧
    (∀ p ∈ t.threads, ∀ r, p.pc = .claimBytes r q →
      (∀ n, claimAmount (gauge t.world .bytes q) (byteCapacity x q) r.bytes ≠ .granted n) →
      heldIn .records q (queued u.world u.worker) = capacity x q ∨
        byteCapacity x q < heldIn .bytes q (queued u.world u.worker) +
          failedIn .bytes q t.threads + r.bytes) := by
  have hrt : ReachWhile (step x) (NoWrap x) (State.init L) t :=
    h0.trans (ht.mono fun _ _ ha => ha.fits)
  have hru := hrt.trans (hu.mono fun _ _ ha => ha.fits)
  have hcu := crowded h0 hquiet hhand (ht.trans hu)
  have hct := crowded h0 hquiet hhand ht
  have hr0 := gaugesReset_of_run hu hr
  obtain ⟨hrec, hbytes⟩ := granted_run h0 hquiet hhand ht hu hr q
  have hrecords := granted_quiet hreturned hcu.hand .records q
  have hb := granted_quiet hreturned hcu.hand .bytes q
  have hle := (account_sound (fun _ _ ha => ha) hru hr .records q).bounded
  have heq : Full x u q → heldIn .records q (queued u.world u.worker) = capacity x q :=
    fun hfull => by
      unfold Full at hfull
      change _ ≤ capacity x q at hle
      omega
  refine ⟨fun _ _ _ _ href => heq ?_, fun _ _ r _ href => ?_⟩
  · exact (full_of_refused (account_sound (fun _ _ ha => ha) hrt hr0 .records q)
      (hct.full hr0 q) href).trans hrec
  · rcases hbytes with hle' | hfull
    · have hlt : byteCapacity x q < gauge t.world .bytes q + r.bytes :=
        lt_of_not_granted (limit_le x .bytes q) href
      have hex := (account_sound (fun _ _ ha => ha) hrt hr0 .bytes q).exact
      simp only [account] at hex hle' hb
      refine Or.inr ?_
      omega
    · exact Or.inl (heq hfull)

/-! ## Concrete runs -/

/-- A budget of a hundred bytes. -/
def narrow : Exporter ℕ where
  config := { sampleConfig with normalQueueBytes := 100 }
  level := sample.level
  audience := sample.audience
  estimatedSizeBytes := sample.estimatedSizeBytes
  map := sample.map
  resource := sample.resource
  map_length := sample.map_length
  resource_length := sample.resource_length
  scope_length := sample.scope_length

/-- Whether a step is a thread's, and its optimistic addition fits a word. -/
def undisturbedCheck (x : Exporter ℕ) (s : State ℕ) (a : Action ℕ) : Bool :=
  match a with
  | .spawn | .enter _ _ => true
  | .producer i => (s.threads[i]?).all fun p => (asks p).all fun c =>
      decide (Fitting (limit x c.1 c.2.1) (gauge s.world c.1 c.2.1) c.2.2)
  | _ => false

/-- The check means what it says. -/
theorem undisturbed_of_check (x : Exporter ℕ) (s : State ℕ) (a : Action ℕ)
    (h : undisturbedCheck x s a = true) : Undisturbed x s a := by
  refine ⟨fun m q k => ?_, fun o ha => ?_⟩
  · rintro ⟨i, p, rfl, hi, hask⟩
    simp only [undisturbedCheck, hi, hask, Option.all_some] at h
    exact of_decide_eq_true h
  · subst ha
    cases h

/-- Sixty bytes are admitted and seventy overshoot the budget. -/
def crowdedRun : List (Action ℕ) :=
  [.spawn, .spawn, .spawn] ++ submitAlone 0 60 ++ .enter 1 70 :: producerSteps 1 3 ++
    .enter 2 30 :: producerSteps 2 2

/-- Thirty bytes more overshoot it too, and both are taken back. -/
def refusedRun : List (Action ℕ) := producerSteps 2 4 ++ producerSteps 1 3

/-- Whether the third thread is about to claim thirty bytes and finds no room. -/
def refusedThirty (s : State ℕ) : Bool :=
  decide ((s.threads[2]?).bind asks = some (.bytes, .normal, 30) ∧
    claimAmount (gauge s.world .bytes .normal) (byteCapacity narrow .normal) 30 = .overshot 160)

/-- Whether all submissions have returned and thirty bytes would fit. -/
def roomForThirty (s : State ℕ) : Bool :=
  decide ((∀ p ∈ s.threads, submitting p.pc = false) ∧
    heldIn .records .normal (queued s.world s.worker) < capacity narrow .normal ∧
    heldIn .bytes .normal (queued s.world s.worker) + 30 ≤ byteCapacity narrow .normal)

/-- A thread that asks for bytes is about to claim them. -/
theorem claimBytes_of_asks {p : Producer L} {q : QueueKind} {k : ℕ}
    (h : asks p = some (.bytes, q, k)) : ∃ r, p.pc = .claimBytes r q ∧ r.bytes = k := by
  unfold asks at h
  split at h
  · rename_i r q' hpc
    cases h
    exact ⟨r, hpc, rfl⟩
  · cases h
  · cases h

/-- Thirty bytes are refused next to sixty admitted ones, of a budget of a
hundred: the seventy that failed were still added. -/
theorem rejected_needlessly : ∃ t u : State ℕ,
    ReachWhile (step narrow) (Undisturbed narrow) (State.init ℕ) t ∧
    ReachWhile (step narrow) (Undisturbed narrow) t u ∧
    (∀ p ∈ u.threads, submitting p.pc = false) ∧ u.world.history.gaugesReset = false ∧
    ∃ p ∈ t.threads, ∃ r, p.pc = .claimBytes r .normal ∧
      (∀ n, claimAmount (gauge t.world .bytes .normal) (byteCapacity narrow .normal) r.bytes ≠
        .granted n) ∧
      heldIn .records .normal (queued u.world u.worker) < capacity narrow .normal ∧
      heldIn .bytes .normal (queued u.world u.worker) + r.bytes ≤ byteCapacity narrow .normal := by
  obtain ⟨t, ht, hp⟩ := exists_reach_of_replay (step narrow) (undisturbed_of_check narrow)
    (State.init ℕ) crowdedRun (fun t => refusedThirty t &&
      (replay (step narrow) (undisturbedCheck narrow) t refusedRun).any fun u =>
        roomForThirty u && decide (u.world.history.gaugesReset = false)) (by decide +kernel)
  rw [Bool.and_eq_true] at hp
  obtain ⟨hask, hclaim⟩ := of_decide_eq_true hp.1
  obtain ⟨u, hu, hroom⟩ := exists_reach_of_replay (step narrow) (undisturbed_of_check narrow)
    t refusedRun _ hp.2
  rw [Bool.and_eq_true] at hroom
  obtain ⟨hreturned, hslots, hbytes⟩ := of_decide_eq_true hroom.1
  obtain ⟨p, hi, hask⟩ := Option.bind_eq_some_iff.mp hask
  obtain ⟨r, hpc, hr⟩ := claimBytes_of_asks hask
  refine ⟨t, u, ht, hu, hreturned, of_decide_eq_true hroom.2, p, List.mem_of_getElem? hi, r, hpc,
    fun n hn => ?_, hslots, hr ▸ hbytes⟩
  rw [hr, hclaim] at hn
  cases hn

/-- The record of that run, with the seventy bytes it found added. -/
theorem rejected_for_admitted_thirty : ∃ u : State ℕ, Reachable narrow u ∧
    (heldIn .records .normal (queued u.world u.worker) = capacity narrow .normal ∨
      byteCapacity narrow .normal < heldIn .bytes .normal (queued u.world u.worker) + 70 + 30) := by
  obtain ⟨t, ht, hp⟩ := exists_reach_of_replay (step narrow) (undisturbed_of_check narrow)
    (State.init ℕ) crowdedRun (fun t => (refusedThirty t &&
      decide (failedIn .bytes .normal t.threads = 70)) &&
      (replay (step narrow) (undisturbedCheck narrow) t refusedRun).any fun u =>
        roomForThirty u && decide (u.world.history.gaugesReset = false)) (by decide +kernel)
  rw [Bool.and_eq_true, Bool.and_eq_true] at hp
  obtain ⟨hask, hclaim⟩ := of_decide_eq_true hp.1.1
  obtain ⟨u, hu, hroom⟩ := exists_reach_of_replay (step narrow) (undisturbed_of_check narrow)
    t refusedRun _ hp.2
  rw [Bool.and_eq_true] at hroom
  obtain ⟨p, hi, hask⟩ := Option.bind_eq_some_iff.mp hask
  obtain ⟨r, hpc, hr⟩ := claimBytes_of_asks hask
  have h := (rejected_for_admitted (x := narrow) .refl (by simp [State.init]) rfl ht hu
    (of_decide_eq_true hroom.1).1 (of_decide_eq_true hroom.2)).2 p (List.mem_of_getElem? hi) r hpc
    fun n hn => by
      rw [hr, hclaim] at hn
      cases hn
  rw [hr, of_decide_eq_true hp.1.2] at h
  exact ⟨u, ht.reach.trans hu.reach, h⟩

end EdenLogger.RejectedSubmissions
