import EdenLogger.RecordFlow

/-!
# Resolution and completion

The worker first counts the outcome of a batch part, or of an oversize record,
and then completes its tickets one by one. The counters run ahead of the
completions by the records in between, less those of a partial success whose
rejected part is still to be added, and the published ticket is the watermark
of the completions.
-/

namespace EdenLogger.Completion

open MachineWord WakeUpPermit ExporterLanes LogCollector CompletionTracking Watermark
open GenerationState GenerationStep GenerationMoves GenerationFrames RecordFlow RunRules

variable {L : Type} {x : Exporter L} {s s' : State L} {a : Action L}

/-- The collector accounts for every record of an acknowledged request. -/
def HonestReply (k : Worker L) (o : Oracle) : Prop :=
  ∀ e accepted rejected, k.pc = .awaitReply e → o.reply = .ok accepted rejected →
    accepted + rejected = e.records.length

/-- Steps in which the collector accounts for every record. -/
def honest (s : State L) (a : Action L) : Prop := ∀ o, a = .worker o → HonestReply s.worker o

/-- A check for honest steps. -/
def honestCheck (s : State L) : Action L → Bool
  | .worker o =>
    match s.worker.pc, o.reply with
    | .awaitReply e, .ok accepted rejected => decide (accepted + rejected = e.records.length)
    | _, _ => true
  | _ => true

/-- A step that passes the check is honest. -/
theorem honest_of_check (s : State L) (a : Action L) (h : honestCheck s a = true) : honest s a := by
  intro o ha e accepted rejected hpc hr
  subst ha
  simp only [honestCheck, hpc, hr] at h
  exact of_decide_eq_true h

/-- Records whose outcome is counted and whose tickets are not completed. -/
def settled (s : State L) : List MappedLog := (held s.worker.pc).settled

/-- Records with an outcome that is not in the counters yet. -/
def uncounted (s : State L) : ℕ := (held s.worker.pc).uncounted

/-- Only between the two additions of a partial success is anything missing. -/
theorem uncounted_place (pc : WorkerPc L) (h : (held pc).uncounted ≠ 0) :
    ∃ e rejected, pc = .countRejected e rejected := by
  cases pc
  case countRejected e rejected => exact ⟨e, rejected, rfl⟩
  case take | poll | parked | completing | notifyProgress => exact absurd (by simp [held]) h
  all_goals exact absurd rfl h

/-- Records counted as exported or rejected. -/
def counted (w : World L) : ℕ := w.metrics.exported + w.metrics.rejected

/-- Records counted, or resolved and to be counted next. -/
def resolvedCount (w : World L) (k : Worker L) : ℕ := counted w + (held k.pc).uncounted

/-- What a worker step does to outcomes and completions: nothing, resolve some
records, or complete one of them. -/
theorem worker_settle {o : Oracle} {w w' : World L} {k k' : Worker L}
    (hm : WorkerMove x o w k w' k') :
    (w'.history.resolved = w.history.resolved ∧ w'.history.completed = w.history.completed ∧
        (held k'.pc).settled = (held k.pc).settled ∧ resolvedCount w' k' = resolvedCount w k) ∨
      ((held k.pc).settled = [] ∧ w'.history.completed = w.history.completed ∧
        (∃ outcome, w'.history.resolved = w.history.resolved ++
          (held k'.pc).settled.map fun r => (r, outcome)) ∧
        (HonestReply k o → resolvedCount w' k' = resolvedCount w k + (held k'.pc).settled.length)) ∨
      ∃ r, (held k.pc).settled = r :: (held k'.pc).settled ∧
        w'.history.resolved = w.history.resolved ∧
        w'.history.completed = w.history.completed ++ [r.ticket] ∧
        resolvedCount w' k' = resolvedCount w k := by
  unfold resolvedCount
  cases hm
  case detach d detached hpc =>
    refine Or.inl ⟨rfl, rfl, ?_, ?_⟩
    all_goals
      dsimp only
      rw [hpc, held_drainNext]
      rfl
  case popNone site hi hpc =>
    refine Or.inl ⟨rfl, rfl, ?_, ?_⟩
    all_goals
      dsimp only
      rw [hpc]
      rcases held_receivedNone k.input site with h | h <;> rw [h] <;> rfl
  case release site log hpc =>
    refine Or.inl ⟨rfl, rfl, ?_, ?_⟩
    all_goals
      rw [hpc]
      rcases held_received k (mapLog x o.now log) site with ⟨h, -⟩ | ⟨-, h, -⟩ <;> rw [h] <;> rfl
  case chooseReceive hp hs hpc =>
    refine Or.inl ⟨rfl, rfl, ?_, ?_⟩
    all_goals
      dsimp only
      rw [hpc, held_tryReceive]
      rfl
  case assembleReceive hl hp hs hpc =>
    refine Or.inl ⟨rfl, rfl, ?_, ?_⟩
    all_goals
      dsimp only
      rw [hpc, held_tryReceive]
      rfl
  case pollReady wait c cells hr hpc =>
    have hh : (pollCell w o c).2.history = w.history := by cases c <;> rfl
    have hc : counted (dropWaits (pollCell w o c).2) = counted w := by cases c <;> rfl
    refine Or.inl ⟨congrArg History.resolved hh, congrArg History.completed hh, ?_, ?_⟩
    · rw [hpc]
      rcases held_waitReady k c wait with h | ⟨-, h⟩
      · rw [h]
        rfl
      · rw [h]
        exact (waitHolding_settled wait).symm
    · rw [hc, hpc]
      rcases held_waitReady k c wait with h | ⟨-, h⟩
      · rw [h]
        rfl
      · rw [h]
        exact congrArg (counted w + ·) (waitHolding_uncounted wait).symm
  case pollNext wait c cells hr hpc =>
    have hh : (pollCell w o c).2.history = w.history := by cases c <;> rfl
    have hc : counted (pollCell w o c).2 = counted w := by cases c <;> rfl
    exact Or.inl ⟨congrArg History.resolved hh, congrArg History.completed hh, by rw [hpc]; rfl,
      by rw [hc, hpc]; rfl⟩
  case completed resume hpc =>
    refine Or.inl ⟨rfl, rfl, ?_, ?_⟩
    · dsimp only
      rw [hpc, held_resumePc]
      exact resumeHolding_settled resume
    · dsimp only
      rw [hpc, held_resumePc]
      rfl
  case firstOversize r ho hpc =>
    refine Or.inr (Or.inl ⟨by rw [hpc]; rfl, rfl, ⟨.oversize, rfl⟩, fun _ => ?_⟩)
    simp only [hpc, counted, rejectOversize, held, resumeHolding, List.length_singleton]
    omega
  case offerOversize a r ho hpc =>
    refine Or.inr (Or.inl ⟨by rw [hpc]; rfl, rfl, ⟨.oversize, rfl⟩, fun _ => ?_⟩)
    simp only [hpc, counted, rejectOversize, held, resumeHolding, List.length_singleton]
    omega
  case acknowledged e accepted hr hpc =>
    refine Or.inr (Or.inl ⟨by rw [hpc]; rfl, rfl, ⟨.acknowledged, rfl⟩, fun _ => ?_⟩)
    simp only [hpc, counted, countBatch, settle, held, resumeHolding]
    omega
  case partialSuccess e accepted rejected hr hn hpc =>
    refine Or.inr (Or.inl ⟨by rw [hpc]; rfl, rfl, ⟨.partialSuccess, rfl⟩, fun hh => ?_⟩)
    have := hh e accepted rejected hpc hr
    simp only [hpc, counted, settle, held]
    omega
  case countRejected e rejected hpc =>
    refine Or.inl ⟨rfl, rfl, by rw [hpc]; rfl, ?_⟩
    simp only [hpc, counted, countRejected, countBatch, held, resumeHolding]
    omega
  case rejectedAlone e hr hl hpc =>
    refine Or.inr (Or.inl ⟨by rw [hpc]; rfl, rfl, ⟨.invalidPayload, rfl⟩, fun _ => ?_⟩)
    simp only [hpc, counted, settle, held, resumeHolding]
    omega
  case ignored resume r rest hc hpc =>
    exact Or.inr (Or.inr ⟨r, by rw [hpc]; rfl, rfl, rfl, by rw [hpc]; rfl⟩)
  case complete resume r rest t hc hpc =>
    exact Or.inr (Or.inr ⟨r, by rw [hpc]; rfl, rfl, rfl, by rw [hpc]; rfl⟩)
  all_goals
    rename_i hpc
    exact Or.inl ⟨rfl, rfl, by rw [hpc]; rfl, by rw [hpc]; rfl⟩

/-- The records with an outcome are the completed ones and the settled ones. -/
def ResolvedLaw (s : State L) : Prop :=
  s.world.history.resolved.map (fun p => p.1.ticket) =
    s.world.history.completed ++ (settled s).map MappedLog.ticket

/-- The resolved law is kept by every step. -/
theorem ResolvedLaw.step (h : ResolvedLaw s) (hm : Move x s a s') : ResolvedLaw s' := by
  refine law_of_worker (I := fun past k => past.resolved.map (fun p => p.1.ticket) =
    past.completed ++ (held k.pc).settled.map MappedLog.ticket) (fun _ _ _ _ _ h => h) ?_ h hm
  intro o w' k' hm
  unfold ResolvedLaw settled at h
  rcases worker_settle hm with ⟨hr, hc, hs, -⟩ | ⟨hs, hc, ⟨outcome, hr⟩, -⟩ | ⟨r, hs, hr, hc, -⟩
  · rw [hr, hc, hs]
    exact h
  · rw [hs, List.map_nil, List.append_nil] at h
    rw [hr, hc, List.map_append, h, List.map_map]
    rfl
  · rw [hs, List.map_cons] at h
    rw [hr, hc, h, List.append_assoc]
    rfl

/-- The resolved law holds in every run. -/
theorem resolvedLaw {ok : State L → Action L → Prop}
    (h : ReachWhile (step x) ok (State.init L) s) : ResolvedLaw s :=
  invariant_of_moves (I := ResolvedLaw) rfl (fun _ _ _ hi _ hm => hi.step hm) h

/-- Every resolved record is counted once, as exported or as rejected. Between
the two additions of a partial success its rejected part is still missing. -/
def CountLaw (s : State L) : Prop :=
  resolvedCount s.world s.worker = s.world.history.resolved.length

/-- The count law is kept by every honest step. -/
theorem CountLaw.step (h : CountLaw s) (hok : honest s a) (hm : Move x s a s') : CountLaw s' := by
  unfold CountLaw at h ⊢
  cases hm with
  | producer hi hm =>
    have hf := producer_frame hm
    simp only [resolvedCount, counted, hf.exported, hf.rejected]
    rw [hf.history]
    exact h
  | @worker o w' k' ha hm =>
    dsimp only
    rcases worker_settle hm with ⟨hr, -, -, hc⟩ | ⟨-, -, ⟨outcome, hr⟩, hc⟩ | ⟨r, -, hr, -, hc⟩
    · rw [hr, hc]
      exact h
    · rw [hr, hc (hok o rfl), List.length_append, List.length_map, h]
    · rw [hr, hc]
      exact h
  | flush hj hm =>
    rw [(flush_world hm).1]
    exact h
  | @control op rest hp hr =>
    have hf := controlStep_frame s.world s.control op
    obtain ⟨_, _, hh⟩ := hf.history
    simp only [resolvedCount, counted, hf.exported, hf.rejected, hh]
    exact h
  | _ => exact h

/-- The count law holds in every run with honest answers. -/
theorem countLaw (h : ReachWhile (step x) honest (State.init L) s) : CountLaw s :=
  invariant_of_moves (I := CountLaw) rfl (fun _ _ _ hi hok hm => hi.step hok hm) h

/-- Records counted as exported or rejected, or about to be counted, are
completed, or about to be completed. -/
theorem counted_eq (h : ReachWhile (step x) honest (State.init L) s) :
    counted s.world + uncounted s =
      s.world.history.completed.length + (settled s).length := by
  have hr := congrArg List.length (resolvedLaw h)
  rw [List.length_map, List.length_append, List.length_map] at hr
  rw [← hr]
  exact countLaw h

/-- The tracker is exact, and its watermark is published. -/
structure TrackerLaw (s : State L) : Prop where
  /-- The tracker knows the completed tickets. -/
  exact : Exact s.worker.completions s.world.history.completed
  /-- The published ticket is the tracker's watermark. -/
  published : s.world.completedTicket = s.worker.completions.watermark

/-- What a worker step does to the tracker: nothing, or complete a ticket. -/
theorem worker_tracker {o : Oracle} {w w' : World L} {k k' : Worker L}
    (hm : WorkerMove x o w k w' k') :
    (w'.history.completed = w.history.completed ∧ k'.completions = k.completions ∧
        w'.completedTicket = w.completedTicket) ∨
      ∃ r ∈ (held k.pc).settled, w'.history.completed = w.history.completed ++ [r.ticket] ∧
        ((k.completions.complete r.ticket = none ∧ k'.completions = k.completions ∧
            w'.completedTicket = w.completedTicket) ∨
          (k.completions.complete r.ticket = some k'.completions ∧
            w'.completedTicket = k'.completions.watermark)) := by
  cases hm
  case release site log hpc => cases site <;> exact Or.inl ⟨rfl, rfl, rfl⟩
  case pollReady wait c cells hr hpc => cases c <;> cases wait <;> exact Or.inl ⟨rfl, rfl, rfl⟩
  case pollNext wait c cells hr hpc => cases c <;> exact Or.inl ⟨rfl, rfl, rfl⟩
  case ignored resume r rest hc hpc =>
    exact Or.inr ⟨r, by rw [hpc]; exact List.mem_cons_self, rfl, Or.inl ⟨hc, rfl, rfl⟩⟩
  case complete resume r rest t hc hpc =>
    exact Or.inr ⟨r, by rw [hpc]; exact List.mem_cons_self, rfl, Or.inr ⟨hc, rfl⟩⟩
  all_goals exact Or.inl ⟨rfl, rfl, rfl⟩

/-- The tracker law is kept by every step of a conserving state. -/
theorem TrackerLaw.step (h : TrackerLaw s) (hc : Conserved s) (hm : Move x s a s') :
    TrackerLaw s' := by
  cases hm with
  | producer hi hm =>
    have hf := producer_frame hm
    refine ⟨?_, hf.completedTicket.trans h.published⟩
    dsimp only
    rw [hf.history]
    exact h.exact
  | worker ha hm =>
    rcases worker_tracker hm with ⟨hd, hk, hp⟩ | ⟨r, hr, hd, hcase⟩
    · refine ⟨?_, ?_⟩ <;> dsimp only
      · rw [hd, hk]
        exact h.exact
      · rw [hp, hk]
        exact h.published
    · have hmem : r.ticket ∈ holdingTickets s.worker ++ s.world.history.completed := by
        refine List.mem_append_left _ (List.mem_append_right _ (List.mem_map_of_mem ?_))
        exact List.mem_append_right _ (List.mem_append_right _ (List.mem_append_right _ hr))
      obtain ⟨-, hle⟩ := hc.worker_range hmem
      rcases hcase with ⟨hn, hk, hp⟩ | ⟨hs, hp⟩
      · refine ⟨?_, ?_⟩ <;> dsimp only
        · rw [hd, hk]
          exact h.exact.complete_none (hle.trans hc.bound) hn
        · rw [hp, hk]
          exact h.published
      · refine ⟨?_, hp⟩
        dsimp only
        rw [hd]
        exact h.exact.complete_some (hle.trans hc.bound) hs
  | flush hj hm =>
    rw [(flush_world hm).1]
    exact ⟨h.exact, h.published⟩
  | @control op rest hp hr =>
    have hf := controlStep_frame s.world s.control op
    obtain ⟨_, _, hh⟩ := hf.history
    refine ⟨?_, hf.completedTicket.trans h.published⟩
    dsimp only
    rw [hh]
    exact h.exact
  | _ => exact ⟨h.exact, h.published⟩

/-- The tracker law holds in every run. -/
theorem trackerLaw {ok : State L → Action L → Prop}
    (h : ReachWhile (step x) ok (State.init L) s) : TrackerLaw s :=
  invariant_of_moves_using (I := TrackerLaw) (fun _ => conserved) ⟨exact_new, rfl⟩
    (fun _ _ _ hc _ hi _ hm => hi.step hc hm) h

/-- Everything up to the published ticket is completed. -/
theorem TrackerLaw.completed_of_le (h : TrackerLaw s) {t : ℕ} (hpos : 0 < t)
    (ht : t ≤ s.world.completedTicket) : t ∈ s.world.history.completed :=
  h.exact.covered t hpos (h.published ▸ ht)

/-- A completed record has an outcome. -/
theorem ResolvedLaw.outcome (h : ResolvedLaw s) {t : ℕ} (ht : t ∈ s.world.history.completed) :
    ∃ r outcome, r.ticket = t ∧ (r, outcome) ∈ s.world.history.resolved := by
  have hm : t ∈ s.world.history.resolved.map fun p => p.1.ticket := by
    rw [h]
    exact List.mem_append_left _ ht
  obtain ⟨⟨r, outcome⟩, hp, rfl⟩ := List.mem_map.mp hm
  exact ⟨r, outcome, rfl, hp⟩

end EdenLogger.Completion
