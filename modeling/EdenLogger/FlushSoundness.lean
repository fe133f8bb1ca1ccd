import EdenLogger.Completion

/-!
# Ownership of records and exactness of flush

The laws put every ticket in exactly one place, and the counters ahead of the
completions by the records being completed. A flush that returns successfully
has seen the watermark at its target, so everything pushed before it began is
completed, wherever the reserved queue or a bisection reordered it.
-/

namespace EdenLogger.FlushSoundness

open MachineWord WakeUpPermit ExporterLanes LogCollector CompletionTracking Watermark
open GenerationState GenerationStep GenerationMoves GenerationFrames RecordFlow Completion RunRules
open ListCells

variable {L : Type} {x : Exporter L} {s s' : State L} {a : Action L}

/-- The worker has left its loop with a terminal failure and cleared the queues. -/
def hasCleared : WorkerPc L → Bool
  | .storeStopped (.terminal _ _) | .notifyStopped (.terminal _ _) | .reporting (.terminal _ _)
  | .finished (.terminal _ _) _ => true
  | _ => false

/-- Records are discarded only by the terminal exit. -/
def DiscardLaw (s : State L) : Prop :=
  s.world.history.discarded = [] ∨ hasCleared s.worker.pc = true

/-- The discard law is kept by every step. -/
theorem DiscardLaw.step (h : DiscardLaw s) (hm : Move x s a s') : DiscardLaw s' := by
  refine law_of_worker (I := fun past k => past.discarded = [] ∨ hasCleared k.pc = true)
    (fun _ _ _ _ _ h => h) ?_ h hm
  intro o w' k' hm
  unfold DiscardLaw at h
  cases hm
  case ledgerClear => exact Or.inr rfl
  case pollReady wait c cells hr hpc | pollNext wait c cells hr hpc =>
    rw [hpc] at h
    cases c <;> exact Or.inl (h.resolve_right (by simp [hasCleared]))
  case closedSeen hc hpc =>
    rw [hpc] at h
    exact Or.inl (h.resolve_right (by simp [hasCleared]))
  case storeStopped exit hpc | notifyStopped exit hpc | report exit hpc =>
    rw [hpc] at h
    cases exit <;> exact h
  all_goals
    rename_i hpc
    rw [hpc] at h
    exact Or.inl (h.resolve_right (by simp [hasCleared]))

/-- The discard law holds in every run. -/
theorem discardLaw {ok : State L → Action L → Prop}
    (h : ReachWhile (step x) ok (State.init L) s) : DiscardLaw s :=
  invariant_of_moves (I := DiscardLaw) (Or.inl rfl) (fun _ _ _ hi _ hm => hi.step hm) h

/-- Unique ownership. The tickets handed out are, each once, the ones taken
and not pushed, those of the records in lanes, detached, in the inbox, in the
worker's hand, in the carry-over queue, in the batch under assembly, in the
parts being exported and in the part being completed, the discarded ones, and
the completed ones. The outcome counters count the completed records and those
of the part being completed, where the rejected part of a partial success is
still missing between its two additions. Nothing is discarded before the
terminal exit. -/
theorem unique_ownership (h : ReachWhile (step x) honest (State.init L) s) :
    (located s).Perm (List.range' 1 s.world.nextTicket) ∧
      s.world.metrics.exported + s.world.metrics.rejected + uncounted s =
        s.world.history.completed.length + (settled s).length ∧
      (uncounted s ≠ 0 → ∃ e rejected, s.worker.pc = .countRejected e rejected) ∧
      (s.world.history.discarded = [] ∨ hasCleared s.worker.pc = true) :=
  ⟨(conserved h).located_perm, counted_eq h, uncounted_place s.worker.pc, discardLaw h⟩

/-- Two records are exported together and the collector rejects one of them. A
third one is too large for their batch and carried over, a fourth has its
ticket and is not pushed, and a fifth waits in its lane. -/
def countedRun : List (Action ℕ) :=
  [.spawn, .spawn] ++ submitAlone 0 3 ++ .enter 0 4 :: producerSteps 0 7 ++
    .enter 0 40 :: producerSteps 0 7 ++ .enter 1 3 :: producerSteps 1 5 ++ workerSteps 19 .fatal ++
    submitAlone 0 5 ++ workerSteps 1 (.ok 1 1)

/-- In that run every record is in a place of its own, and between the two
additions of the answer the counters include one of the two exported records. -/
theorem unique_ownership_counted :
    ∃ s : State ℕ, s.world.nextTicket = 5 ∧ taken s.threads = [4] ∧
      (queued s.world s.worker).map QueuedLog.ticket = [5] ∧
      s.worker.pending.map MappedLog.ticket = [3] ∧ (settled s).map MappedLog.ticket = [1, 2] ∧
      uncounted s = 1 ∧ (located s).Perm [1, 2, 3, 4, 5] ∧
      s.world.metrics.exported + s.world.metrics.rejected + uncounted s =
        s.world.history.completed.length + (settled s).length := by
  obtain ⟨s, hs, hp⟩ := exists_reach_of_replay (step sample) honest_of_check (State.init ℕ)
    countedRun
    (fun s => decide (s.world.nextTicket = 5 ∧ taken s.threads = [4] ∧
      (queued s.world s.worker).map QueuedLog.ticket = [5] ∧
      s.worker.pending.map MappedLog.ticket = [3] ∧ (settled s).map MappedLog.ticket = [1, 2] ∧
      uncounted s = 1))
    (by decide +kernel)
  obtain ⟨hn, ht, hq, hp, hd, hu⟩ := of_decide_eq_true hp
  obtain ⟨hl, hc, -⟩ := unique_ownership hs
  rw [hn] at hl
  exact ⟨s, hn, ht, hq, hp, hd, hu, hl, hc⟩

/-- The outcome counters run ahead of the completed tickets in a running
generation: right after the answer the record is exported and not completed. -/
theorem counted_before_completed :
    ∃ s : State ℕ, ReachWhile (step sample) honest (State.init ℕ) s ∧ s.aborted = false ∧
      s.worker.pc.isFinished = false ∧
      s.world.metrics.exported + s.world.metrics.rejected ≠ s.world.history.completed.length := by
  obtain ⟨s, hs, hp⟩ := exists_reach_of_replay (step sample) honest_of_check (State.init ℕ)
    countedRun
    (fun s => decide (s.aborted = false ∧ s.worker.pc.isFinished = false ∧
      s.world.metrics.exported + s.world.metrics.rejected ≠ s.world.history.completed.length))
    (by decide +kernel)
  exact ⟨s, hs, of_decide_eq_true hp⟩

/-! ## Flush calls -/

/-- The tickets a flush call stands for, and what its success says. -/
structure FlushLaw (s : State L) (c : FlushCall) : Prop where
  /-- What was pushed before the call lies within its target. -/
  within : ∀ t ∈ c.before, 0 < t ∧ t ≤ c.target
  /-- A successful call has seen its target completed. -/
  flushed : ∀ report, c.pc = .done report → report.status = .flushed →
    ∀ t, 0 < t → t ≤ c.target → t ∈ s.world.history.completed

/-- Completed tickets stay completed. -/
theorem completed_mono (hm : Move x s a s') {t : ℕ} (ht : t ∈ s.world.history.completed) :
    t ∈ s'.world.history.completed := by
  cases hm with
  | producer hi hm =>
    rw [(producer_frame hm).history]
    exact ht
  | worker ha hm =>
    rcases worker_tracker hm with ⟨hd, -⟩ | ⟨r, -, hd, -⟩ <;> dsimp only <;> rw [hd]
    · exact ht
    · exact List.mem_append_left _ ht
  | flush hj hm =>
    rw [(flush_world hm).1]
    exact ht
  | @control op rest hp hr =>
    obtain ⟨_, _, hh⟩ := (controlStep_frame s.world s.control op).history
    rw [hh]
    exact ht
  | _ => exact ht

/-- The flush law is kept by every step. -/
theorem FlushLaw.step (hc : Conserved s) (ht : TrackerLaw s) (h : ∀ c ∈ s.flushes, FlushLaw s c)
    (hm : Move x s a s') : ∀ c ∈ s'.flushes, FlushLaw s' c := by
  have hkeep : ∀ c ∈ s.flushes, FlushLaw s' c := fun c hc =>
    ⟨(h c hc).within, fun report hpc hs t hpos hle =>
      completed_mono hm ((h c hc).flushed report hpc hs t hpos hle)⟩
  cases hm with
  | beginFlush hcmd =>
    intro c hcm
    rcases List.mem_append.mp hcm with hcm | hcm
    · exact hkeep c hcm
    · rw [List.mem_singleton.mp hcm]
      exact ⟨fun t ht => hc.pushed_range ht, fun report hpc => by cases hpc⟩
  | @flush j c c' w' hj hm =>
    have hcall := flush_call hm
    have hw := (flush_world hm).1
    refine forall_mem_set hkeep ⟨?_, fun report hpc hs t hpos hle => ?_⟩
    · rw [hcall.1, hcall.2]
      exact (h c (List.mem_of_getElem? hj)).within
    · have hdone : ∀ t, 0 < t → t ≤ c.target → t ∈ s.world.history.completed := by
        cases hm with
        | flushed hcov hpc' => exact fun t hpos ht' => ht.completed_of_le hpos (ht'.trans hcov)
        | failed hst hpc' =>
          cases hpc
          cases hs
        | stopped hst hpc' =>
          cases hpc
          cases hs
        | _ => cases hpc
      rw [hw]
      exact hdone t hpos (hcall.1 ▸ hle)
  | expireFlush hj hpc' =>
    refine forall_mem_set hkeep ⟨(h _ (List.mem_of_getElem? hj)).within, fun report hpc hs => ?_⟩
    cases hpc
    cases hs
  | _ => exact hkeep

/-- The flush law holds of every call in every run. -/
theorem flushLaw {ok : State L → Action L → Prop}
    (h : ReachWhile (step x) ok (State.init L) s) : ∀ c ∈ s.flushes, FlushLaw s c :=
  invariant_of_moves_using (I := fun s => ∀ c ∈ s.flushes, FlushLaw s c)
    (J := fun s => Conserved s ∧ TrackerLaw s) (fun _ hr => ⟨conserved hr, trackerLaw hr⟩)
    (fun _ hc => absurd hc (by simp [State.init]))
    (fun _ _ _ hj _ hi _ hm => FlushLaw.step hj.1 hj.2 hi hm) h

/-- A completed ticket is nowhere else. -/
theorem elsewhere_of_completed (hc : Conserved s) {t : ℕ}
    (ht : t ∈ s.world.history.completed) :
    t ∉ taken s.threads ∧ t ∉ (queued s.world s.worker).map QueuedLog.ticket ∧
      t ∉ holdingTickets s.worker := by
  have hn := hc.located_nodup
  unfold located at hn
  rw [List.nodup_append, List.nodup_append, List.nodup_append, List.nodup_append] at hn
  obtain ⟨-, ⟨-, ⟨-, ⟨-, -, hh⟩, -⟩, hq⟩, ht'⟩ := hn
  have hm := List.mem_append_right (holdingTickets s.worker) ht
  refine ⟨fun h => ?_, fun h => ?_, fun h => ?_⟩
  · exact ht' t h t (List.mem_append_right _ (List.mem_append_right _ hm)) rfl
  · exact hq t h t (List.mem_append_right _ hm) rfl
  · exact hh t h t ht rfl

/-- A successful flush is exact: every record pushed before the call began has
an outcome, is completed, and is neither taken, queued nor held by the worker. -/
theorem flush_exact (h : Reachable x s) {c : FlushCall} (hc : c ∈ s.flushes) {target completed : ℕ}
    (hd : c.pc = .done ⟨.flushed, target, completed⟩) {t : ℕ} (ht : t ∈ c.before) :
    (∃ r outcome, r.ticket = t ∧ (r, outcome) ∈ s.world.history.resolved) ∧
      t ∈ s.world.history.completed ∧ t ∉ taken s.threads ∧
      t ∉ (queued s.world s.worker).map QueuedLog.ticket ∧ t ∉ holdingTickets s.worker := by
  have hl := flushLaw h c hc
  obtain ⟨hpos, hle⟩ := hl.within t ht
  have hcomp := hl.flushed _ hd rfl t hpos hle
  exact ⟨(resolvedLaw h).outcome hcomp, hcomp, elsewhere_of_completed (conserved h) hcomp⟩

/-- A record is pushed, then flushed. -/
def flushRun : List (Action ℕ) :=
  .spawn :: submitAlone 0 3 ++ [.beginFlush, .flush 0] ++ workerSteps 18 .fatal ++
    workerSteps 2 (.ok 1 0) ++ [.flush 0, .flush 0]

/-- The flush call succeeded. -/
def flushedOne (s : State ℕ) : Bool :=
  match s.flushes with
  | [⟨.done ⟨.flushed, 1, 1⟩, 1, [1]⟩] => true
  | _ => false

/-- The flush of that run succeeds, and its record is completed. -/
theorem flush_exact_one : ∃ s : State ℕ, Reachable sample s ∧ 1 ∈ s.world.history.completed := by
  obtain ⟨s, hs, hp⟩ := exists_reach (step sample) (State.init ℕ) flushRun
    flushedOne (by decide +kernel)
  unfold flushedOne at hp
  split at hp
  · rename_i hf
    have hc : (⟨.done ⟨.flushed, 1, 1⟩, 1, [1]⟩ : FlushCall) ∈ s.flushes := by
      rw [hf]
      exact List.mem_singleton.mpr rfl
    exact ⟨s, hs, (flush_exact hs hc rfl (List.mem_singleton.mpr rfl)).2.1⟩
  · cases hp

end EdenLogger.FlushSoundness
