import EdenLogger.HandleProgram

/-!
# Wake-ups of flush calls

A parked flush call waits for its target, for a terminal failure or for the
final stop. A completed ticket and the final stop are each followed by a
broadcast before the worker suspends. A terminal failure is not: calls that
are already waiting when it is stored stay asleep until a later broadcast.
-/

namespace EdenLogger.FlushWakeUps

open WakeUpPermit ExporterLanes LogCollector GenerationState GenerationStep GenerationMoves
open GenerationFrames ListCells HandleProgram RunRules

variable {L : Type} {x : Exporter L} {s s' : State L} {a : Action L}

/-! ## Broadcasts -/

/-- The worker is about to broadcast progress. -/
def owesWake : WorkerPc L → Bool
  | .notifyProgress _ _ | .notifyStopped _ => true
  | _ => false

/-- What a worker step does to the calls' wait: broadcast, owe a broadcast, or
leave the wait alone but for a fatal answer. -/
theorem worker_progress {o : Oracle} {w w' : World L} {k k' : Worker L}
    (hm : WorkerMove x o w k w' k') :
    w'.progress = w.progress.notifyWaiters ∨
      w'.progress = w.progress ∧ owesWake k.pc = false ∧
        (owesWake k'.pc = true ∨
          w'.completedTicket = w.completedTicket ∧
            (w'.metrics.status = .stopped → w.metrics.status = .stopped) ∧
            (w'.metrics.status = .terminalFailure → w.metrics.status = .terminalFailure ∨
              ∃ e, k.pc = .awaitReply e ∧ o.reply = .fatal)) := by
  cases hm
  case notifyProgress => exact Or.inl rfl
  case notifyStopped => exact Or.inl rfl
  case complete resume r rest t hc hpc =>
    exact Or.inr ⟨rfl, by rw [hpc]; rfl, Or.inl rfl⟩
  case storeStopped exit hpc => exact Or.inr ⟨rfl, by rw [hpc]; rfl, Or.inl rfl⟩
  case backOff e hr hpc =>
    refine Or.inr ⟨rfl, by rw [hpc]; rfl, Or.inr ⟨rfl, fun h => ?_, fun h => ?_⟩⟩ <;> cases h
  case fatal e hr hpc =>
    refine Or.inr ⟨rfl, by rw [hpc]; rfl, Or.inr ⟨rfl, fun h => ?_, fun _ => ?_⟩⟩
    · cases h
    · exact Or.inr ⟨e, hpc, hr⟩
  case retried e accepting hpc =>
    refine Or.inr ⟨rfl, by rw [hpc]; rfl, Or.inr ⟨rfl, fun h => ?_, fun h => ?_⟩⟩
    all_goals
      dsimp only [setStatus] at h
      split at h <;> cases h
  case batchStatus hpc =>
    refine Or.inr ⟨rfl, by rw [hpc]; rfl, Or.inr ⟨rfl, fun h => ?_, fun h => ?_⟩⟩
    all_goals
      dsimp only [setStatus] at h
      split at h <;> cases h
  case pollReady wait c cells hr hpc =>
    cases c <;> exact Or.inr ⟨rfl, by rw [hpc]; rfl, Or.inr ⟨rfl, id, Or.inl⟩⟩
  case pollNext wait c cells hr hpc =>
    cases c <;> exact Or.inr ⟨rfl, by rw [hpc]; rfl, Or.inr ⟨rfl, id, Or.inl⟩⟩
  all_goals
    rename_i hpc
    exact Or.inr ⟨rfl, by rw [hpc]; rfl, Or.inr ⟨rfl, id, Or.inl⟩⟩

/-- What a flush call waits for has come. -/
def waitOver (w : World L) (c : FlushCall) : Prop :=
  c.target ≤ w.completedTicket ∨ w.metrics.status = .terminalFailure ∨ w.metrics.status = .stopped

/-- A waiter has been woken, or is about to be. -/
def Heard (s : State L) (e : ℕ) : Prop :=
  s.world.progress.woken e = true ∨ owesWake s.worker.pc = true

/-- A call's waiter was enabled in the past, and hears of what ends its wait. -/
def WaitLaw (s : State L) (c : FlushCall) : Prop :=
  match c.pc with
  | .loadCompleted e => e ≤ s.world.progress.calls
  | .loadStatus e _ => e ≤ s.world.progress.calls ∧ (c.target ≤ s.world.completedTicket → Heard s e)
  | .parked e => e ≤ s.world.progress.calls ∧ (waitOver s.world c → Heard s e)
  | _ => True

/-- What a step must provide to keep a call's wait law. -/
theorem WaitLaw.mono {c : FlushCall} (h : WaitLaw s c)
    (hcalls : s.world.progress.calls ≤ s'.world.progress.calls)
    (hheard : ∀ e, e ≤ s.world.progress.calls → Heard s e → Heard s' e)
    (hdone : ∀ e, e ≤ s.world.progress.calls → Heard s' e ∨
      s'.world.completedTicket = s.world.completedTicket)
    (hover : ∀ e, c.pc = .parked e → e ≤ s.world.progress.calls → waitOver s'.world c →
      Heard s' e ∨ waitOver s.world c) : WaitLaw s' c := by
  unfold WaitLaw at h ⊢
  split
  · rename_i e hpc
    rw [hpc] at h
    exact h.trans hcalls
  · rename_i e n hpc
    rw [hpc] at h
    refine ⟨h.1.trans hcalls, fun ht => ?_⟩
    rcases hdone e h.1 with hh | hc
    · exact hh
    · exact hheard e h.1 (h.2 (hc ▸ ht))
  · rename_i e hpc
    rw [hpc] at h
    refine ⟨h.1.trans hcalls, fun ho => ?_⟩
    exact (hover e hpc h.1 ho).elim id fun ho => hheard e h.1 (h.2 ho)
  · trivial

/-- Steps in which a fatal answer comes when no call is parked with its waiter
not yet woken. -/
def failureHeard (s : State L) (a : Action L) : Prop :=
  ∀ o e, a = .worker o → s.worker.pc = .awaitReply e → o.reply = .fatal →
    ∀ c ∈ s.flushes, ∀ n, c.pc = .parked n → s.world.progress.woken n = true

/-- A check for such steps. -/
def failureHeardCheck (s : State L) : Action L → Bool
  | .worker o =>
    match s.worker.pc, o.reply with
    | .awaitReply _, .fatal => s.flushes.all fun c =>
      match c.pc with
      | .parked n => s.world.progress.woken n
      | _ => true
    | _, _ => true
  | _ => true

/-- A step that passes the check meets the condition. -/
theorem failureHeard_of_check (s : State L) (a : Action L) (h : failureHeardCheck s a = true) :
    failureHeard s a := by
  intro o e ha hpc hr c hc n hcn
  subst ha
  simp only [failureHeardCheck, hpc, hr, List.all_eq_true] at h
  have := h c hc
  rwa [hcn] at this

/-- The wait law is kept by every step under the condition. -/
theorem WaitLaw.step (hb : BorrowLaw s) (h : ∀ c ∈ s.flushes, WaitLaw s c)
    (hok : failureHeard s a) (hm : Move x s a s') : ∀ c ∈ s'.flushes, WaitLaw s' c := by
  cases hm with
  | producer hi hm =>
    have hf := producer_frame hm
    refine fun c hc => (h c hc).mono ?_ (fun e _ hh => ?_) (fun e _ => Or.inr hf.completedTicket)
      fun e _ _ ho => Or.inr ?_
    · exact le_of_eq (congrArg Broadcast.calls hf.progress.symm)
    · unfold Heard at hh ⊢
      rw [hf.progress]
      exact hh
    · unfold waitOver at ho ⊢
      rwa [hf.completedTicket, hf.status] at ho
  | @worker o w' k' ha hm =>
    intro c hc
    rcases worker_progress hm with hp | ⟨hp, hno, hcase⟩
    · -- a broadcast reaches every waiter enabled before it
      have hw : ∀ e, e ≤ s.world.progress.calls → Heard { s with world := w', worker := k' } e :=
        fun e he => Or.inl (by rw [hp]; exact Broadcast.woken_notifyWaiters he)
      refine (h c hc).mono ?_ (fun e he _ => hw e he) (fun e he => Or.inl (hw e he))
        fun e _ he _ => Or.inl (hw e he)
      dsimp only
      rw [hp]
      exact Nat.le_succ _
    · have hkeep : ∀ e, Heard s e → Heard { s with world := w', worker := k' } e := fun e hh =>
        Or.inl (by
          rw [hp]
          exact hh.resolve_right (by simp [hno]))
      refine (h c hc).mono (le_of_eq (congrArg Broadcast.calls hp.symm)) (fun e _ => hkeep e)
        (fun e _ => hcase.imp Or.inr fun hr => hr.1) fun e hpc _ ho => ?_
      rcases hcase with hw | ⟨hct, hst, hft⟩
      · exact Or.inl (Or.inr hw)
      · rcases ho with ho | ho | ho
        · exact Or.inr (Or.inl (hct ▸ ho))
        · rcases hft ho with hs | ⟨e', he', hr⟩
          · exact Or.inr (Or.inr (Or.inl hs))
          · refine Or.inl (Or.inl ?_)
            dsimp only
            rw [hp]
            exact hok o e' rfl he' hr c hc e hpc
        · exact Or.inr (Or.inr (Or.inr (hst ho)))
  | beginFlush hcmd =>
    intro c hc
    rcases List.mem_append.mp hc with hc | hc
    · exact h c hc
    · rw [List.mem_singleton.mp hc]
      trivial
  | @flush j c0 c' w' hj hm =>
    rw [(flush_world hm).1]
    have h0 := h c0 (List.mem_of_getElem? hj)
    refine forall_mem_set h ?_
    cases hm with
    | enable hpc => exact Nat.le_refl _
    | behind ht hpc =>
      unfold WaitLaw at h0
      rw [hpc] at h0
      exact ⟨h0, fun hle => absurd hle (Nat.not_le.mpr ht)⟩
    | park hf hs hpc =>
      unfold WaitLaw at h0
      rw [hpc] at h0
      refine ⟨h0.1, fun ho => ?_⟩
      rcases ho with ho | ho | ho
      · exact h0.2 ho
      · exact absurd ho hf
      · exact absurd ho hs
    | _ => trivial
  | expireFlush hj hpc => exact forall_mem_set h trivial
  | @control op rest hp hr =>
    -- a command runs only when every call has returned
    intro c hc
    have hret : c.returned = true := by
      by_contra hn
      have hi := hb.idle (hb.alone c hc (Bool.eq_false_of_not_eq_true hn))
      rw [hp] at hi
      cases hi
    unfold FlushCall.returned at hret
    unfold WaitLaw
    split at hret
    · rename_i report hpc
      rw [hpc]
      trivial
    · cases hret
  | _ => exact h

/-- The wait law holds of every call in every run that meets the condition. -/
theorem waitLaw (h : ReachWhile (step x) failureHeard (State.init L) s) :
    ∀ c ∈ s.flushes, WaitLaw s c :=
  invariant_of_moves_using (I := fun s => ∀ c ∈ s.flushes, WaitLaw s c) (fun _ => borrowLaw)
    (fun _ hc => absurd hc (by simp [State.init]))
    (fun _ _ _ hb _ hi hok hm => WaitLaw.step hb hi hok hm) h

/-- No flush waiter misses its wake-up, in runs where a fatal answer never
comes beside a call that is parked and not yet woken: whenever the worker is
suspended or has returned, and what a parked call waits for has come, its
waiter has been woken. -/
theorem flush_woken (h : ReachWhile (step x) failureHeard (State.init L) s) {c : FlushCall}
    (hc : c ∈ s.flushes) {e : ℕ} (hpc : c.pc = .parked e) (ho : waitOver s.world c)
    (hw : s.worker.pc.awaits = true ∨ s.worker.pc.isFinished = true) :
    s.world.progress.woken e = true := by
  have hl := waitLaw h c hc
  unfold WaitLaw at hl
  rw [hpc] at hl
  refine (hl.2 ho).resolve_right fun howes => ?_
  unfold owesWake at howes
  split at howes
  · rename_i hk
    rw [hk] at hw
    rcases hw with hw | hw <;> cases hw
  · rename_i hk
    rw [hk] at hw
    rcases hw with hw | hw <;> cases hw
  · cases howes

/-- A flush call parks before its record is exported. -/
def parkedRun (n : ℕ) (reply : Reply) : List (Action ℕ) :=
  .spawn :: submitAlone 0 3 ++ [.beginFlush, .flush 0, .flush 0, .flush 0, .flush 0] ++
    workerSteps n reply

/-- The worker waits for records, and a parked call's target is completed. -/
def acknowledgedOne (s : State ℕ) : Bool :=
  match s.worker.pc, s.flushes with
  | .parked .receive, [⟨.parked 0, 1, [1]⟩] => decide (1 ≤ s.world.completedTicket)
  | _, _ => false

/-- Once the record is acknowledged and the worker waits again, it is woken. -/
theorem flush_woken_acknowledged :
    ∃ s : State ℕ, Reachable sample s ∧ s.world.progress.woken 0 = true := by
  obtain ⟨s, hs, hp⟩ := exists_reach_of_replay (step sample) failureHeard_of_check (State.init ℕ)
    (parkedRun 42 (.ok 1 0))
    acknowledgedOne (by decide +kernel)
  unfold acknowledgedOne at hp
  split at hp
  · rename_i hpc hf
    have hc : (⟨.parked 0, 1, [1]⟩ : FlushCall) ∈ s.flushes := by
      rw [hf]
      exact List.mem_singleton.mpr rfl
    exact ⟨s, hs.reach, flush_woken hs hc rfl (Or.inl (of_decide_eq_true hp))
      (Or.inl (by rw [hpc]; rfl))⟩
  · cases hp

/-- The worker is suspended in its failure, and a parked call is not woken. -/
def failedUnheard (s : State ℕ) : Bool :=
  match s.flushes with
  | [⟨.parked 0, 1, [1]⟩] => decide (s.world.metrics.status = .terminalFailure ∧
      s.worker.pc.awaits = true ∧ s.world.progress.woken 0 = false)
  | _ => false

/-- On a fatal answer the worker suspends with the failure stored, and the
parked call is not woken. -/
theorem failure_unheard : ∃ (s : State ℕ) (c : FlushCall), Reachable sample s ∧ c ∈ s.flushes ∧
    c.pc = .parked 0 ∧ s.world.metrics.status = .terminalFailure ∧ s.worker.pc.awaits = true ∧
      s.world.progress.woken 0 = false := by
  obtain ⟨s, hs, hp⟩ := exists_reach (step sample) (State.init ℕ)
    (parkedRun 23 .fatal)
    failedUnheard (by decide +kernel)
  unfold failedUnheard at hp
  split at hp
  · rename_i hf
    refine ⟨s, ⟨.parked 0, 1, [1]⟩, hs, ?_, rfl, of_decide_eq_true hp⟩
    rw [hf]
    exact List.mem_singleton.mpr rfl
  · cases hp

end EdenLogger.FlushWakeUps
