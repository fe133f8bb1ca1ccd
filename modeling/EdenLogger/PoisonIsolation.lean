import EdenLogger.BatchExport
import EdenLogger.CompletionOrder

/-!
# Isolation of invalid records

A collector refuses a request as invalid exactly if it holds a record of a given
set, and accepts it otherwise. The halving then ends at each of these records
alone: an export returns complete, with exactly these records rejected and the
others exported, in the order of the batch.
-/

namespace EdenLogger.PoisonIsolation

open MachineWord ExporterLanes LogCollector GenerationState GenerationStep GenerationMoves
open CompletionTracking CompletionOrder RunRules BatchExport

variable {L : Type} {x : Exporter L} {s s' s₀ : State L} {a : Action L} {poison : MappedLog → Bool}

/-! ## The collector -/

/-- The collector refuses requests with a poison record and accepts the others, unless it asks
for a retry. -/
def Isolates (poison : MappedLog → Bool) (k : Worker L) (o : Oracle) : Prop :=
  ∀ e, k.pc = .awaitReply e → o.reply = .retryable ∨
    (e.records.any poison = true ∧ o.reply = .invalidPayload) ∨
    (e.records.any poison = false ∧ ∃ accepted, o.reply = .ok accepted 0)

/-- What it accepts is clean, and accepted as a whole. -/
theorem Isolates.ok {k : Worker L} {o : Oracle} {e : Attempt} {accepted rejected : ℕ}
    (h : Isolates poison k o) (hpc : k.pc = .awaitReply e)
    (hr : o.reply = .ok accepted rejected) : e.records.any poison = false ∧ rejected = 0 := by
  rcases h e hpc with hretry | ⟨-, hinvalid⟩ | ⟨hclean, n, hok⟩
  · rw [hretry] at hr
    cases hr
  · rw [hinvalid] at hr
    cases hr
  · rw [hok] at hr
    cases hr
    exact ⟨hclean, rfl⟩

/-- What it refuses is not. -/
theorem Isolates.invalid {k : Worker L} {o : Oracle} {e : Attempt} (h : Isolates poison k o)
    (hpc : k.pc = .awaitReply e) (hr : o.reply = .invalidPayload) :
    e.records.any poison = true := by
  rcases h e hpc with hretry | ⟨hpoison, -⟩ | ⟨-, n, hok⟩
  · rw [hretry] at hr
    cases hr
  · exact hpoison
  · rw [hok] at hr
    cases hr

/-- It does not fail for good. -/
theorem Isolates.not_fatal {k : Worker L} {o : Oracle} {e : Attempt} (h : Isolates poison k o)
    (hpc : k.pc = .awaitReply e) : o.reply ≠ .fatal := by
  intro hr
  rcases h e hpc with hretry | ⟨-, hinvalid⟩ | ⟨-, n, hok⟩
  · rw [hretry] at hr
    cases hr
  · rw [hinvalid] at hr
    cases hr
  · rw [hok] at hr
    cases hr

/-- Steps within one export, with its answers. -/
def isolatingStep (poison : MappedLog → Bool) (s : State L) (a : Action L) : Prop :=
  exporting s.worker.pc = true ∧ ∀ o, a = .worker o → Isolates poison s.worker o

/-- No partial success is among them. -/
theorem countable_of_isolatingStep (h : isolatingStep poison s a) : countable s a :=
  ⟨h.1, fun o ha _ _ _ hpc hr hn => absurd ((h.2 o ha).ok hpc hr).2 hn⟩

/-- What becomes of a record. -/
def verdict (poison : MappedLog → Bool) (r : MappedLog) : MappedLog × Outcome :=
  (r, if poison r then .invalidPayload else .acknowledged)

/-! ## What an export has decided -/

/-- Whether the export has failed for good, or counts the rejected part of an answer. -/
def failing : WorkerPc L → Bool
  | .terminalInflight _ | .countRejected _ _ => true
  | _ => false

/-- What an export has decided since its beginning. -/
structure Isolated (poison : MappedLog → Bool) (s₀ : State L) (settled : List MappedLog)
    (s : State L) : Prop where
  /-- The records resolved, each with its verdict. -/
  resolved : s.world.history.resolved =
    s₀.world.history.resolved ++ settled.map (verdict poison)
  /-- The others are exported. -/
  exported : s.world.metrics.exported =
    s₀.world.metrics.exported + settled.countP fun r => !poison r
  /-- The poison records are rejected. -/
  rejected : s.world.metrics.rejected = s₀.world.metrics.rejected + settled.countP poison
  /-- The watermark is a word. -/
  word : s.worker.completions.watermark ≤ wordMax
  /-- The tracker has the tickets completed. -/
  tracked : ∃ tickets, s.world.history.completed = s₀.world.history.completed ++ tickets ∧
    ∀ n ∈ tickets, Has s.worker.completions n
  /-- It has not failed for good, nor is a part of an answer rejected. -/
  unfailed : failing s.worker.pc = false

/-- The beginning of an export. -/
theorem Isolated.start {batch : List MappedLog} (hpc : s₀.worker.pc = .startExport batch)
    (hword : s₀.worker.completions.watermark ≤ wordMax) : Isolated poison s₀ [] s₀ where
  resolved := by simp
  exported := rfl
  rejected := rfl
  word := hword
  tracked := ⟨[], by simp, fun n hn => absurd hn List.not_mem_nil⟩
  unfailed := by rw [hpc]; rfl

variable {settled : List MappedLog}

/-- A step that settles no record. -/
theorem Isolated.keep (h : Isolated poison s₀ settled s)
    (hr : s'.world.history.resolved = s.world.history.resolved)
    (hx : s'.world.metrics.exported = s.world.metrics.exported)
    (hj : s'.world.metrics.rejected = s.world.metrics.rejected)
    (hword : s'.worker.completions.watermark ≤ wordMax)
    (htracked : ∃ tickets,
      s'.world.history.completed = s₀.world.history.completed ++ tickets ∧
        ∀ n ∈ tickets, Has s'.worker.completions n)
    (hpc : failing s'.worker.pc = false) :
    Isolated poison s₀ settled s' :=
  ⟨hr.trans h.resolved, hx.trans h.exported, hj.trans h.rejected, hword, htracked, hpc⟩

/-- The records of a part have one outcome, and so many of them are clean and poison. -/
structure Verdict (poison : MappedLog → Bool) (records : List MappedLog) (outcome : Outcome)
    (clean refused : ℕ) : Prop where
  same : records.map (verdict poison) = records.map fun r => (r, outcome)
  clean : records.countP (fun r => !poison r) = clean
  refused : records.countP poison = refused

/-- A part without poison is acknowledged as a whole. -/
theorem verdict_clean {records : List MappedLog} (h : records.any poison = false) :
    Verdict poison records .acknowledged records.length 0 := by
  have hclean : ∀ r ∈ records, poison r = false := fun r hr =>
    Bool.eq_false_iff.mpr (List.any_eq_false.mp h r hr)
  refine ⟨List.map_congr_left fun r hr => ?_, ?_, ?_⟩
  · rw [verdict, hclean r hr, if_neg Bool.false_ne_true]
  · exact List.countP_eq_length.mpr fun r hr => by rw [hclean r hr]; rfl
  · exact List.countP_eq_zero.mpr fun r hr => by rw [hclean r hr]; exact Bool.false_ne_true

/-- A part of one record with poison is refused. -/
theorem verdict_alone {records : List MappedLog} (h : records.any poison = true)
    (hl : records.length = 1) : Verdict poison records .invalidPayload 0 1 := by
  obtain ⟨r, rfl⟩ := List.length_eq_one_iff.mp hl
  have hr : poison r = true := by simpa using h
  constructor <;> simp [verdict, hr]

/-- A step that settles a part. -/
theorem Isolated.settle (h : Isolated poison s₀ settled s) {records : List MappedLog}
    {outcome : Outcome} {clean refused : ℕ} (hv : Verdict poison records outcome clean refused)
    (hr : s'.world.history.resolved =
      s.world.history.resolved ++ records.map fun r => (r, outcome))
    (hx : s'.world.metrics.exported = s.world.metrics.exported + clean)
    (hj : s'.world.metrics.rejected = s.world.metrics.rejected + refused)
    (hc : s'.worker.completions = s.worker.completions)
    (hd : s'.world.history.completed = s.world.history.completed)
    (hpc : failing s'.worker.pc = false) :
    Isolated poison s₀ (settled ++ records) s' where
  resolved := by rw [hr, h.resolved, List.map_append, hv.same, List.append_assoc]
  exported := by rw [hx, h.exported, List.countP_append, hv.clean, Nat.add_assoc]
  rejected := by rw [hj, h.rejected, List.countP_append, hv.refused, Nat.add_assoc]
  word := hc ▸ h.word
  tracked := by rw [hc, hd]; exact h.tracked
  unfailed := hpc

/-- A step of the worker. -/
theorem Isolated.worker (h : Isolated poison s₀ settled s) (hex : exporting s.worker.pc = true)
    {o : Oracle} (hanswer : Isolates poison s.worker o) {w' : World L} {k' : Worker L}
    (hm : WorkerMove x o s.world s.worker w' k') :
    ∃ settled', Isolated poison s₀ settled' { s with world := w', worker := k' } := by
  cases hm
  case acknowledged e accepted hr hpc =>
    have hclean := verdict_clean (hanswer.ok hpc hr).1
    exact ⟨_, h.settle hclean rfl rfl rfl rfl rfl rfl⟩
  case rejectedAlone e hr hl hpc =>
    have halone := verdict_alone (hanswer.invalid hpc hr) hl
    exact ⟨_, h.settle halone rfl rfl rfl rfl rfl rfl⟩
  case partialSuccess e accepted rejected hr hn hpc => exact absurd (hanswer.ok hpc hr).2 hn
  case countRejected e rejected hpc =>
    have hun := h.unfailed
    rw [hpc] at hun
    cases hun
  case fatal e hr hpc => exact absurd hr (hanswer.not_fatal hpc)
  case ignored resume r rest hc hpc =>
    obtain ⟨tickets, heq, hall⟩ := h.tracked
    refine ⟨_, h.keep rfl rfl rfl h.word ⟨tickets ++ [r.ticket], ?_, ?_⟩ rfl⟩
    · rw [← List.append_assoc, ← heq]
    · exact List.forall_mem_append.mpr
        ⟨hall, List.forall_mem_singleton.mpr (has_of_ignored hc)⟩
  case complete resume r rest t hc hpc =>
    obtain ⟨tickets, heq, hall⟩ := h.tracked
    obtain ⟨hword, hself, hkeep⟩ := has_of_completed h.word hc
    refine ⟨_, h.keep rfl rfl rfl hword ⟨tickets ++ [r.ticket], ?_, ?_⟩ rfl⟩
    · rw [← List.append_assoc, ← heq]
    · exact List.forall_mem_append.mpr
        ⟨fun n hn => hkeep n (hall n hn), List.forall_mem_singleton.mpr hself⟩
  case completed resume hpc =>
    obtain ⟨stack, rfl⟩ := resume_of_exporting hex (Or.inl hpc)
    exact ⟨_, h.keep rfl rfl rfl h.word h.tracked rfl⟩
  case attempt hpc | split hpc | backOff hpc | notifyProgress hpc | startExport hpc
      | partsDone hpc | nextPart hpc | slept hpc | retried hpc =>
    exact ⟨_, h.keep rfl rfl rfl h.word h.tracked rfl⟩
  all_goals
    rename_i hpc
    rw [hpc] at hex
    cases hex

/-- Every step. -/
theorem Isolated.step (h : Isolated poison s₀ settled s) (hok : isolatingStep poison s a)
    (hm : Move x s a s') : ∃ settled', Isolated poison s₀ settled' s' := by
  by_cases ha : ∀ o, a ≠ .worker o
  · have hkeep := untouched_of_move hm ha
    refine ⟨settled, h.keep hkeep.resolved hkeep.exported hkeep.rejected ?_ ?_ ?_⟩
    · rw [hkeep.worker]
      exact h.word
    · rw [hkeep.worker, hkeep.completed]
      exact h.tracked
    · rw [hkeep.worker]
      exact h.unfailed
  · cases hm with
    | worker hab hm => exact h.worker hok.1 (hok.2 _ rfl) hm
    | _ => exact (ha fun o hc => by cases hc).elim

/-- However often the collector asks for retries, an export of a batch returns complete, with each
record resolved once, in order: the poison records rejected and the others exported. Every ticket
of the batch is completed. -/
theorem export_batch_isolates {batch : List MappedLog} (hpc : s₀.worker.pc = .startExport batch)
    (hne : batch ≠ []) (hword : s₀.worker.completions.watermark ≤ wordMax) {t : Tally}
    (h : ReachWhile (countedStep x) (fun p => isolatingStep poison p.1) (s₀, ⟨0, 0⟩) (s, t)) :
    (exporting s.worker.pc = true ∨ s.worker.pc = .batchDone) ∧
    (exporting s.worker.pc = true → s.aborted = false →
      ∀ o, (GenerationStep.step x s (.worker o)).isSome = true) ∧
    t.steps ≤ 12 * batch.length + 4 * t.retryable ∧
    (s.worker.pc = .batchDone →
      s.world.history.resolved = s₀.world.history.resolved ++ batch.map (verdict poison) ∧
      s.world.metrics.exported =
        s₀.world.metrics.exported + batch.countP (fun r => !poison r) ∧
      s.world.metrics.rejected = s₀.world.metrics.rejected + batch.countP poison ∧
      s.world.history.completed = s₀.world.history.completed ++ batch.map MappedLog.ticket ∧
      ∀ r ∈ batch, Has s.worker.completions r.ticket) := by
  have hcounted := countedExport hpc hne (h.mono fun _ _ => countable_of_isolatingStep)
  obtain ⟨done, sent, hlaw⟩ := hcounted.law
  obtain ⟨settled, hisolated⟩ := h.invariant
    (I := fun p => ∃ settled, Isolated poison s₀ settled p.1) ⟨[], .start hpc hword⟩
    fun p q _ ⟨_, hp⟩ hok hs => hp.step hok (stepMove (of_monitored hs).1)
  refine ⟨?_, fun hex hab => worker_enabled hex hab, ?_, fun hdone => ?_⟩
  · refine hcounted.place.imp_right fun hexit => ?_
    cases hpc' : s.worker.pc
    case batchDone => rfl
    case terminalInflight retained =>
      have hun := hisolated.unfailed
      rw [hpc'] at hun
      cases hun
    all_goals
      rw [hpc'] at hexit
      cases hexit
  · have hsteps := hcounted.steps
    have hlen : 0 < batch.length := List.length_pos_iff.mpr hne
    simp only [hpc, stepsLeft, stepCost_cons, stepCost_nil] at hsteps
    omega
  · -- nothing is left: what is resolved and what is completed is the batch
    obtain ⟨hsplit, hresolved, -⟩ := hlaw.standing hdone
    simp only [uncompleted, parts, List.flatten_nil, List.append_nil] at hsplit hresolved
    subst hsplit
    have hsettled : settled = done := by
      rw [hisolated.resolved, List.map_append, List.append_cancel_left_eq, List.map_map]
        at hresolved
      exact (List.map_id settled).symm.trans hresolved
    subst hsettled
    refine ⟨hisolated.resolved, hisolated.exported, hisolated.rejected, hlaw.completed,
      fun r hr => ?_⟩
    obtain ⟨tickets, heq, hall⟩ := hisolated.tracked
    rw [hlaw.completed, List.append_cancel_left_eq] at heq
    exact hall _ (heq ▸ List.mem_map_of_mem hr)

/-! ## A batch with a poison record in the middle -/

/-- A check for answers of the collector. -/
def isolatesCheck (poison : MappedLog → Bool) (k : Worker L) (o : Oracle) : Bool :=
  match k.pc with
  | .awaitReply e =>
    match o.reply with
    | .ok _ rejected => !e.records.any poison && decide (rejected = 0)
    | .invalidPayload => e.records.any poison
    | .retryable => true
    | .fatal => false
  | _ => true

/-- A check for steps within an export, with its answers. -/
def isolatingCheck (poison : MappedLog → Bool) (p : State L × Tally) : Action L → Bool
  | .worker o => exporting p.1.worker.pc && isolatesCheck poison p.1.worker o
  | _ => exporting p.1.worker.pc

/-- Answers that pass it are such answers. -/
theorem isolates_of_check {k : Worker L} {o : Oracle} (h : isolatesCheck poison k o = true) :
    Isolates poison k o := by
  intro e hpc
  simp only [isolatesCheck, hpc] at h
  cases hr : o.reply with
  | ok accepted rejected =>
    simp only [hr, Bool.and_eq_true, Bool.not_eq_true', decide_eq_true_eq] at h
    exact Or.inr (Or.inr ⟨h.1, accepted, by rw [h.2]⟩)
  | invalidPayload =>
    simp only [hr] at h
    exact Or.inr (Or.inl ⟨h, rfl⟩)
  | retryable => exact Or.inl rfl
  | fatal =>
    simp only [hr] at h
    cases h

/-- Steps that pass it are such steps. -/
theorem isolatingStep_of_check (p : State L × Tally) (a : Action L)
    (h : isolatingCheck poison p a = true) : isolatingStep poison p.1 a := by
  cases a with
  | worker o =>
    obtain ⟨hex, hanswer⟩ := (Bool.and_eq_true _ _).mp h
    refine ⟨hex, fun o' ho => ?_⟩
    cases ho
    exact isolates_of_check hanswer
  | _ => exact ⟨h, fun o' ho => by cases ho⟩

/-- A worker that begins to export three records. -/
def threeBegun : State ℕ :=
  (replay (step sample) noCheck (State.init ℕ)
    (.spawn :: submitAlone 0 3 ++ .enter 0 4 :: producerSteps 0 7 ++
      .enter 0 5 :: producerSteps 0 7 ++ lateSteps 22)).getD (State.init ℕ)

/-- The second one is poison. -/
def secondPoison (r : MappedLog) : Bool := decide (r.ticket = 2)

/-- The batch is refused, the first record accepted, the others refused, the second one refused,
the third one put off and then accepted. -/
def bisected : List (Action ℕ) :=
  workerSteps 4 .invalidPayload ++ workerSteps 6 (.ok 1 0) ++ workerSteps 9 .invalidPayload ++
    workerSteps 3 .retryable ++ workerSteps 8 (.ok 1 0)

/-- Whether an export is over after one retry. -/
def overOnce (p : State ℕ × Tally) : Bool :=
  !exporting p.1.worker.pc && decide (p.2.retryable = 1)

/-- The second record of three is isolated. -/
theorem export_batch_isolates_second :
    ∃ s, Reach (GenerationStep.step sample) threeBegun s ∧ s.worker.pc = .batchDone ∧
      s.world.history.resolved = threeBegun.world.history.resolved ++
        (begunBatch threeBegun.worker.pc).map (verdict secondPoison) := by
  have hne : begunBatch threeBegun.worker.pc ≠ [] := by decide +kernel
  obtain ⟨⟨s, t⟩, hs, hp⟩ := exists_reach_of_replay (countedStep sample)
    (@isolatingStep_of_check _ secondPoison) (threeBegun, ⟨0, 0⟩) bisected
    overOnce (by decide +kernel)
  obtain ⟨hplace, -, -, hcomplete⟩ := export_batch_isolates (startExport_of_begunBatch hne) hne
    (by decide +kernel) hs
  have hover : exporting s.worker.pc = false :=
    Bool.eq_false_iff.mpr (by simpa using ((Bool.and_eq_true _ _).mp hp).1)
  have hdone := hplace.resolve_left (by rw [hover]; exact Bool.false_ne_true)
  exact ⟨s, (hs.unmonitored fun _ _ h => h).reach, hdone, (hcomplete hdone).1⟩

end EdenLogger.PoisonIsolation
