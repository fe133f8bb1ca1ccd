import EdenLogger.Completion
import EdenLogger.QueueAccounting

/-!
# What the gauges count

A queue's depth gauge stands for the records queued under it and the claims of
threads on their way to a push. The in-flight gauge is stored at the start and
at the end of an export only: in between it stands for the parts still to be
exported and the records of the batch that are already resolved.
-/

namespace EdenLogger.Gauges

open MachineWord ExporterLanes LogCollector GenerationState GenerationStep GenerationMoves
open GenerationFrames LaneTable LaneOwnership RecordFlow QueueAccounting RunRules

variable {L : Type} {x : Exporter L} {s s' : State L} {a : Action L}

/-! ## Queue depths -/

/-- The claim a thread holds on a queue. -/
def claimOn (q : QueueKind) (p : Producer L) : ℕ :=
  match p.pc with
  | .undoDepth _ q' | .takeTicket _ q' | .push _ q' _ => if q' = q then 1 else 0
  | _ => 0

/-- Claims of all threads on a queue. -/
def claims (q : QueueKind) (threads : List (Producer L)) : ℕ := (threads.map (claimOn q)).sum

/-- Records queued under a kind. -/
def queuedUnder (q : QueueKind) (logs : List (QueuedLog L)) : ℕ :=
  logs.countP fun log => log.queue = q

/-- What a queue's depth stands for. -/
def depthOf (s : State L) (q : QueueKind) : ℕ :=
  queuedUnder q (queued s.world s.worker) + claims q s.threads

/-- A thread outside the callback claims nothing. -/
theorem claimOn_outside {p : Producer L} (q : QueueKind) (h : p.pc.outside = true) :
    claimOn q p = 0 := by
  unfold claimOn
  split <;> first | rfl | (rename_i hpc; rw [hpc] at h; cases h)

/-- Without threads in the callback no claim is open. -/
theorem claims_outside {threads : List (Producer L)} (q : QueueKind)
    (h : ∀ p ∈ threads, p.pc.outside = true) : claims q threads = 0 := by
  refine List.sum_eq_zero fun n hn => ?_
  obtain ⟨p, hp, rfl⟩ := List.mem_map.mp hn
  exact claimOn_outside q (h p hp)

/-- Every queued record is under one of the two kinds. -/
theorem queuedUnder_add (logs : List (QueuedLog L)) :
    queuedUnder .normal logs + queuedUnder .reserved logs = logs.length := by
  induction logs with
  | nil => rfl
  | cons log rest ih =>
    simp only [queuedUnder, List.countP_cons, List.length_cons] at ih ⊢
    cases log.queue <;> simp <;> omega

/-- A depth stands for the records queued and the places claimed. -/
def DepthLaw (s : State L) : Prop :=
  s.world.history.gaugesReset = false →
    ∀ q, s.world.metrics.queueDepth.get q = depthOf s q % size

/-- Counted by kind, records amount to what the gauge of records measures. -/
theorem queuedUnder_eq (q : QueueKind) (logs : List (QueuedLog L)) :
    queuedUnder q logs = heldIn .records q logs := by
  induction logs with
  | nil => rfl
  | cons log rest ih =>
    rw [heldIn_cons, ← ih, queuedUnder, queuedUnder, List.countP_cons, Nat.add_comm]
    simp only [decide_eq_true_eq]
    rfl

/-- A place claimed is what a submission holds claimed on the gauge of records. -/
theorem claimOn_eq (q : QueueKind) (p : Producer L) : claimOn q p = claimOf .records q p := by
  unfold claimOn claimOf grantedOf failedOf
  cases p.pc <;> simp only [Nat.add_zero, Nat.zero_add]

/-- The depth law holds in every run. -/
theorem depthLaw {ok : State L → Action L → Prop}
    (h : ReachWhile (step x) ok (State.init L) s) : DepthLaw s := by
  intro hr q
  have hclaims : claims q s.threads = claimed .records q s.threads := by
    unfold claims claimed
    rw [List.map_congr_left fun p _ => claimOn_eq q p]
  refine (gaugeLaw h hr .records q).trans ?_
  rw [depthOf, queuedUnder_eq, hclaims]
  rfl

/-! ## The in-flight gauge -/

/-- The stages of the worker by its use of the in-flight gauge. -/
inductive Stage where
  /-- No batch is in flight. -/
  | idle
  /-- A batch is in flight. -/
  | exporting
  /-- Records are retained after a terminal failure. -/
  | retaining
  deriving DecidableEq

/-- The stage of a wait. -/
def waitStage : Wait → Stage
  | .receive | .assembly _ | .producersClosed => .idle
  | .terminalShutdown _ | .terminalRecords _ => .retaining

/-- The stage the worker returns to after completing tickets. -/
def resumeStage : Resume → Stage
  | .loopTop | .assemble _ => .idle
  | .nextPart _ => .exporting

/-- The worker's stage. -/
def stage : WorkerPc L → Stage
  | .nextPart _ | .attempt _ | .awaitReply _ | .retrySleep _ | .retried _ _ | .countRejected _ _ =>
    .exporting
  | .completing resume _ | .notifyProgress resume _ => resumeStage resume
  | .batchDone | .terminalInflight _ => .exporting
  | .terminalAccepting _ | .terminalClosed _ => .retaining
  | .ledgerNormal _ | .ledgerReserved _ _ | .ledgerAdd _ _ | .ledgerClear _ _ => .retaining
  | .poll wait _ | .parked wait => waitStage wait
  | _ => .idle

@[simp] theorem stage_tryReceive (input : LaneQueues L) (site : Site) :
    stage (tryReceive input site) = .idle := by
  unfold tryReceive
  split <;> rfl

@[simp] theorem stage_drainNext (d : Drain) : stage (drainNext d : WorkerPc L) = .idle := by
  cases d <;> rfl

@[simp] theorem stage_receivedNone (input : LaneQueues L) (site : Site) :
    stage (receivedNone input site) = .idle := by
  cases site <;> first | rfl | exact stage_tryReceive _ _

@[simp] theorem stage_received (k : Worker L) (r : MappedLog) (site : Site) :
    stage (received k r site).pc = .idle := by
  cases site <;> rfl

@[simp] theorem stage_resumePc (resume : Resume) :
    stage (resumePc resume : WorkerPc L) = resumeStage resume := by
  cases resume <;> rfl

/-- A wait that ends stays in its stage. -/
@[simp] theorem stage_waitReady (k : Worker L) (c : Cell) (wait : Wait) :
    stage (waitReady k c wait).pc = waitStage wait := by
  cases wait <;> cases c <;> first | rfl | exact stage_tryReceive _ _

/-- The in-flight gauge stands for the parts and the resolved records of the
batch while it is exported, and for the parts retained after a failure. -/
def InflightAt (w : World L) (k : Worker L) : Prop :=
  match stage k.pc with
  | .idle => w.metrics.inflight = 0
  | .exporting => w.metrics.inflight + w.history.exportStart =
      (held k.pc).parts.length + (held k.pc).settled.length + w.history.completed.length
  | .retaining => w.metrics.inflight = (held k.pc).parts.length

/-- Leaving for an idle stage with the gauge untouched. -/
theorem InflightAt.idle {w w' : World L} {k k' : Worker L} (h : InflightAt w k)
    (hs : stage k.pc = .idle) (hs' : stage k'.pc = .idle)
    (hw : w'.metrics.inflight = w.metrics.inflight) : InflightAt w' k' := by
  unfold InflightAt at h ⊢
  rw [hs] at h
  rw [hs']
  exact hw.trans h

/-- The in-flight gauge follows every worker step that does not reset it. -/
theorem InflightAt.move {o : Oracle} {w w' : World L} {k k' : Worker L} (h : InflightAt w k)
    (hm : WorkerMove x o w k w' k') (hr : w'.history.gaugesReset = false) : InflightAt w' k' := by
  cases hm
  case detach d detached hpc => exact h.idle (by rw [hpc]; rfl) (stage_drainNext d) rfl
  case popNone site hi hpc => exact h.idle (by rw [hpc]; rfl) (stage_receivedNone _ site) rfl
  case release site log hpc => exact h.idle (by rw [hpc]; rfl) (stage_received _ _ site) rfl
  case chooseReceive hp hs hpc => exact h.idle (by rw [hpc]; rfl) (stage_tryReceive _ _) rfl
  case assembleReceive hl hp hs hpc => exact h.idle (by rw [hpc]; rfl) (stage_tryReceive _ _) rfl
  case pollReady wait c cells hr hpc =>
    have hi : (pollCell w o c).2.metrics = w.metrics := by cases c <;> rfl
    unfold InflightAt at h ⊢
    rw [hpc] at h
    cases wait with
    | terminalShutdown | terminalRecords => exact (congrArg ExporterMetrics.inflight hi).trans h
    | _ =>
      rw [stage_waitReady]
      exact (congrArg ExporterMetrics.inflight hi).trans h
  case pollNext wait c cells hr hpc =>
    have hi : (pollCell w o c).2.metrics = w.metrics := by cases c <;> rfl
    unfold InflightAt at h ⊢
    rw [hpc] at h
    cases wait <;> exact (congrArg ExporterMetrics.inflight hi).trans h
  case ledgerClear => cases hr
  case startExport batch hpc =>
    simp only [InflightAt, stage, setInflight, held, List.flatten_cons, List.flatten_nil,
      List.append_nil, List.length_nil, Nat.add_zero]
  case terminalInflight retained hpc =>
    simp only [InflightAt, stage, setInflight, held, retainedCount, List.length_flatten]
  case batchDone hpc => rfl
  case split e hr hl hpc =>
    unfold InflightAt at h ⊢
    rw [hpc] at h
    simp only [stage, held, attemptParts, List.flatten_append, splitRecords_flatten] at h ⊢
    exact h
  case acknowledged e n hr hpc | partialSuccess e n m hr hn hpc | rejectedAlone e hr hl hpc =>
    unfold InflightAt at h ⊢
    rw [hpc] at h
    simp only [stage, resumeStage, held, attemptParts, resumeHolding, countBatch, settle,
      List.length_append, List.length_nil, Nat.add_zero] at h ⊢
    omega
  case completed resume hpc =>
    unfold InflightAt at h ⊢
    rw [hpc] at h
    cases resume <;> exact h
  case ignored resume r rest hc hpc | complete resume r rest t hc hpc =>
    unfold InflightAt at h ⊢
    rw [hpc] at h
    cases resume with
    | nextPart stack =>
      simp only [stage, resumeStage, held, resumeHolding, List.length_append,
        List.length_cons, List.length_nil] at h ⊢
      omega
    | _ => exact h
  case notifyProgress resume rest hpc =>
    unfold InflightAt at h ⊢
    rw [hpc] at h
    cases resume <;> exact h
  all_goals
    rename_i hpc
    unfold InflightAt at h ⊢
    rw [hpc] at h
    exact h

/-- Until the gauges are reset, the in-flight gauge stands for its records. -/
def InflightLaw (s : State L) : Prop :=
  s.world.history.gaugesReset = false → InflightAt s.world s.worker

/-- An operation that resets no gauge does not write the in-flight gauge. -/
theorem control_inflight (w : World L) (c : Control) (op : ControlOp)
    (h : (controlStep w c op).1.history.gaugesReset = false) :
    (controlStep w c op).1.metrics.inflight = w.metrics.inflight := by
  cases op
  case storeShuttingDown =>
    simp only [controlStep]
    split <;> rfl
  case resetDepth | resetBytes | resetInflight => cases h
  all_goals rfl

/-- The in-flight law is kept by every step. -/
theorem InflightLaw.step (h : InflightLaw s) (hm : Move x s a s') : InflightLaw s' := by
  intro hr
  have h0 := h (gaugesReset_of_move hm hr)
  cases hm with
  | producer hi hm =>
    have hf := producer_frame hm
    unfold InflightAt at h0 ⊢
    dsimp only
    rw [hf.inflight, hf.history]
    exact h0
  | worker ha hm => exact h0.move hm hr
  | flush hj hm =>
    rw [(flush_world hm).1]
    exact h0
  | @control op rest hp hr' =>
    have hi := control_inflight s.world s.control op hr
    obtain ⟨_, _, hh⟩ := (controlStep_frame s.world s.control op).history
    unfold InflightAt at h0 ⊢
    dsimp only
    rw [hi, hh]
    exact h0
  | _ => exact h0

/-- The in-flight law holds in every run. -/
theorem inflightLaw {ok : State L → Action L → Prop}
    (h : ReachWhile (step x) ok (State.init L) s) : InflightLaw s :=
  invariant_of_moves (I := InflightLaw) (fun _ => rfl) (fun _ _ _ hi _ hm => hi.step hm) h

end EdenLogger.Gauges
