import EdenLogger.GenerationMoves

/-!
# What a step leaves alone

For each party, the parts of the shared state it never writes. An invariant
about such parts needs no case analysis for that party.
-/

namespace EdenLogger.GenerationFrames

open MachineWord WakeUpPermit RequestSizer ExporterConfig ExporterLanes LogCollector
open CompletionTracking GenerationState GenerationStep GenerationMoves

variable {L : Type} {x : Exporter L} {o : Oracle} {i : ℕ}
variable {w w' : World L} {p p' : Producer L} {k k' : Worker L} {c c' : FlushCall}

/-- What a producing thread never writes. -/
structure ProducerFrame (w w' : World L) : Prop where
  accepting : w'.accepting = w.accepting
  producersClosed : w'.producersClosed = w.producersClosed
  completedTicket : w'.completedTicket = w.completedTicket
  retired : w'.retired = w.retired
  shutdown : w'.shutdown = w.shutdown
  flush : w'.flush = w.flush
  progress : w'.progress = w.progress
  inflight : w'.metrics.inflight = w.metrics.inflight
  status : w'.metrics.status = w.metrics.status
  exported : w'.metrics.exported = w.metrics.exported
  rejected : w'.metrics.rejected = w.metrics.rejected
  droppedOversize : w'.metrics.droppedOversize = w.metrics.droppedOversize
  droppedShutdown : w'.metrics.droppedShutdown = w.metrics.droppedShutdown
  history : w'.history = { w.history with pushed := w'.history.pushed }

/-- A thread writes gauges, tickets, lanes and the records notification only. -/
theorem producer_frame (hm : ProducerMove x i w p w' p') : ProducerFrame w w' := by
  cases hm with
  | refused hpc =>
    rename_i failure
    cases failure <;> constructor <;> rfl
  | _ => constructor <;> rfl

/-- Only a registration changes a thread's lane or the number of lanes. -/
theorem producer_lane (hm : ProducerMove x i w p w' p') :
    (p'.lane = p.lane ∧ w'.registry = w.registry) ∨
      ∃ r, p.pc = .resolve r ∧ p.lane = none ∧ w' = registerLane w ∧
        p' = ⟨.claimBytes r .normal, some w.lanes.length⟩ := by
  cases hm with
  | register hl hpc => exact Or.inr ⟨_, hpc, hl, rfl, rfl⟩
  | refused hpc =>
    rename_i failure
    cases failure <;> exact Or.inl ⟨rfl, rfl⟩
  | _ => exact Or.inl ⟨rfl, rfl⟩

/-- A refused submission stays inside the callback. -/
@[simp] theorem outside_refuse (r : Submission L) (failure : ClaimFailure) (q : QueueKind) :
    (refuse r failure q).outside = false := by
  cases q with
  | normal =>
    simp only [refuse]
    split <;> rfl
  | reserved => rfl

/-- A thread inside the callback was inside before its step. -/
theorem producer_inside (hm : ProducerMove x i w p w' p') (h : p'.pc.outside = false) :
    p.pc.outside = false := by
  cases hm <;> simp_all [ProducerPc.outside]

/-- A thread becomes idle by leaving the callback. -/
theorem producer_idle (hm : ProducerMove x i w p w' p') (h : p'.pc = .idle) :
    p.pc = .leaving := by
  cases hm
  case leave hpc => exact hpc
  case bytesRefused | undoBytes | returnBytes =>
    dsimp only at h
    have hr := congrArg ProducerPc.outside h
    rw [outside_refuse] at hr
    cases hr
  case push =>
    dsimp only at h
    split at h <;> exact absurd h (by simp)
  all_goals exact absurd h (by simp)

/-- A thread past its closing step stays there. -/
theorem producer_gone (hm : ProducerMove x i w p w' p') (h : p.pc = .closed ∨ p.pc = .gone) :
    p'.pc = .closed ∨ p'.pc = .gone := by
  cases hm
  case closed => exact Or.inr rfl
  all_goals simp_all

/-- What the worker never writes. -/
structure WorkerFrame (w w' : World L) : Prop where
  accepting : w'.accepting = w.accepting
  producersClosed : w'.producersClosed = w.producersClosed
  nextTicket : w'.nextTicket = w.nextTicket
  retired : w'.retired = w.retired
  pushed : w'.history.pushed = w.history.pushed
  droppedByHandle : w'.history.droppedByHandle = w.history.droppedByHandle

/-- Polling writes only the polled cell. -/
theorem pollCell_frame (w : World L) (o : Oracle) (c : Cell) :
    WorkerFrame w (pollCell w o c).2 := by
  cases c <;> constructor <;> rfl

/-- The worker never writes the flags, the ticket counter or the push history. -/
theorem worker_frame (hm : WorkerMove x o w k w' k') : WorkerFrame w w' := by
  cases hm with
  | pollReady hr hpc =>
    have hf := pollCell_frame w o
    exact ⟨(hf _).accepting, (hf _).producersClosed, (hf _).nextTicket, (hf _).retired,
      (hf _).pushed, (hf _).droppedByHandle⟩
  | pollNext hr hpc => exact pollCell_frame w o _
  | _ => constructor <;> rfl

/-- A flush call writes only the flush notification. -/
theorem flush_world (hm : FlushMove w c w' c') :
    w' = { w with flush := w'.flush } ∧ (w'.flush = w.flush ∨ w'.flush = w.flush.notifyOne) := by
  cases hm with
  | notify hpc => exact ⟨rfl, Or.inr rfl⟩
  | _ => exact ⟨rfl, Or.inl rfl⟩

/-- A flush call keeps its target and its history variable. -/
theorem flush_call (hm : FlushMove w c w' c') : c'.target = c.target ∧ c'.before = c.before := by
  cases hm <;> exact ⟨rfl, rfl⟩

/-- What the handle's command never writes. -/
structure ControlFrame (w w' : World L) : Prop where
  producersClosed : w'.producersClosed = w.producersClosed
  nextTicket : w'.nextTicket = w.nextTicket
  completedTicket : w'.completedTicket = w.completedTicket
  lanes : w'.lanes = w.lanes
  registry : w'.registry = w.registry
  exported : w'.metrics.exported = w.metrics.exported
  rejected : w'.metrics.rejected = w.metrics.rejected
  droppedOversize : w'.metrics.droppedOversize = w.metrics.droppedOversize
  history : ∃ dropped reset,
    w'.history = { w.history with droppedByHandle := dropped, gaugesReset := reset }
  retired : w.retired = true → w'.retired = true

/-- The command never touches tickets, lanes or records. -/
theorem controlStep_frame (w : World L) (c : Control) (op : ControlOp) :
    ControlFrame w (controlStep w c op).1 := by
  cases op
  case storeShuttingDown =>
    simp only [controlStep]
    split
    · exact ⟨rfl, rfl, rfl, rfl, rfl, rfl, rfl, rfl, ⟨_, _, rfl⟩, id⟩
    · exact ⟨rfl, rfl, rfl, rfl, rfl, rfl, rfl, rfl, ⟨_, _, rfl⟩, id⟩
  case unregister => exact ⟨rfl, rfl, rfl, rfl, rfl, rfl, rfl, rfl, ⟨_, _, rfl⟩, fun _ => rfl⟩
  all_goals exact ⟨rfl, rfl, rfl, rfl, rfl, rfl, rfl, rfl, ⟨_, _, rfl⟩, id⟩

/-- A law about the worker and the history is the worker's alone to keep, unless it speaks
of what the threads pushed or of what the handle dropped or reset. -/
theorem law_of_worker {s s' : State L} {a : Action L} {I : History → Worker L → Prop}
    (hframe : ∀ h k pushed dropped reset, I h k →
      I { h with pushed := pushed, droppedByHandle := dropped, gaugesReset := reset } k)
    (hworker : ∀ o w' k', WorkerMove x o s.world s.worker w' k' → I w'.history k')
    (h : I s.world.history s.worker) (hm : Move x s a s') : I s'.world.history s'.worker := by
  cases hm with
  | worker ha hm => exact hworker _ _ _ hm
  | producer hi hm =>
    rw [(producer_frame hm).history]
    exact hframe _ _ _ _ _ h
  | flush hj hm =>
    rw [(flush_world hm).1]
    exact h
  | @control op rest hp hr =>
    obtain ⟨_, _, hh⟩ := (controlStep_frame s.world s.control op).history
    rw [hh]
    exact hframe _ _ _ _ _ h
  | _ => exact h

end EdenLogger.GenerationFrames
