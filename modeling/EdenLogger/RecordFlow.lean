import EdenLogger.LaneOwnership

/-!
# Where records are

A record goes from its thread's hands to a lane, is detached and moved to the
inbox, popped, mapped, carried over or put into a batch, exported in parts,
resolved and completed. Three conservation laws split this way at the push and
at the pop: what a stage has received is what it passed on and what it holds.
-/

namespace EdenLogger.RecordFlow

open MachineWord WakeUpPermit ExporterLanes LogCollector GenerationState GenerationStep
open GenerationMoves GenerationFrames ListCells LaneTable RunRules

variable {L : Type} {x : Exporter L} {s s' : State L} {a : Action L}

/-! ## The worker's holdings -/

/-- What the worker's program counter holds. -/
structure Holding (L : Type) where
  /-- Detached pairs with their lanes. -/
  detached : List (ℕ × LaneQueues L) := []
  /-- The popped record that is not mapped yet. -/
  hand : List (QueuedLog L) := []
  /-- The batch under assembly, with a record offered to it. -/
  batch : List MappedLog := []
  /-- The parts of the batch being exported, in sending order. -/
  parts : List MappedLog := []
  /-- Resolved records whose tickets are not completed yet. -/
  settled : List MappedLog := []
  /-- Resolved records that no outcome counter includes yet. -/
  uncounted : ℕ := 0

/-- The batch under assembly at a receive site. -/
def siteBatch : Site → List MappedLog
  | .nextDraining a | .nextPolled a | .nextWoken a => a.batch
  | .firstDraining | .receive | .exitCheck => []

/-- The batch under assembly during a drain. -/
def drainBatch : Drain → List MappedLog
  | .boundary => []
  | .receiving site => siteBatch site

/-- What the worker holds while it waits. -/
def waitHolding : Wait → Holding L
  | .receive | .producersClosed => {}
  | .assembly a => { batch := a.batch }
  | .terminalShutdown retained | .terminalRecords retained => { parts := retained.flatten }

/-- What the worker holds besides the records it completes. -/
def resumeHolding : Resume → Holding L
  | .loopTop => {}
  | .assemble a => { batch := a.batch }
  | .nextPart stack => { parts := stack.flatten }

/-- What an exit retains. -/
def exitParts : Exit → List MappedLog
  | .drained => []
  | .terminal retained _ => retained.flatten

/-- The records of an export in progress, in sending order. -/
def attemptParts (e : Attempt) : List MappedLog := e.records ++ e.stack.flatten

/-- What the worker holds where it stands. -/
def held : WorkerPc L → Holding L
  | .drain d => { batch := drainBatch d }
  | .take d _ detached => { detached := detached, batch := drainBatch d }
  | .pop site => { batch := siteBatch site }
  | .release site log => { hand := [log], batch := siteBatch site }
  | .chooseFirst => {}
  | .first r => { batch := [r] }
  | .assemble a => { batch := a.batch }
  | .offer a r => { batch := a.batch ++ [r] }
  | .poll wait _ => waitHolding wait
  | .parked wait => waitHolding wait
  | .loadClosed => {}
  | .startExport batch => { parts := batch }
  | .nextPart stack => { parts := stack.flatten }
  | .attempt e => { parts := attemptParts e }
  | .awaitReply e => { parts := attemptParts e }
  | .retrySleep e => { parts := attemptParts e }
  | .retried e _ => { parts := attemptParts e }
  | .countRejected e rejected =>
    { parts := e.stack.flatten, settled := e.records, uncounted := rejected }
  | .completing resume settled => { resumeHolding resume with settled := settled }
  | .notifyProgress resume settled => { resumeHolding resume with settled := settled }
  | .batchDone => {}
  | .batchStatus => {}
  | .terminalInflight retained => { parts := retained.flatten }
  | .terminalAccepting retained => { parts := retained.flatten }
  | .terminalClosed retained => { parts := retained.flatten }
  | .ledgerNormal retained => { parts := retained.flatten }
  | .ledgerReserved retained _ => { parts := retained.flatten }
  | .ledgerAdd retained _ => { parts := retained.flatten }
  | .ledgerClear retained _ => { parts := retained.flatten }
  | .storeStopped exit => { parts := exitParts exit }
  | .notifyStopped exit => { parts := exitParts exit }
  | .reporting exit => { parts := exitParts exit }
  | .finished exit _ => { parts := exitParts exit }

/-- `try_receive` starts with a drain or with a record of the inbox. -/
theorem tryReceive_cases (input : LaneQueues L) (site : Site) :
    tryReceive input site = .drain (.receiving site) ∨ tryReceive input site = .pop site := by
  unfold tryReceive
  split
  · exact Or.inl rfl
  · exact Or.inr rfl

/-- Entering `try_receive` holds the batch of its site. -/
@[simp] theorem held_tryReceive (input : LaneQueues L) (site : Site) :
    held (tryReceive input site) = { batch := siteBatch site } := by
  unfold tryReceive
  split <;> rfl

/-- Before the first record there is no batch. -/
theorem siteBatch_choose (shuttingDown : Bool) :
    siteBatch (if shuttingDown then .firstDraining else .receive) = [] := by
  split <;> rfl

/-- Between records there is the batch under assembly. -/
theorem siteBatch_assemble (shuttingDown : Bool) (a : Assembly) :
    siteBatch (if shuttingDown then .nextDraining a else .nextPolled a) = a.batch := by
  split <;> rfl

/-- A drain keeps the batch under assembly. -/
@[simp] theorem held_drainNext (d : Drain) :
    held (drainNext d : WorkerPc L) = { batch := drainBatch d } := by
  cases d <;> rfl

/-- After completing, the worker holds what it held besides. -/
@[simp] theorem held_resumePc (resume : Resume) :
    held (resumePc resume : WorkerPc L) = resumeHolding resume := by
  cases resume <;> rfl

/-- Without a next record the batch stays open or goes to export. -/
theorem held_receivedNone (input : LaneQueues L) (site : Site) :
    held (receivedNone input site) = { batch := siteBatch site } ∨
      held (receivedNone input site) = { parts := siteBatch site } := by
  cases site
  case firstDraining => exact Or.inl (held_tryReceive input _)
  case receive | exitCheck | nextPolled => exact Or.inl rfl
  all_goals exact Or.inr rfl

/-- A received record joins the batch, or the carry-over queue. -/
theorem held_received (k : Worker L) (r : MappedLog) (site : Site) :
    (held (received k r site).pc = { batch := siteBatch site ++ [r] } ∧
        (received k r site).pending = k.pending) ∨
      (siteBatch site = [] ∧ held (received k r site).pc = {} ∧
        (received k r site).pending = k.pending ++ [r]) := by
  cases site
  case exitCheck => exact Or.inr ⟨rfl, rfl, rfl⟩
  all_goals exact Or.inl ⟨rfl, rfl⟩

/-- A wait that ends keeps what the worker holds, or sends the batch to export. -/
theorem held_waitReady (k : Worker L) (c : Cell) (wait : Wait) :
    held (waitReady k c wait).pc = waitHolding wait ∨
      (waitHolding wait : Holding L).parts = [] ∧
        held (waitReady k c wait).pc = { parts := (waitHolding wait : Holding L).batch } := by
  cases wait <;> cases c <;>
    first
      | exact Or.inl rfl
      | exact Or.inl (held_tryReceive k.input _)
      | exact Or.inr ⟨rfl, rfl⟩

@[simp] theorem waitReady_pending (k : Worker L) (c : Cell) (wait : Wait) :
    (waitReady k c wait).pending = k.pending := by
  cases wait <;> cases c <;> rfl

@[simp] theorem waitReady_input (k : Worker L) (c : Cell) (wait : Wait) :
    (waitReady k c wait).input = k.input := by
  cases wait <;> cases c <;> rfl

@[simp] theorem received_input (k : Worker L) (r : MappedLog) (site : Site) :
    (received k r site).input = k.input := by
  cases site <;> rfl

@[simp] theorem waitHolding_detached (wait : Wait) :
    (waitHolding wait : Holding L).detached = [] := by
  cases wait <;> rfl

@[simp] theorem waitHolding_hand (wait : Wait) : (waitHolding wait : Holding L).hand = [] := by
  cases wait <;> rfl

@[simp] theorem waitHolding_settled (wait : Wait) :
    (waitHolding wait : Holding L).settled = [] := by
  cases wait <;> rfl

@[simp] theorem waitHolding_uncounted (wait : Wait) :
    (waitHolding wait : Holding L).uncounted = 0 := by
  cases wait <;> rfl

@[simp] theorem resumeHolding_detached (resume : Resume) :
    (resumeHolding resume : Holding L).detached = [] := by
  cases resume <;> rfl

@[simp] theorem resumeHolding_hand (resume : Resume) :
    (resumeHolding resume : Holding L).hand = [] := by
  cases resume <;> rfl

@[simp] theorem resumeHolding_settled (resume : Resume) :
    (resumeHolding resume : Holding L).settled = [] := by
  cases resume <;> rfl

@[simp] theorem resumeHolding_uncounted (resume : Resume) :
    (resumeHolding resume : Holding L).uncounted = 0 := by
  cases resume <;> rfl

/-! ## From the thread to the lane -/

/-- The ticket of a record that is not pushed yet. -/
def ticketOf (p : Producer L) : List ℕ :=
  match p.pc with
  | .push _ _ ticket => [ticket]
  | _ => []

/-- Tickets taken and not pushed yet. -/
def taken (threads : List (Producer L)) : List ℕ := threads.flatMap ticketOf

/-- A thread outside the callback holds no ticket. -/
theorem ticketOf_outside {p : Producer L} (h : p.pc.outside = true) : ticketOf p = [] := by
  unfold ticketOf
  split
  · rename_i hpc
    rw [hpc] at h
    cases h
  · rfl

/-- What a thread's step does to tickets: nothing, take the next one, or push. -/
theorem producer_ticket {i : ℕ} {w w' : World L} {p p' : Producer L}
    (hm : ProducerMove x i w p w' p') :
    (ticketOf p = [] ∧ ticketOf p' = [] ∧ w'.nextTicket = w.nextTicket ∧
        w'.history.pushed = w.history.pushed) ∨
      (ticketOf p = [] ∧ ticketOf p' = [w.nextTicket + 1] ∧ w.nextTicket < wordMax ∧
        w'.nextTicket = w.nextTicket + 1 ∧ w'.history.pushed = w.history.pushed) ∨
      ∃ tag : Tag, ticketOf p = [tag.ticket] ∧ ticketOf p' = [] ∧
        w'.nextTicket = w.nextTicket ∧ w'.history.pushed = w.history.pushed ++ [tag] := by
  have hout : ∀ (r : Submission L) (f : ClaimFailure) (q : QueueKind) (lane : Option ℕ),
      ticketOf ⟨refuse r f q, lane⟩ = [] := fun r f q lane => by
    cases q with
    | normal =>
      simp only [refuse]
      split <;> rfl
    | reserved => rfl
  cases hm
  case takeTicket hn hpc =>
    exact Or.inr (Or.inl ⟨by simp only [ticketOf, hpc], rfl, hn, rfl, rfl⟩)
  case push r q ticket j lane hj hl hpc =>
    refine Or.inr (Or.inr ⟨⟨ticket, q, i⟩, by simp only [ticketOf, hpc], ?_, rfl, rfl⟩)
    simp only [ticketOf]
    split
    · rename_i h
      split at h <;> cases h
    · rfl
  case refused failure hpc =>
    cases failure <;> exact Or.inl ⟨by simp only [ticketOf, hpc], rfl, rfl, rfl⟩
  case bytesRefused _ hpc => exact Or.inl ⟨by simp only [ticketOf, hpc], hout _ _ _ _, rfl, rfl⟩
  case undoBytes hpc => exact Or.inl ⟨by simp only [ticketOf, hpc], hout _ _ _ _, rfl, rfl⟩
  case returnBytes hpc => exact Or.inl ⟨by simp only [ticketOf, hpc], hout _ _ _ _, rfl, rfl⟩
  all_goals exact Or.inl ⟨by simp only [ticketOf, *], rfl, rfl, rfl⟩

/-- The tickets handed out are the ones taken and the ones pushed, each once. -/
def TicketLaw (s : State L) : Prop :=
  (taken s.threads ++ s.world.history.pushed.map Tag.ticket).Perm
    (List.range' 1 s.world.nextTicket)

/-- A thread that holds no ticket before and after its step changes nothing. -/
theorem taken_set {threads : List (Producer L)} {i : ℕ} {p p' : Producer L}
    (hi : threads[i]? = some p) (hp : ticketOf p' = ticketOf p) :
    taken (threads.set i p') = taken threads :=
  flatMap_set_eq ticketOf hi hp

/-- The ticket law is kept by every step. -/
theorem TicketLaw.step (h : TicketLaw s) (hm : Move x s a s') : TicketLaw s' := by
  unfold TicketLaw at h ⊢
  cases hm with
  | spawn =>
    simp only [taken, List.flatMap_append, List.flatMap_cons, List.flatMap_nil, List.append_nil,
      ticketOf]
    exact h
  | enter hi hpc hr =>
    rw [taken_set hi (by simp only [ticketOf, hpc])]
    exact h
  | exit hi hpc =>
    rw [taken_set hi]
    · exact h
    · rw [ticketOf_outside (by dsimp only; split <;> rfl), ticketOf_outside (by rw [hpc]; rfl)]
  | @producer i p p' w' hi hm =>
    have hset := flatMap_set_perm ticketOf hi p'
    simp only [taken] at h ⊢
    rcases producer_ticket hm with
      ⟨hp, hp', hn, hpu⟩ | ⟨hp, hp', -, hn, hpu⟩ | ⟨tag, hp, hp', hn, hpu⟩
    · rw [flatMap_set_eq ticketOf hi (hp'.trans hp.symm), hn, hpu]
      exact h
    · rw [hp, hp', List.append_nil] at hset
      rw [hn, hpu, List.range'_concat]
      refine (hset.append_right _).trans ?_
      rw [List.append_assoc]
      refine (List.perm_append_comm.append_left _).trans ?_
      rw [← List.append_assoc, Nat.one_mul, Nat.add_comm]
      exact h.append_right _
    · rw [hp, hp', List.append_nil] at hset
      rw [hn, hpu, List.map_append, ← List.append_assoc]
      refine List.Perm.trans ?_ h
      rw [List.append_assoc]
      refine (List.perm_append_comm.append_left _).trans ?_
      rw [← List.append_assoc]
      exact hset.append_right _
  | worker ha hm =>
    have hf := worker_frame hm
    rw [hf.nextTicket, hf.pushed]
    exact h
  | flush hj hm =>
    rw [(flush_world hm).1]
    exact h
  | @control op rest hp hr =>
    have hf := controlStep_frame s.world s.control op
    obtain ⟨_, _, hh⟩ := hf.history
    rw [hf.nextTicket, hh]
    exact h
  | _ => exact h

/-- The ticket law holds in every run. -/
theorem ticketLaw {ok : State L → Action L → Prop}
    (h : ReachWhile (step x) ok (State.init L) s) : TicketLaw s :=
  invariant_of_moves (I := TicketLaw)
    (by simp [TicketLaw, State.init, World.new, History.new, taken])
    (fun _ _ _ hi _ hm => hi.step hm) h

/-! ## From the lane to the pop -/

/-- The records of detached pairs. -/
def detachedRecords (detached : List (ℕ × LaneQueues L)) : List (QueuedLog L) :=
  detached.flatMap fun p => p.2.records

/-- The records that are pushed and not popped: in lanes, detached, or in the
inbox. -/
def queued (w : World L) (k : Worker L) : List (QueuedLog L) :=
  laneRecords w.lanes ++ (detachedRecords (held k.pc).detached ++ k.input.records)

/-- The inbox after a drain: each kind behind what it held. -/
theorem moveDetached_eq (detached : List (ℕ × LaneQueues L)) (input : LaneQueues L) :
    moveDetached detached input =
      ⟨input.normal ++ drained .normal (detached.map Prod.snd),
        input.reserved ++ drained .reserved (detached.map Prod.snd)⟩ := by
  have hk := drainBatches_other (q := .reserved) (r := .normal) (by decide)
    (detached.map Prod.snd) input.reserved
  unfold moveDetached
  simp only [drainBatches_output]
  simp only [drained, hk]

/-- The queues of both kinds hold the records of the pairs. -/
theorem kindQueues_perm (batches : List (LaneQueues L)) :
    ((kindQueues .reserved batches).flatten ++ (kindQueues .normal batches).flatten).Perm
      (batches.flatMap LaneQueues.records) := by
  classical
  induction batches with
  | nil => exact List.Perm.refl _
  | cons b rest ih =>
    rw [List.perm_iff_count] at ih ⊢
    intro r
    have := ih r
    simp only [kindQueues, List.map_cons, List.flatten_cons, List.flatMap_cons, List.count_append,
      LaneQueues.records, PerQueue.get] at this ⊢
    omega

/-- A drain moves the detached records to the inbox. -/
theorem moveDetached_records (detached : List (ℕ × LaneQueues L)) (input : LaneQueues L) :
    (moveDetached detached input).records.Perm (detachedRecords detached ++ input.records) := by
  classical
  have hr := (drained_perm .reserved (detached.map Prod.snd)).count_eq
  have hn := (drained_perm .normal (detached.map Prod.snd)).count_eq
  have hk := (kindQueues_perm (detached.map Prod.snd)).count_eq
  rw [moveDetached_eq, List.perm_iff_count]
  intro r
  have h1 := hr r
  have h2 := hn r
  have h3 := hk r
  simp only [LaneQueues.records, detachedRecords, List.count_append, List.flatMap_map] at h3 ⊢
  omega

/-- What a worker step does to lanes, detached pairs and the inbox. -/
inductive QueueMove (w : World L) (k : Worker L) (w' : World L) (k' : Worker L) : Prop where
  | keep (hl : w'.lanes = w.lanes) (hd : (held k'.pc).detached = (held k.pc).detached)
      (hi : k'.input = k.input) (hp : w'.history.popped = w.history.popped)
      (hc : w'.history.discarded = w.history.discarded)
  | take {d : Drain} {i : ℕ} {todo : List ℕ} {detached : List (ℕ × LaneQueues L)}
      {lane : ProducerLane L} (hpc : k.pc = .take d (i :: todo) detached)
      (hi : w.lanes[i]? = some lane) (hw : w' = { w with lanes := w.lanes.set i lane.take.2 })
      (hk : k' = { k with pc := .take d todo (detached ++ [(i, lane.queues)]) })
  | detach {d : Drain} {detached : List (ℕ × LaneQueues L)} (hpc : k.pc = .take d [] detached)
      (hw : w' = { w with lanes := recycleLanes w.lanes (emptied detached k.input) })
      (hk : k' = { k with pc := drainNext d, input := moveDetached detached k.input })
  | pop {site : Site} {log : QueuedLog L} {input : LaneQueues L} (hpc : k.pc = .pop site)
      (hi : k.input.popFront = some (log, input))
      (hw : w' = subDepth { w with history.popped := w.history.popped ++ [log.tag] } log.queue)
      (hk : k' = { k with pc := .release site log, input := input })
  | clear {retained : List (List MappedLog)} {remaining : ℕ}
      (hpc : k.pc = .ledgerClear retained remaining) (hw : w' = clearQueues w k)
      (hk : k' = { k with pc := .storeStopped (.terminal retained remaining), input := .new })

/-- Every worker step moves queued records in one of these ways. -/
theorem queueMove {o : Oracle} {w w' : World L} {k k' : Worker L} (hm : WorkerMove x o w k w' k') :
    QueueMove w k w' k' := by
  cases hm
  case take d i todo detached lane hl hpc => exact .take hpc hl rfl rfl
  case detach d detached hpc => exact .detach hpc rfl rfl
  case pop site log input hi hpc => exact .pop hpc hi rfl rfl
  case ledgerClear retained remaining hpc => exact .clear hpc rfl rfl
  case popNone site hi hpc =>
    refine .keep rfl ?_ rfl rfl rfl
    rw [hpc]
    rcases held_receivedNone k.input site with h | h <;> dsimp only <;> rw [h] <;> rfl
  case release site log hpc =>
    refine .keep rfl ?_ (received_input k _ site) rfl rfl
    rw [hpc]
    rcases held_received k (mapLog x o.now log) site with ⟨h, -⟩ | ⟨-, h, -⟩ <;> rw [h] <;> rfl
  case chooseReceive hp hs hpc =>
    exact .keep rfl (by rw [hpc]; dsimp only; rw [held_tryReceive]; rfl) rfl rfl rfl
  case assembleReceive hl hp hs hpc =>
    exact .keep rfl (by rw [hpc]; dsimp only; rw [held_tryReceive]; rfl) rfl rfl rfl
  case pollReady wait c cells hr hpc =>
    refine .keep ?_ ?_ (waitReady_input k c wait) ?_ ?_
    · cases c <;> rfl
    · rw [hpc]
      rcases held_waitReady k c wait with h | ⟨-, h⟩
      · rw [h]
        rfl
      · rw [h]
        exact (waitHolding_detached wait).symm
    · cases c <;> rfl
    · cases c <;> rfl
  case pollNext wait c cells hr hpc =>
    refine .keep ?_ (by rw [hpc]; rfl) rfl ?_ ?_ <;> cases c <;> rfl
  case completed resume hpc =>
    refine .keep rfl ?_ rfl rfl rfl
    rw [hpc]
    dsimp only
    rw [held_resumePc]
    rfl
  case notifyProgress resume rest hpc => exact .keep rfl (by rw [hpc]; rfl) rfl rfl rfl
  all_goals
    rename_i hpc
    exact .keep rfl (by rw [hpc]; rfl) rfl rfl rfl

/-- What a worker step does to the queued records: nothing, pop one, or clear
the queues. -/
theorem worker_queue {o : Oracle} {w w' : World L} {k k' : Worker L}
    (hm : WorkerMove x o w k w' k')
    (hs : ∀ {j : ℕ} {lane : ProducerLane L}, w.lanes[j]? = some lane → SpareEmpty lane) :
    ((queued w' k').Perm (queued w k) ∧ w'.history.popped = w.history.popped ∧
        w'.history.discarded = w.history.discarded) ∨
      (∃ site log input, k.pc = .pop site ∧ k.input.popFront = some (log, input) ∧
        (queued w k).Perm (log :: queued w' k') ∧
        w'.history.popped = w.history.popped ++ [log.tag] ∧
        w'.history.discarded = w.history.discarded) ∨
      ∃ retained remaining cleared, k.pc = .ledgerClear retained remaining ∧
        w'.history.popped = w.history.popped ∧
        w'.history.discarded = w.history.discarded ++ cleared ∧
        ((queued w' k').map QueuedLog.tag ++ cleared).Perm ((queued w k).map QueuedLog.tag) := by
  classical
  cases queueMove hm with
  | keep hl hd hi hp hc =>
    refine Or.inl ⟨?_, hp, hc⟩
    unfold queued
    rw [hl, hd, hi]
  | @take d i todo detached lane hpc hi hw hk =>
    subst hw hk
    refine Or.inl ⟨?_, rfl, rfl⟩
    have hset := flatMap_set_perm (fun lane => lane.queues.records) hi lane.take.2
    rw [records_take (hs hi), List.append_nil, List.perm_iff_count] at hset
    rw [List.perm_iff_count]
    intro r
    have := hset r
    simp only [queued, laneRecords, detachedRecords, hpc, held, List.count_append,
      List.flatMap_append, List.flatMap_cons, List.flatMap_nil, List.append_nil] at this ⊢
    omega
  | @detach d detached hpc hw hk =>
    subst hw hk
    refine Or.inl ⟨?_, rfl, rfl⟩
    unfold queued
    dsimp only
    rw [hpc, held_drainNext, laneRecords_recycle]
    exact (moveDetached_records detached k.input).append_left _
  | @pop site log input hpc hi hw hk =>
    subst hw hk
    refine Or.inr (Or.inl ⟨site, log, input, hpc, hi, ?_, rfl, rfl⟩)
    have hrec := LaneQueues.records_popFront hi
    rw [List.perm_iff_count]
    intro r
    simp only [queued, hpc, held, hrec, subDepth, setDepth, List.count_append, List.count_cons]
    omega
  | @clear retained remaining hpc hw hk =>
    subst hw hk
    refine Or.inr (Or.inr ⟨retained, remaining, _, hpc, rfl, rfl, ?_⟩)
    have hc := clearLanes_perm w.lanes w.registry.lanes
    rw [List.perm_iff_count] at hc ⊢
    intro t
    have := hc t
    simp only [queued, clearQueues, hpc, held, detachedRecords, List.map_append, List.count_append,
      List.flatMap_nil, List.map_nil, List.count_nil, LaneQueues.records_new] at this ⊢
    omega

/-- A push to a lane, as the table and the history see it. -/
def Pushes (w w' : World L) (p : Producer L) (log : QueuedLog L) : Prop :=
  ∃ j lane, p.lane = some j ∧ w.lanes[j]? = some lane ∧ w'.lanes = w.lanes.set j (lane.push log).2 ∧
    w'.history.pushed = w.history.pushed ++ [log.tag] ∧ p.pc.outside = false ∧
    ticketOf p = [log.ticket]

/-- A pushed record joins the records of the lanes. -/
theorem laneRecords_push {lanes : List (ProducerLane L)} {j : ℕ} {lane : ProducerLane L}
    (hl : lanes[j]? = some lane) (log : QueuedLog L) :
    (laneRecords (lanes.set j (lane.push log).2)).Perm (log :: laneRecords lanes) := by
  classical
  have hset := flatMap_set_perm (fun lane => lane.queues.records) hl (lane.push log).2
  have hp := lane.records_push log
  rw [List.perm_iff_count] at hset hp ⊢
  intro r
  have h1 := hset r
  have h2 := hp r
  simp only [laneRecords, List.count_append, List.count_cons] at h1 h2 ⊢
  omega

/-- A registered lane brings no record. -/
theorem laneRecords_register (w : World L) :
    laneRecords (registerLane w).lanes = laneRecords w.lanes := by
  simp only [registerLane, laneRecords, List.flatMap_append, List.flatMap_cons, List.flatMap_nil,
    List.append_nil]
  exact List.append_nil _

/-- A push brings its record. -/
theorem Pushes.records {w w' : World L} {p : Producer L} {log : QueuedLog L}
    (h : Pushes w w' p log) : (laneRecords w'.lanes).Perm (log :: laneRecords w.lanes) := by
  obtain ⟨j, lane, -, hl, hw, -⟩ := h
  rw [hw]
  exact laneRecords_push hl log

/-- What a thread's step does to the records of the lanes: nothing, or a push. -/
theorem producer_records {i : ℕ} {w w' : World L} {p p' : Producer L}
    (hm : ProducerMove x i w p w' p') :
    (laneRecords w'.lanes = laneRecords w.lanes ∧ w'.history.pushed = w.history.pushed) ∨
      ∃ log : QueuedLog L, log.producer = i ∧ Pushes w w' p log := by
  cases hm
  case register => exact Or.inl ⟨laneRecords_register w, rfl⟩
  case push r q ticket j lane hj hl hpc =>
    refine Or.inr ⟨⟨r.log, q, r.bytes, ticket, i⟩, rfl, j, lane, hj, hl, rfl, rfl, ?_, ?_⟩
    · rw [hpc]
      rfl
    · simp only [ticketOf, hpc]
  case close j lane hj hl hpc => exact Or.inl ⟨flatMap_set_eq _ hl rfl, rfl⟩
  case refused failure hpc => cases failure <;> exact Or.inl ⟨rfl, rfl⟩
  all_goals exact Or.inl ⟨rfl, rfl⟩

/-- The records pushed are the ones queued, popped and discarded, each once. -/
def QueueLaw (s : State L) : Prop :=
  ((queued s.world s.worker).map QueuedLog.tag ++
    (s.world.history.popped ++ s.world.history.discarded)).Perm s.world.history.pushed

/-- The queue law is kept by every step. -/
theorem QueueLaw.step (h : QueueLaw s) (ho : LaneOwnership.LanesOwned s) (hm : Move x s a s') :
    QueueLaw s' := by
  unfold QueueLaw at h ⊢
  rw [List.perm_iff_count] at h ⊢
  intro t
  have ht := h t
  cases hm with
  | @producer i p p' w' hi hm =>
    have hf := producer_frame hm
    rw [hf.history]
    rcases producer_records hm with ⟨hl, hp⟩ | ⟨log, -, hp⟩
    · simp only [queued, hl, hp] at ht ⊢
      exact ht
    · have hr := (hp.records.map QueuedLog.tag).count_eq t
      obtain ⟨-, -, -, -, -, hpu, -⟩ := hp
      simp only [queued, hpu, List.map_append, List.map_cons, List.count_append, List.count_cons,
        List.count_nil] at ht hr ⊢
      omega
  | worker ha hm =>
    have hf := worker_frame hm
    dsimp only
    rw [hf.pushed, ← ht]
    rcases worker_queue hm ho.spare with ⟨hq, hp, hd⟩ | ⟨_, log, _, -, -, hq, hp, hd⟩ |
      ⟨_, _, cleared, -, hp, hd, hq⟩
    · have hq := (hq.map QueuedLog.tag).count_eq t
      simp only [hp, hd, List.count_append]
      omega
    · have hq := (hq.map QueuedLog.tag).count_eq t
      simp only [hp, hd, List.count_append, List.map_cons, List.count_cons,
        List.count_nil] at hq ⊢
      omega
    · have hq := hq.count_eq t
      simp only [hp, hd, List.count_append] at hq ⊢
      omega
  | flush hj hm =>
    rw [(flush_world hm).1]
    exact ht
  | @control op rest hp hr =>
    have hf := controlStep_frame s.world s.control op
    obtain ⟨_, _, hh⟩ := hf.history
    simp only [queued, hf.lanes, hh] at ht ⊢
    exact ht
  | _ => exact ht

/-- The queue law holds in every run. -/
theorem queueLaw {ok : State L → Action L → Prop}
    (h : ReachWhile (step x) ok (State.init L) s) : QueueLaw s :=
  invariant_of_moves_using (I := QueueLaw) (fun _ => LaneOwnership.lanesOwned)
    (by
      simp [QueueLaw, State.init, World.new, History.new, queued, laneRecords, detachedRecords,
        Worker.new, held])
    (fun _ _ _ ho _ hi _ hm => hi.step ho hm) h

/-! ## From the pop to the completion -/

/-- The tickets the worker holds past the pop. -/
def holdingTickets (k : Worker L) : List ℕ :=
  (held k.pc).hand.map QueuedLog.ticket ++
    ((held k.pc).parts ++ ((held k.pc).batch ++ (k.pending ++ (held k.pc).settled))).map
      MappedLog.ticket

/-- The tickets popped are the ones the worker holds and the ones it completed,
each once. -/
def ExportLaw (s : State L) : Prop :=
  (holdingTickets s.worker ++ s.world.history.completed).Perm
    (s.world.history.popped.map Tag.ticket)

/-- Splitting a part keeps its records and their order. -/
theorem splitRecords_flatten (records : List MappedLog) :
    (splitRecords records).flatten = records := by
  simp only [splitRecords, List.flatten_cons, List.flatten_nil, List.append_nil,
    List.take_append_drop]

/-- A worker step passes its records on. -/
theorem worker_export {o : Oracle} {w w' : World L} {k k' : Worker L}
    (hm : WorkerMove x o w k w' k')
    (h : (holdingTickets k ++ w.history.completed).Perm (w.history.popped.map Tag.ticket)) :
    (holdingTickets k' ++ w'.history.completed).Perm (w'.history.popped.map Tag.ticket) := by
  rw [List.perm_iff_count] at h ⊢
  intro t
  have ht := h t
  clear h
  simp only [holdingTickets, List.map_append, List.count_append] at ht ⊢
  cases hm
  case detach d detached hpc =>
    simp only [hpc, held_drainNext] at ht ⊢
    exact ht
  case popNone site hi hpc =>
    rcases held_receivedNone k.input site with h | h
    all_goals
      simp only [hpc, h] at ht ⊢
      simp only [held, List.map_nil, List.count_nil] at ht ⊢
      omega
  case pop site log input hi hpc =>
    simp only [hpc, held, subDepth, setDepth, List.map_append, List.map_cons, List.map_nil,
      List.count_append, List.count_cons, List.count_nil, QueuedLog.tag] at ht ⊢
    omega
  case release site log hpc =>
    rcases held_received k (mapLog x o.now log) site with ⟨h, hp⟩ | ⟨hs, h, hp⟩
    · simp only [hpc, h, hp] at ht ⊢
      simp only [held, mapLog, subBytes, setBytes, List.map_append, List.map_cons,
        List.map_nil, List.count_append, List.count_cons, List.count_nil] at ht ⊢
      omega
    · simp only [hpc, h, hp] at ht ⊢
      simp only [hs, held, mapLog, subBytes, setBytes, List.map_append, List.map_cons,
        List.map_nil, List.count_append, List.count_cons, List.count_nil] at ht ⊢
      omega
  case chooseReceive site hp hs hpc =>
    simp only [hpc, held_tryReceive, hs, siteBatch_choose] at ht ⊢
    exact ht
  case assembleReceive a site hl hp hs hpc =>
    simp only [hpc, held_tryReceive, hs, siteBatch_assemble] at ht ⊢
    exact ht
  case pollReady wait c cells hr hpc =>
    have hw : (pollCell w o c).2.history = w.history := by cases c <;> rfl
    rcases held_waitReady k c wait with h | ⟨hp, h⟩
    · simp only [hpc, h, dropWaits, hw, waitReady_pending] at ht ⊢
      exact ht
    · simp only [hpc, h, dropWaits, hw, waitReady_pending] at ht ⊢
      simp only [held, hp, waitHolding_hand, waitHolding_settled, List.map_nil,
        List.count_nil] at ht ⊢
      omega
  case pollNext wait c cells hr hpc =>
    have hw : (pollCell w o c).2.history = w.history := by cases c <;> rfl
    simp only [hpc, held, hw] at ht ⊢
    exact ht
  case completed resume hpc =>
    simp only [hpc, held_resumePc, resumeHolding_settled] at ht ⊢
    exact ht
  case ledgerClear retained remaining hpc =>
    simp only [hpc, held, clearQueues, exitParts] at ht ⊢
    exact ht
  case chooseCarried r pending hp hpc =>
    simp only [hpc, hp, held, List.map_cons, List.map_nil, List.count_cons, List.count_nil] at ht ⊢
    omega
  case assembleCarried a r pending hl hp hpc =>
    simp only [hpc, hp, held, List.map_append, List.map_cons, List.map_nil, List.count_append,
      List.count_cons, List.count_nil] at ht ⊢
    omega
  all_goals
    rename_i hpc
    simp only [hpc, held, waitHolding, resumeHolding, attemptParts, exitParts, addRecord,
      splitRecords_flatten, rejectOversize, setInflight, sendRequest, settle, countBatch,
      countRejected, setStatus, pruneLanes, drainBatch, startWait, waitHolding, List.flatten_cons,
      List.flatten_append, List.flatten_nil, List.append_nil, List.map_append, List.map_cons,
      List.map_nil, List.count_append, List.count_cons, List.count_nil] at ht ⊢
    omega

/-- The export law is kept by every step. -/
theorem ExportLaw.step (h : ExportLaw s) (hm : Move x s a s') : ExportLaw s' :=
  law_of_worker (I := fun past k =>
    (holdingTickets k ++ past.completed).Perm (past.popped.map Tag.ticket))
    (fun _ _ _ _ _ h => h) (fun _ _ _ hm => worker_export hm h) h hm

/-- The export law holds in every run. -/
theorem exportLaw {ok : State L → Action L → Prop}
    (h : ReachWhile (step x) ok (State.init L) s) : ExportLaw s :=
  invariant_of_moves (I := ExportLaw)
    (by simp [ExportLaw, State.init, World.new, History.new, holdingTickets, Worker.new, held,
      drainBatch])
    (fun _ _ _ hi _ hm => hi.step hm) h

/-! ## The laws together -/

/-- The counter of tickets is a word. -/
def TicketBound (s : State L) : Prop := s.world.nextTicket ≤ wordMax

/-- The bound is kept by every step: the counter's last value is not passed. -/
theorem TicketBound.step (h : TicketBound s) (hm : Move x s a s') : TicketBound s' := by
  unfold TicketBound at h ⊢
  cases hm with
  | producer hi hm =>
    dsimp only
    rcases producer_ticket hm with ⟨-, -, hn, -⟩ | ⟨-, -, hlt, hn, -⟩ | ⟨-, -, -, hn, -⟩ <;> omega
  | worker ha hm =>
    dsimp only
    rw [(worker_frame hm).nextTicket]
    exact h
  | flush hj hm =>
    rw [(flush_world hm).1]
    exact h
  | @control op rest hp hr =>
    dsimp only
    rw [(controlStep_frame s.world s.control op).nextTicket]
    exact h
  | _ => exact h

/-- What every reached state satisfies about threads, lanes and records. -/
structure Conserved (s : State L) : Prop where
  quiescence : LaneOwnership.Quiescence s
  lanes : LaneOwnership.LanesOwned s
  tickets : TicketLaw s
  bound : TicketBound s
  queue : QueueLaw s
  exports : ExportLaw s

/-- The laws hold in every run. -/
theorem conserved {ok : State L → Action L → Prop}
    (h : ReachWhile (step x) ok (State.init L) s) : Conserved s where
  quiescence := LaneOwnership.quiescence h
  lanes := LaneOwnership.lanesOwned h
  tickets := ticketLaw h
  bound := invariant_of_moves (I := TicketBound) (Nat.zero_le _) (fun _ _ _ hi _ hm => hi.step hm) h
  queue := queueLaw h
  exports := exportLaw h

/-- Where every ticket is: taken, queued, discarded, held by the worker, or
completed. -/
def located (s : State L) : List ℕ :=
  taken s.threads ++ ((queued s.world s.worker).map QueuedLog.ticket ++
    (s.world.history.discarded.map Tag.ticket ++
      (holdingTickets s.worker ++ s.world.history.completed)))

/-- A queued record's ticket is its tag's. -/
theorem map_tag_ticket (logs : List (QueuedLog L)) :
    (logs.map QueuedLog.tag).map Tag.ticket = logs.map QueuedLog.ticket := by
  rw [List.map_map]
  rfl

/-- Every ticket handed out is in exactly one place. -/
theorem Conserved.located_perm (h : Conserved s) :
    (located s).Perm (List.range' 1 s.world.nextTicket) := by
  have ht := h.tickets
  have hq := (h.queue : List.Perm _ _).map Tag.ticket
  have he := h.exports
  unfold TicketLaw at ht
  unfold ExportLaw at he
  rw [List.map_append, List.map_append, map_tag_ticket] at hq
  rw [List.perm_iff_count] at ht hq he ⊢
  intro t
  have h1 := ht t
  have h2 := hq t
  have h3 := he t
  simp only [located, List.count_append] at h1 h2 h3 ⊢
  omega

/-- No ticket is in two places, or twice in one. -/
theorem Conserved.located_nodup (h : Conserved s) : (located s).Nodup :=
  h.located_perm.nodup_iff.mpr List.nodup_range'

/-- A ticket is located exactly if it was handed out. -/
theorem Conserved.mem_located (h : Conserved s) {t : ℕ} :
    t ∈ located s ↔ 0 < t ∧ t ≤ s.world.nextTicket := by
  rw [h.located_perm.mem_iff, List.mem_range'_1]
  omega

/-- No record is pushed twice. -/
theorem Conserved.pushed_nodup (h : Conserved s) :
    (s.world.history.pushed.map Tag.ticket).Nodup :=
  (List.nodup_append.mp ((h.tickets : List.Perm _ _).nodup_iff.mpr List.nodup_range')).2.1

/-- A pushed ticket was handed out. -/
theorem Conserved.pushed_range (h : Conserved s) {t : ℕ}
    (ht : t ∈ s.world.history.pushed.map Tag.ticket) : 0 < t ∧ t ≤ s.world.nextTicket := by
  have := (h.tickets : List.Perm _ _).mem_iff.mp (List.mem_append_right _ ht)
  rw [List.mem_range'_1] at this
  omega

/-- A popped record was pushed. -/
theorem Conserved.popped_subset (h : Conserved s) {t : Tag} (ht : t ∈ s.world.history.popped) :
    t ∈ s.world.history.pushed :=
  (h.queue : List.Perm _ _).mem_iff.mp (List.mem_append_right _ (List.mem_append_left _ ht))

/-- No record is popped twice. -/
theorem Conserved.popped_nodup (h : Conserved s) :
    (s.world.history.popped.map Tag.ticket).Nodup := by
  have hq := (h.queue : List.Perm _ _).map Tag.ticket
  have hn := hq.nodup_iff.mpr h.pushed_nodup
  rw [List.map_append, List.map_append] at hn
  exact (List.nodup_append.mp (List.nodup_append.mp hn).2.1).1

/-- A ticket the worker holds or completed was handed out. -/
theorem Conserved.worker_range (h : Conserved s) {t : ℕ}
    (ht : t ∈ holdingTickets s.worker ++ s.world.history.completed) :
    0 < t ∧ t ≤ s.world.nextTicket := by
  have hp := (h.exports : List.Perm _ _).mem_iff.mp ht
  obtain ⟨tag, htag, rfl⟩ := List.mem_map.mp hp
  exact h.pushed_range (List.mem_map_of_mem (h.popped_subset htag))

end EdenLogger.RecordFlow
