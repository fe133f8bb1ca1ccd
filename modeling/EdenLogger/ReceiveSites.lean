import EdenLogger.RecordFlow

/-!
# What a receive site implies

The worker asks a lane for records only when its inbox is empty, and asks for
a record at all only when nothing is carried over. Its waits start from such a
site, so both queues are empty as long as the wait lasts.
-/

namespace EdenLogger.ReceiveSites

open ExporterLanes LogCollector GenerationState GenerationStep GenerationMoves RunRules

variable {L : Type} {x : Exporter L} {s s' : State L} {a : Action L}

/-- A wait of a worker that has not failed. -/
def isLive : Wait → Bool
  | .receive | .assembly _ | .producersClosed => true
  | .terminalShutdown _ | .terminalRecords _ => false

/-- The exit of a worker that has drained everything. -/
def isDrained : Exit → Bool
  | .drained => true
  | .terminal _ _ => false

/-- Where the inbox is empty. -/
def inboxEmpty : WorkerPc L → Bool
  | .drain (.receiving _) | .take (.receiving _) _ _ | .loadClosed => true
  | .poll wait _ | .parked wait => isLive wait
  | .storeStopped _ | .notifyStopped _ | .reporting _ | .finished _ _ => true
  | _ => false

/-- Where the carry-over queue is empty. -/
def pendingEmpty : WorkerPc L → Bool
  | .drain (.receiving _) | .take (.receiving _) _ _ | .loadClosed => true
  | .pop _ | .release _ _ => true
  | .poll wait _ | .parked wait => isLive wait
  | .storeStopped exit | .notifyStopped exit | .reporting exit | .finished exit _ =>
    isDrained exit
  | _ => false

/-- Both queues are empty where they should be. -/
structure SiteLaw (k : Worker L) : Prop where
  /-- The inbox is empty. -/
  inbox : inboxEmpty k.pc = true → k.input.records = []
  /-- Nothing is carried over. -/
  pending : pendingEmpty k.pc = true → k.pending = []

/-- Entering `try_receive` with nothing carried over. -/
theorem SiteLaw.receive {k : Worker L} (site : Site) (hpc : k.pc = tryReceive k.input site)
    (hp : k.pending = []) : SiteLaw k := by
  refine ⟨fun h => ?_, fun _ => hp⟩
  rw [hpc] at h
  unfold tryReceive at h
  split at h
  · exact (LaneQueues.isEmpty_iff _).mp ‹_›
  · cases h

/-- A place that promises nothing. -/
theorem SiteLaw.free {k : Worker L} (hi : inboxEmpty k.pc = false)
    (hp : pendingEmpty k.pc = false) : SiteLaw k :=
  ⟨fun h => absurd (hi.symm.trans h) (by simp), fun h => absurd (hp.symm.trans h) (by simp)⟩

/-- Where `try_receive` found nothing, both queues are empty. -/
theorem SiteLaw.receivedNone {k : Worker L} {site : Site} (hi : k.input.records = [])
    (hp : k.pending = []) : SiteLaw { k with pc := receivedNone k.input site } := by
  cases site with
  | firstDraining => exact SiteLaw.receive .exitCheck rfl hp
  | _ => exact ⟨fun _ => hi, fun _ => hp⟩

/-- A wait that ends in `try_receive` leaves nothing carried over. -/
theorem SiteLaw.waitReady {k : Worker L} {wait : Wait} (hp : isLive wait = true → k.pending = [])
    (c : Cell) : SiteLaw (waitReady k c wait) := by
  cases wait with
  | receive => cases c <;> exact SiteLaw.receive _ rfl (hp rfl)
  | assembly a =>
    cases c with
    | records => exact SiteLaw.receive _ rfl (hp rfl)
    | _ => exact SiteLaw.free rfl rfl
  | _ => exact SiteLaw.free rfl rfl

/-- The site law is kept by every worker step. -/
theorem SiteLaw.move {o : Oracle} {w w' : World L} {k k' : Worker L} (h : SiteLaw k)
    (hm : WorkerMove x o w k w' k') : SiteLaw k' := by
  have hin : ∀ {pc}, k.pc = pc → inboxEmpty pc = true → k.input.records = [] :=
    fun hpc hi => h.inbox (hpc ▸ hi)
  have hpe : ∀ {pc}, k.pc = pc → pendingEmpty pc = true → k.pending = [] :=
    fun hpc hp => h.pending (hpc ▸ hp)
  cases hm
  case drain d hpc =>
    cases d with
    | boundary => exact SiteLaw.free rfl rfl
    | receiving site => exact ⟨fun _ => hin hpc rfl, fun _ => hpe hpc rfl⟩
  case take d i todo detached lane hl hpc =>
    cases d with
    | boundary => exact SiteLaw.free rfl rfl
    | receiving site => exact ⟨fun _ => hin hpc rfl, fun _ => hpe hpc rfl⟩
  case detach d detached hpc =>
    cases d with
    | boundary => exact SiteLaw.free rfl rfl
    | receiving site =>
      exact ⟨fun hi => absurd hi (by simp [inboxEmpty, drainNext]), fun _ => hpe hpc rfl⟩
  case popNone site hi hpc => exact SiteLaw.receivedNone hi (hpe hpc rfl)
  case pop site log input hi hpc =>
    exact ⟨fun hi => absurd hi (by simp [inboxEmpty]), fun _ => hpe hpc rfl⟩
  case release site log hpc => cases site <;> exact SiteLaw.free rfl rfl
  case chooseReceive site hp hs hpc => exact SiteLaw.receive _ rfl hp
  case assembleReceive a site hl hp hs hpc => exact SiteLaw.receive _ rfl hp
  case pollReady wait c cells hr hpc => exact SiteLaw.waitReady (fun hw => hpe hpc hw) c
  case pollNext wait c cells hr hpc => exact ⟨fun hi => hin hpc hi, fun hp => hpe hpc hp⟩
  case suspend wait hpc => exact ⟨fun hi => hin hpc hi, fun hp => hpe hpc hp⟩
  case wake wait hpc => exact ⟨fun hi => hin hpc hi, fun hp => hpe hpc hp⟩
  case closedSeen hc hpc => exact ⟨fun _ => hin hpc rfl, fun _ => hpe hpc rfl⟩
  case closedWait hc hpc => exact ⟨fun _ => hin hpc rfl, fun _ => hpe hpc rfl⟩
  case completed resume hpc => cases resume <;> exact SiteLaw.free rfl rfl
  case ledgerClear retained remaining hpc =>
    exact ⟨fun _ => rfl, fun hp => absurd hp (by simp [pendingEmpty, isDrained])⟩
  case storeStopped exit hpc => exact ⟨fun hi => hin hpc hi, fun hp => hpe hpc hp⟩
  case notifyStopped exit hpc => exact ⟨fun hi => hin hpc hi, fun hp => hpe hpc hp⟩
  case report exit hpc => exact ⟨fun hi => hin hpc hi, fun hp => hpe hpc hp⟩
  all_goals exact SiteLaw.free rfl rfl

/-- What holds of a fresh worker and is kept by its moves holds of the worker
in every state of a run. -/
theorem worker_invariant {ok : State L → Action L → Prop} {I : Worker L → Prop}
    (h0 : I (Worker.new L))
    (hstep : ∀ {o : Oracle} {w w' : World L} {k k' : Worker L}, I k →
      WorkerMove x o w k w' k' → I k')
    (h : ReachWhile (step x) ok (State.init L) s) : I s.worker :=
  invariant_of_moves (I := fun s => I s.worker) h0 (fun t u a hi _ hm => by
    cases hm with
    | worker ha hm => exact hstep hi hm
    | _ => exact hi) h

/-- The site law holds in every run. -/
theorem siteLaw {ok : State L → Action L → Prop}
    (h : ReachWhile (step x) ok (State.init L) s) : SiteLaw s.worker :=
  worker_invariant (I := SiteLaw) (SiteLaw.free rfl rfl) (fun hi hm => hi.move hm) h

/-- A poll listens to branches of its own wait. -/
def PollLaw (k : Worker L) : Prop :=
  match k.pc with
  | .poll wait cells => cells ⊆ wait.cells
  | _ => True

/-- Entering `try_receive` is not a poll. -/
theorem PollLaw.receive {k : Worker L} (site : Site) (hpc : k.pc = tryReceive k.input site) :
    PollLaw k := by
  unfold PollLaw
  rw [hpc]
  rcases RecordFlow.tryReceive_cases k.input site with h | h <;> rw [h] <;> trivial

/-- The poll law is kept by every worker step. -/
theorem PollLaw.move {o : Oracle} {w w' : World L} {k k' : Worker L} (h : PollLaw k)
    (hm : WorkerMove x o w k w' k') : PollLaw k' := by
  cases hm
  case detach d detached hpc => cases d <;> trivial
  case popNone site hi hpc =>
    cases site with
    | firstDraining => exact PollLaw.receive .exitCheck rfl
    | receive | nextPolled => exact List.Subset.refl _
    | _ => trivial
  case release site log hpc => cases site <;> trivial
  case chooseReceive site hp hs hpc => exact PollLaw.receive _ rfl
  case assembleReceive a site hl hp hs hpc => exact PollLaw.receive _ rfl
  case pollReady wait c cells hr hpc =>
    cases wait <;> cases c <;> first | trivial | exact PollLaw.receive _ rfl
  case pollNext wait c cells hr hpc =>
    unfold PollLaw at h
    rw [hpc] at h
    exact fun c' hc' => h (List.mem_cons_of_mem c hc')
  case wake | closedWait | terminalWait | terminalUnclosed => exact List.Subset.refl _
  case completed resume hpc => cases resume <;> trivial
  all_goals trivial

/-- The poll law holds in every run. -/
theorem pollLaw {ok : State L → Action L → Prop}
    (h : ReachWhile (step x) ok (State.init L) s) : PollLaw s.worker :=
  worker_invariant (I := PollLaw) trivial (fun hi hm => hi.move hm) h

end EdenLogger.ReceiveSites
