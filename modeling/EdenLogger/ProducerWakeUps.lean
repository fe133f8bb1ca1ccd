import EdenLogger.ReceiveSites

/-!
# No lost producer wake-up

A thread wakes the worker only when its own lane was empty. A registered lane
that holds records is therefore announced: a notification is pending, or the
announcing thread has not sent it yet, or the worker is about to swap the lane
out. A worker that parks with nothing pending has seen every lane empty.
-/

namespace EdenLogger.ProducerWakeUps

open WakeUpPermit ExporterLanes LogCollector GenerationState GenerationStep GenerationMoves
open GenerationFrames ListCells LaneTable LaneOwnership ReceiveSites RunRules

variable {L : Type} {x : Exporter L} {s s' : State L} {a : Action L}

/-- The worker has met a terminal failure. -/
def hasFailed : WorkerPc L → Bool
  | .terminalInflight _ | .terminalAccepting _ | .terminalClosed _ => true
  | .poll wait _ | .parked wait => !isLive wait
  | .ledgerNormal _ | .ledgerReserved _ _ | .ledgerAdd _ _ | .ledgerClear _ _ => true
  | .storeStopped exit | .notifyStopped exit | .reporting exit | .finished exit _ =>
    !isDrained exit
  | _ => false

/-- Whether a branch of a wait has a notification. -/
def pendingAt (w : World L) : Cell → Bool
  | .shutdown => w.shutdown.pending
  | .deadline => false
  | .flush => w.flush.pending
  | .records => w.records.pending

/-- A lane holds a record. -/
def laneHolds (w : World L) (j : ℕ) : Prop :=
  ∃ lane, w.lanes[j]? = some lane ∧ lane.queues.records ≠ []

/-- The worker is going to swap the lane out. -/
def willDrain : WorkerPc L → ℕ → Prop
  | .drain _, _ => True
  | .take _ todo _, j => j ∈ todo
  | _, _ => False

/-- A lane with records is announced to the worker. -/
def Announced (s : State L) (j : ℕ) : Prop :=
  s.world.records.pending = true ∨ (∃ p ∈ s.threads, p.pc = .notify) ∨ willDrain s.worker.pc j

/-- Until a terminal failure, every registered lane with records is announced. -/
def WakeLaw (s : State L) : Prop :=
  hasFailed s.worker.pc = false → ∀ j ∈ s.world.registry.lanes, laneHolds s.world j → Announced s j

/-! ## Threads -/

/-- A thread only adds a records notification. -/
theorem producer_notify {i : ℕ} {w w' : World L} {p p' : Producer L}
    (hm : ProducerMove x i w p w' p') :
    (w.records.pending = true → w'.records.pending = true) ∧
      (p.pc = .notify → w'.records.pending = true) := by
  cases hm
  case notify hpc | closed hpc =>
    exact ⟨fun _ => Notify.pending_notifyOne _, fun _ => Notify.pending_notifyOne _⟩
  case refused failure hpc =>
    cases failure <;> exact ⟨id, fun hn => by rw [hpc] at hn; cases hn⟩
  all_goals
    rename_i hpc
    exact ⟨id, fun hn => by rw [hpc] at hn; cases hn⟩

/-- A thread that fills an empty lane is going to announce it. -/
theorem producer_holds {i : ℕ} {w w' : World L} {p p' : Producer L}
    (hm : ProducerMove x i w p w' p') {j : ℕ} (hj : j ∈ w'.registry.lanes) (hl : laneHolds w' j) :
    (j ∈ w.registry.lanes ∧ laneHolds w j) ∨ p'.pc = .notify := by
  obtain ⟨lane', hg, hne⟩ := hl
  cases hm
  case register hn hpc =>
    simp only [registerLane, List.mem_append, List.mem_singleton] at hj
    rcases cell_of_append hg with hg | ⟨-, rfl⟩
    · refine Or.inl ⟨hj.resolve_right ?_, lane', hg, hne⟩
      rintro rfl
      exact absurd (List.getElem?_eq_some_iff.mp hg).1 (Nat.lt_irrefl _)
    · exact absurd rfl hne
  case push r q ticket j' lane hj' hl' hpc =>
    rcases cell_of_set hg with ⟨rfl, -⟩ | ⟨-, hg⟩
    · by_cases he : lane.queues.isEmpty = true
      · exact Or.inr (if_pos he)
      · refine Or.inl ⟨hj, lane, hl', fun hn => he ?_⟩
        exact (LaneQueues.isEmpty_iff _).mpr hn
    · exact Or.inl ⟨hj, lane', hg, hne⟩
  case close j' lane hj' hl' hpc =>
    rcases cell_of_set hg with ⟨rfl, rfl⟩ | ⟨-, hg⟩
    · exact Or.inl ⟨hj, lane, hl', hne⟩
    · exact Or.inl ⟨hj, lane', hg, hne⟩
  case refused failure hpc => cases failure <;> exact Or.inl ⟨hj, lane', hg, hne⟩
  all_goals exact Or.inl ⟨hj, lane', hg, hne⟩

/-! ## The worker -/

/-- A worker that has failed does not recover. -/
theorem hasFailed_move {o : Oracle} {w w' : World L} {k k' : Worker L}
    (hm : WorkerMove x o w k w' k') (h : hasFailed k'.pc = false) : hasFailed k.pc = false := by
  cases hm
  case pollReady wait c cells hr hpc =>
    rw [hpc]
    cases wait with
    | terminalShutdown | terminalRecords => cases h
    | _ => rfl
  case fatal | terminalInflight | terminalWait | terminalProceed | terminalSeen |
      terminalUnclosed | ledgerNormal | ledgerReserved | ledgerAdd | ledgerClear => cases h
  case pollNext hpc | suspend hpc | wake hpc | storeStopped hpc | notifyStopped hpc | report hpc =>
    rw [hpc]
    exact h
  all_goals
    rename_i hpc
    rw [hpc]
    rfl

/-- A poll that is not ready changes no notification. -/
theorem pendingAt_pollCell {w : World L} {o : Oracle} {c' : Cell} (h : (pollCell w o c').1 = false)
    (c : Cell) : pendingAt (pollCell w o c').2 c = pendingAt w c := by
  have hsame : ∀ {n : Notify}, n.poll.1 = false → n.poll.2.pending = n.pending := fun hn =>
    (Notify.pending_poll_of_not_ready hn).trans ((Notify.poll_fst _).symm.trans hn).symm
  cases c' <;> cases c <;> first | rfl | exact hsame h

/-- The worker takes a notification only at the end of a wait. -/
theorem worker_pending {o : Oracle} {w w' : World L} {k k' : Worker L}
    (hm : WorkerMove x o w k w' k') (c : Cell) :
    pendingAt w' c = pendingAt w c ∨
      ∃ wait cells, k.pc = .poll wait (c :: cells) ∧ pendingAt w c = true ∧
        k' = waitReady k c wait := by
  cases hm
  case pollReady wait c' cells hr hpc =>
    by_cases hc : c' = c
    · subst hc
      cases c' with
      | deadline => exact Or.inl rfl
      | _ => exact Or.inr ⟨wait, cells, hpc, (Notify.poll_fst _).symm.trans hr, rfl⟩
    · refine Or.inl ?_
      cases c' <;> cases c <;>
        first
          | rfl
          | exact absurd rfl hc
          | exact Notify.pending_drop _
  case pollNext wait c' cells hr hpc => exact Or.inl (pendingAt_pollCell hr c)
  all_goals exact Or.inl rfl

/-- A wait that ends with a records notification leads to a drain. -/
theorem willDrain_records {k : Worker L} {wait : Wait}
    (hi : isLive wait = true → k.input.records = [])
    (hf : hasFailed (waitReady k .records wait).pc = false) (j : ℕ) :
    willDrain (waitReady k .records wait).pc j := by
  cases wait with
  | producersClosed => trivial
  | terminalShutdown | terminalRecords => cases hf
  | receive | assembly =>
    have he := (LaneQueues.isEmpty_iff _).mpr (hi rfl)
    simp only [waitReady, tryReceive, he, if_true, willDrain]

/-- The worker registers no lane. -/
theorem worker_registry {o : Oracle} {w w' : World L} {k k' : Worker L}
    (hm : WorkerMove x o w k w' k') : w'.registry.lanes ⊆ w.registry.lanes := by
  cases hm
  case drain d hpc =>
    rw [show (pruneLanes w o).registry.lanes = _ from snapshot_lanes _ _]
    exact List.filter_sublist.subset
  case ledgerClear => exact List.nil_subset _
  case pollReady wait c cells hr hpc => cases c <;> exact fun _ => id
  case pollNext wait c cells hr hpc => cases c <;> exact fun _ => id
  all_goals exact fun _ => id

/-- The worker puts no record into a lane. -/
theorem laneHolds_of_table {w w' : World L} (h : TableStep w.lanes w'.lanes) {j : ℕ}
    (hl : laneHolds w' j) : laneHolds w j := by
  obtain ⟨lane', hg, hne⟩ := hl
  obtain ⟨lane, hg0, hs⟩ := h.lane hg
  refine ⟨lane, hg0, fun he => hne ?_⟩
  rcases hs.queues with hq | hq
  · rw [hq, he]
  · exact hq

/-- A lane the worker was going to swap out is still ahead of it, or empty. -/
theorem willDrain_move {o : Oracle} {w w' : World L} {k k' : Worker L}
    (hm : WorkerMove x o w k w' k')
    (hs : ∀ {j : ℕ} {lane : ProducerLane L}, w.lanes[j]? = some lane → SpareEmpty lane)
    {j : ℕ} (hj : j ∈ w'.registry.lanes) (hl : laneHolds w' j) (hd : willDrain k.pc j) :
    willDrain k'.pc j := by
  cases hm
  case drain d hpc => exact mem_snapshot_order.mpr hj
  case take d i todo detached lane hi hpc =>
    rw [hpc] at hd
    refine (List.mem_cons.mp hd).resolve_left ?_
    rintro rfl
    obtain ⟨lane', hg, hne⟩ := hl
    rw [List.getElem?_set_self (List.getElem?_eq_some_iff.mp hi).1] at hg
    cases hg
    exact hne (records_take (hs hi))
  case detach d detached hpc =>
    rw [hpc] at hd
    exact absurd hd (by simp [willDrain])
  all_goals
    rename_i hpc
    rw [hpc] at hd
    exact hd.elim

/-! ## The generation -/

/-- The command only adds notifications. -/
theorem control_pending (w : World L) (k : Control) (op : ControlOp) (c : Cell)
    (h : pendingAt w c = true) : pendingAt (controlStep w k op).1 c = true := by
  cases op
  case notifyShutdown | notifyRecords | notifyFlush =>
    cases c <;> first | exact h | exact Notify.pending_notifyOne _
  case storeShuttingDown =>
    simp only [controlStep]
    split <;> exact h
  all_goals exact h

/-- The wake law is kept by every step. -/
theorem WakeLaw.step (h : WakeLaw s) (ho : LanesOwned s) (hk : SiteLaw s.worker)
    (hm : Move x s a s') : WakeLaw s' := by
  intro hf j hj hl
  cases hm with
  | spawn =>
    refine (h hf j hj hl).imp id (Or.imp ?_ id)
    rintro ⟨p, hp, hn⟩
    exact ⟨p, List.mem_append_left _ hp, hn⟩
  | enter hi hpc hr =>
    refine (h hf j hj hl).imp id (Or.imp (fun hp => exists_mem_set hi hp fun hn => ?_) id)
    rw [hpc] at hn
    cases hn
  | @producer i p p' w' hi hm =>
    obtain ⟨hmono, hsent⟩ := producer_notify hm
    rcases producer_holds hm hj hl with ⟨hj, hl⟩ | hn
    · rcases h hf j hj hl with hp | ⟨q, hq, hn⟩ | hd
      · exact Or.inl (hmono hp)
      · by_cases hpn : p.pc = .notify
        · exact Or.inl (hsent hpn)
        · exact Or.inr (Or.inl (exists_mem_set hi ⟨q, hq, hn⟩ fun hp => absurd hp hpn))
      · exact Or.inr (Or.inr hd)
    · exact Or.inr (Or.inl ⟨p', List.mem_set (List.getElem?_eq_some_iff.mp hi).1 p', hn⟩)
  | exit hi hpc =>
    refine (h hf j hj hl).imp id (Or.imp (fun hp => exists_mem_set hi hp fun hn => ?_) id)
    rw [hpc] at hn
    cases hn
  | fenceNotify hf' => exact Or.inl (Notify.pending_notifyOne _)
  | @worker o w' k' ha hm =>
    have hl0 := laneHolds_of_table (worker_table hm ho.spare) hl
    rcases h (hasFailed_move hm hf) j (worker_registry hm hj) hl0 with hp | hn | hd
    · rcases worker_pending hm .records with hr | ⟨wait, cells, hpc, -, rfl⟩
      · exact Or.inl (hr.trans hp)
      · refine Or.inr (Or.inr (willDrain_records (fun hw => hk.inbox ?_) hf j))
        rw [hpc]
        exact hw
    · exact Or.inr (Or.inl hn)
    · exact Or.inr (Or.inr (willDrain_move hm ho.spare hj hl hd))
  | cancelWorker hr ha hw =>
    exact (h hf j hj hl).imp (fun hp => (Notify.pending_drop _).trans hp) id
  | flush hj' hm =>
    rw [(flush_world hm).1] at hj hl ⊢
    exact h hf j hj hl
  | @control op rest hp hr =>
    have hc := controlStep_frame s.world s.control op
    dsimp only at hj hl
    rw [hc.registry] at hj
    simp only [laneHolds, hc.lanes] at hl
    exact (h hf j hj hl).imp (control_pending s.world s.control op .records) id
  | _ => exact h hf j hj hl

/-- The wake law holds in every run. -/
theorem wakeLaw {ok : State L → Action L → Prop}
    (h : ReachWhile (step x) ok (State.init L) s) : WakeLaw s :=
  invariant_of_moves_using (I := WakeLaw) (J := fun s => LanesOwned s ∧ SiteLaw s.worker)
    (fun _ hr => ⟨lanesOwned hr, siteLaw hr⟩)
    (fun _ j hj => absurd hj (by simp [State.init, World.new]))
    (fun _ _ _ hj _ hi _ hm => hi.step hj.1 hj.2 hm) h

/-- No lost wake-up. A worker that is parked in a live wait, with no records
notification pending and no thread about to send one, leaves no record in any
registered lane. -/
theorem no_lost_wake_up (h : Reachable x s) {wait : Wait} (hpc : s.worker.pc = .parked wait)
    (hw : wait = .receive ∨ (∃ a, wait = .assembly a) ∨ wait = .producersClosed)
    (hp : s.world.records.pending = false) (hn : ∀ p ∈ s.threads, p.pc ≠ .notify) {j : ℕ}
    (hj : j ∈ s.world.registry.lanes) {lane : ProducerLane L}
    (hl : s.world.lanes[j]? = some lane) : lane.queues.isEmpty = true := by
  rw [LaneQueues.isEmpty_iff]
  by_contra hne
  have hf : hasFailed s.worker.pc = false := by
    rw [hpc]
    rcases hw with rfl | ⟨a, rfl⟩ | rfl <;> rfl
  rcases wakeLaw h hf j hj ⟨lane, hl, hne⟩ with hr | ⟨p, hp', hr⟩ | hd
  · rw [hp] at hr
    cases hr
  · exact hn p hp' hr
  · rw [hpc] at hd
    exact hd

/-- A worker that has exported one thread's record and waits for more. -/
def idleRun : List (Action ℕ) :=
  .spawn :: submitAlone 0 3 ++ workerSteps 41 (.ok 1 0)

/-- The worker waits for records, and the only thread is idle. -/
def idleParked (s : State ℕ) : Bool :=
  match s.worker.pc, s.threads with
  | .parked .receive, [⟨.idle, some 0⟩] =>
    decide (s.world.records.pending = false ∧ s.world.registry.lanes = [0] ∧
      s.world.lanes.length = 1)
  | _, _ => false

/-- In that run the worker is parked and the thread's lane is empty. -/
theorem no_lost_wake_up_idle : ∃ (s : State ℕ) (lane : ProducerLane ℕ), Reachable sample s ∧
    s.world.lanes[0]? = some lane ∧ lane.queues.isEmpty = true := by
  obtain ⟨s, hs, hp⟩ := exists_reach (step sample) (State.init ℕ) idleRun
    idleParked (by decide +kernel)
  unfold idleParked at hp
  split at hp
  · rename_i hpc ht
    obtain ⟨hr, hj, hlen⟩ := of_decide_eq_true hp
    have hl := List.getElem?_eq_getElem (l := s.world.lanes) (i := 0) (by omega)
    refine ⟨s, _, hs, hl, no_lost_wake_up hs hpc (Or.inl rfl) hr (fun p hp => ?_) ?_ hl⟩
    · rw [ht, List.mem_singleton] at hp
      rw [hp]
      simp
    · rw [hj]
      exact List.mem_singleton.mpr rfl
  · cases hp

end EdenLogger.ProducerWakeUps
