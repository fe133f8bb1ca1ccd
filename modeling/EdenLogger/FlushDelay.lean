import EdenLogger.ProducerWakeUps

/-!
# Flush requests and the batch delay

A flush request is one coalesced permit. The batch that takes it is exported
at once, and the records it covers are then all past assembly, provided none
of them was still in a lane. Where one was, its own batch waits for the delay.
-/

namespace EdenLogger.FlushDelay

open WakeUpPermit ExporterLanes LogCollector GenerationState GenerationStep GenerationMoves
open GenerationFrames ListCells LaneTable LaneOwnership RecordFlow ReceiveSites ProducerWakeUps
open RunRules

variable {L : Type} {x : Exporter L} {s s' : State L} {a : Action L}

/-! ## Records before their export -/

/-- The tickets the worker holds outside an export. -/
def assembling (k : Worker L) : List ℕ :=
  (held k.pc).hand.map QueuedLog.ticket ++
    ((held k.pc).batch ++ k.pending).map MappedLog.ticket

/-- The tickets of records that are pushed and not yet part of an export. -/
def unexported (s : State L) : List ℕ :=
  (queued s.world s.worker).map QueuedLog.ticket ++ assembling s.worker

/-- A worker step brings no ticket into assembly other than a popped one. -/
theorem worker_assembling {o : Oracle} {w w' : World L} {k k' : Worker L}
    (hm : WorkerMove x o w k w' k') :
    (∃ site log input, k.pc = .pop site ∧ k.input.popFront = some (log, input) ∧
        assembling k' = log.ticket :: assembling k) ∨
      ∀ t, (assembling k').count t ≤ (assembling k).count t := by
  cases hm
  case pop site log input hi hpc =>
    refine Or.inl ⟨site, log, input, hpc, hi, ?_⟩
    rw [assembling, assembling, hpc]
    rfl
  all_goals
    refine Or.inr fun t => ?_
    simp only [assembling, List.map_append, List.count_append]
  case detach d detached hpc =>
    simp only [hpc, held_drainNext]
    exact le_rfl
  case popNone site hi hpc =>
    rcases held_receivedNone k.input site with h | h
    all_goals
      simp only [hpc, h]
      simp only [held, List.map_nil, List.count_nil]
      omega
  case release site log hpc =>
    rcases held_received k (mapLog x o.now log) site with ⟨h, hp⟩ | ⟨hs, h, hp⟩
    all_goals
      simp only [hpc, h, hp]
      simp only [held, mapLog, List.map_append, List.map_cons, List.map_nil, List.count_append,
        List.count_cons, List.count_nil]
      omega
  case chooseReceive site hp hs hpc =>
    simp only [hpc, held_tryReceive, hs, siteBatch_choose]
    exact le_rfl
  case assembleReceive a site hl hp hs hpc =>
    simp only [hpc, held_tryReceive, hs, siteBatch_assemble]
    exact le_rfl
  case pollReady wait c cells hr hpc =>
    rcases held_waitReady k c wait with h | ⟨-, h⟩
    all_goals
      simp only [hpc, h, waitReady_pending]
      simp only [held, waitHolding_hand, List.map_nil, List.count_nil]
      omega
  case completed resume hpc =>
    simp only [hpc, held_resumePc]
    exact le_rfl
  case chooseCarried r pending hp hpc | assembleCarried a r pending hl hp hpc =>
    simp only [hpc, hp, held, List.map_append, List.map_cons, List.map_nil, List.count_append,
      List.count_cons, List.count_nil]
    omega
  case offerCarry a r ho hf hpc | offerFits a r ho hf hpc =>
    simp only [hpc, held, addRecord, List.map_append, List.map_cons, List.map_nil,
      List.count_append, List.count_cons, List.count_nil]
    omega
  case closedWait hpc | terminalWait hpc | terminalUnclosed hpc =>
    rw [hpc]
    exact le_rfl
  all_goals
    rename_i hpc
    rw [hpc]
    simp only [held, resumeHolding, drainBatch, List.map_append, List.map_cons,
      List.map_nil, List.count_append, List.count_cons, List.count_nil]
    omega

/-- A worker step queues no record. -/
theorem worker_queued {o : Oracle} {w w' : World L} {k k' : Worker L}
    (hm : WorkerMove x o w k w' k')
    (hs : ∀ {j : ℕ} {lane : ProducerLane L}, w.lanes[j]? = some lane → SpareEmpty lane)
    {t : ℕ} (ht : t ∈ (queued w' k').map QueuedLog.ticket) :
    t ∈ (queued w k).map QueuedLog.ticket := by
  rcases worker_queue hm hs with ⟨hq, -⟩ | ⟨_, log, _, -, -, hq, -⟩ | ⟨_, _, cleared, -, -, -, hq⟩
  · exact (hq.map QueuedLog.ticket).mem_iff.mp ht
  · rw [(hq.map QueuedLog.ticket).mem_iff]
    exact List.mem_cons_of_mem _ ht
  · rw [← map_tag_ticket] at ht ⊢
    rw [← (hq.map Tag.ticket).mem_iff, List.map_append]
    exact List.mem_append_left _ ht

/-- A worker step only moves records on. -/
theorem worker_unexported {o : Oracle} {w' : World L} {k' : Worker L}
    (hm : WorkerMove x o s.world s.worker w' k')
    (hs : ∀ {j : ℕ} {lane : ProducerLane L}, s.world.lanes[j]? = some lane → SpareEmpty lane)
    {t : ℕ} (ht : t ∈ unexported { s with world := w', worker := k' }) : t ∈ unexported s := by
  rcases List.mem_append.mp ht with ht | ht
  · exact List.mem_append_left _ (worker_queued hm hs ht)
  · rcases worker_assembling hm with ⟨_, log, input, -, hi, ha⟩ | ha
    · rw [ha] at ht
      rcases List.mem_cons.mp ht with rfl | ht
      · refine List.mem_append_left _ (List.mem_map_of_mem (List.mem_append_right _ ?_))
        refine List.mem_append_right _ ?_
        rw [LaneQueues.records_popFront hi]
        exact List.mem_cons_self
      · exact List.mem_append_right _ ht
    · refine List.mem_append_right _ (List.count_pos_iff.mp ?_)
      exact (List.count_pos_iff.mpr ht).trans_le (ha t)

/-- A push brings one ticket, which was not pushed before. -/
theorem producer_unexported {i : ℕ} {p p' : Producer L} {w' : World L} (ht : TicketLaw s)
    (hi : s.threads[i]? = some p) (hm : ProducerMove x i s.world p w' p') {t : ℕ}
    (hu : t ∈ unexported { s with world := w', threads := s.threads.set i p' }) :
    t ∈ unexported s ∨ t ∉ s.world.history.pushed.map Tag.ticket := by
  rcases producer_records hm with ⟨hl, -⟩ | ⟨log, -, hp⟩
  · refine Or.inl ?_
    simpa only [unexported, queued, hl] using hu
  · have hr := hp.records
    obtain ⟨-, -, -, -, -, -, -, hlog⟩ := hp
    simp only [unexported, queued, List.map_append, List.mem_append,
      (hr.map QueuedLog.ticket).mem_iff, List.map_cons, List.mem_cons] at hu ⊢
    rcases eq_or_ne t log.ticket with rfl | hne
    · refine Or.inr fun hpu => ?_
      have hn := (ht : List.Perm _ _).nodup_iff.mpr List.nodup_range'
      refine (List.nodup_append.mp hn).2.2 _ ?_ _ hpu rfl
      exact List.mem_flatMap.mpr
        ⟨p, List.mem_of_getElem? hi, by rw [hlog]; exact List.mem_singleton.mpr rfl⟩
    · exact Or.inl (by simpa only [hne, false_or] using hu)

/-! ## Flush requests -/

/-- A flush call whose request was sent and which has not returned. -/
def isPosted (c : FlushCall) : Bool :=
  match c.pc with
  | .notify | .done _ => false
  | _ => true

/-- The records of every call were pushed. -/
def BeforeLaw (s : State L) : Prop :=
  ∀ c ∈ s.flushes, c.before ⊆ s.world.history.pushed.map Tag.ticket

/-- Pushed records stay pushed. -/
theorem pushed_mono (hm : Move x s a s') :
    s.world.history.pushed.map Tag.ticket ⊆ s'.world.history.pushed.map Tag.ticket := by
  cases hm with
  | producer hi hm =>
    rcases producer_ticket hm with ⟨-, -, -, hp⟩ | ⟨-, -, -, -, hp⟩ | ⟨tag, -, -, -, hp⟩
    · rw [hp]
      exact List.Subset.refl _
    · rw [hp]
      exact List.Subset.refl _
    · rw [hp, List.map_append]
      exact List.subset_append_left _ _
  | worker ha hm =>
    rw [(worker_frame hm).pushed]
    exact List.Subset.refl _
  | flush hj hm =>
    rw [(flush_world hm).1]
    exact List.Subset.refl _
  | @control op rest hp hr =>
    obtain ⟨_, _, hh⟩ := (controlStep_frame s.world s.control op).history
    rw [hh]
    exact List.Subset.refl _
  | _ => exact List.Subset.refl _

/-- The before law is kept by every step. -/
theorem BeforeLaw.step (h : BeforeLaw s) (hm : Move x s a s') : BeforeLaw s' := by
  have hkeep : ∀ c ∈ s.flushes, c.before ⊆ s'.world.history.pushed.map Tag.ticket :=
    fun c hc _ ht => pushed_mono hm (h c hc ht)
  unfold BeforeLaw
  cases hm with
  | beginFlush hc =>
    intro c hcm
    rcases List.mem_append.mp hcm with hcm | hcm
    · exact hkeep c hcm
    · rw [List.mem_singleton.mp hcm]
      exact List.Subset.refl _
  | @flush j c c' w' hj hm =>
    refine forall_mem_set hkeep ?_
    rw [(flush_call hm).2]
    exact hkeep c (List.mem_of_getElem? hj)
  | @expireFlush j c e hj hpc =>
    refine forall_mem_set hkeep ?_
    exact hkeep c (List.mem_of_getElem? hj)
  | _ => exact hkeep

/-- The before law holds in every run. -/
theorem beforeLaw {ok : State L → Action L → Prop}
    (h : ReachWhile (step x) ok (State.init L) s) : BeforeLaw s :=
  invariant_of_moves (I := BeforeLaw) (fun _ hc => absurd hc (by simp [State.init]))
    (fun _ _ _ hi _ hm => hi.step hm) h

/-- A flush request is pending, or all records of the call are past assembly. -/
def Served (s : State L) (c : FlushCall) : Prop :=
  s.world.flush.pending = true ∨ ∀ t ∈ unexported s, t ∉ c.before

/-- Every posted call is served. -/
def DelayLaw (s : State L) : Prop := ∀ c ∈ s.flushes, isPosted c = true → Served s c

/-- Steps that take a flush request only when no lane holds a record of a
posted call. -/
def batchCovers (s : State L) (a : Action L) : Prop :=
  ∀ o wait cells, a = .worker o → s.worker.pc = .poll wait (.flush :: cells) →
    s.world.flush.pending = true → ∀ c ∈ s.flushes, isPosted c = true →
      ∀ log ∈ laneRecords s.world.lanes, log.ticket ∉ c.before

/-- A check for such steps. -/
def batchCoversCheck (s : State L) : Action L → Bool
  | .worker _ =>
    match s.worker.pc with
    | .poll _ (.flush :: _) =>
      !s.world.flush.pending || s.flushes.all fun c => !isPosted c ||
        (laneRecords s.world.lanes).all fun log => !c.before.contains log.ticket
    | _ => true
  | _ => true

/-- A step that passes the check meets the condition. -/
theorem batchCovers_of_check (s : State L) (a : Action L) (h : batchCoversCheck s a = true) :
    batchCovers s a := by
  intro o wait cells ha hpc hf c hc hp log hl hb
  subst ha
  simp only [batchCoversCheck, hpc, hf, Bool.not_true, Bool.false_or, List.all_eq_true] at h
  have hall := h c hc
  simp only [hp, Bool.not_true, Bool.false_or, List.all_eq_true] at hall
  have := hall log hl
  simp only [List.contains_iff_mem.mpr hb, Bool.not_true] at this
  cases this

/-- Once a batch has taken a flush request, all unexported records are in lanes. -/
theorem unexported_of_taken {k' : Worker L} {w' : World L} {o : Oracle}
    (hm : WorkerMove x o s.world s.worker w' k') (ho : LanesOwned s) (hk : SiteLaw s.worker)
    (hp : PollLaw s.worker) {wait : Wait} {cells : List Cell}
    (hpc : s.worker.pc = .poll wait (.flush :: cells)) (hk' : k' = waitReady s.worker .flush wait)
    {t : ℕ} (ht : t ∈ unexported { s with world := w', worker := k' }) :
    ∃ log ∈ laneRecords s.world.lanes, log.ticket = t := by
  have hmem : Cell.flush ∈ wait.cells := by
    unfold PollLaw at hp
    rw [hpc] at hp
    exact hp List.mem_cons_self
  cases wait with
  | assembly b =>
    have hin : s.worker.input.records = [] := hk.inbox (by rw [hpc]; rfl)
    have hpe : s.worker.pending = [] := hk.pending (by rw [hpc]; rfl)
    rcases List.mem_append.mp ht with ht | ht
    · have hq := worker_queued hm ho.spare ht
      simp only [queued, hpc, held, waitHolding, detachedRecords, List.flatMap_nil, hin,
        List.append_nil] at hq
      exact List.mem_map.mp hq
    · rw [hk'] at ht
      simp [assembling, waitReady, held, hpe] at ht
  | _ => exact absurd hmem (by simp [Wait.cells])

/-- A call that stays posted was posted, or its request was just sent. -/
theorem posted_of_move {w w' : World L} {c c' : FlushCall} (hm : FlushMove w c w' c')
    (h : isPosted c' = true) : isPosted c = true ∨ w'.flush.pending = true := by
  cases hm with
  | notify hpc => exact Or.inr (Notify.pending_notifyOne _)
  | flushed ht hpc => cases h
  | failed hs hpc => cases h
  | stopped hs hpc => cases h
  | enable hpc | behind ht hpc | park hf hs hpc | woken hw hpc =>
    refine Or.inl ?_
    simp only [isPosted, hpc]

/-- A flush call's step takes no request. -/
theorem flush_pending {w w' : World L} {c c' : FlushCall} (hm : FlushMove w c w' c')
    (h : w.flush.pending = true) : w'.flush.pending = true := by
  rcases (flush_world hm).2 with hf | hf
  · rw [hf]
    exact h
  · rw [hf]
    exact Notify.pending_notifyOne _

/-- What a step must provide to keep a call served. -/
theorem Served.mono {c : FlushCall} (h : Served s c)
    (hf : s.world.flush.pending = true → s'.world.flush.pending = true)
    (hu : ∀ t ∈ unexported s', t ∈ unexported s ∨ t ∉ c.before) : Served s' c :=
  h.imp hf fun hs t ht => (hu t ht).elim (hs t) id

/-- The delay law is kept by every step under the condition. -/
theorem DelayLaw.step (h : DelayLaw s) (hc : Conserved s) (hk : SiteLaw s.worker)
    (hp : PollLaw s.worker) (hb : BeforeLaw s) (hok : batchCovers s a) (hm : Move x s a s') :
    DelayLaw s' := by
  intro c hcm hpo
  cases hm with
  | @producer i p p' w' hi hm =>
    refine (h c hcm hpo).mono (fun hf => ?_) fun t ht => ?_
    · rw [(producer_frame hm).flush]
      exact hf
    · exact (producer_unexported hc.tickets hi hm ht).imp id fun hn hb' => hn (hb c hcm hb')
  | @worker o w' k' ha hm =>
    rcases worker_pending hm .flush with hf | ⟨wait, cells, hpc, hf, hk'⟩
    · exact (h c hcm hpo).mono (fun hf' => hf.trans hf') fun t ht =>
        Or.inl (worker_unexported hm hc.lanes.spare ht)
    · refine Or.inr fun t ht => ?_
      obtain ⟨log, hl, rfl⟩ := unexported_of_taken hm hc.lanes hk hp hpc hk' ht
      exact hok o wait cells rfl hpc hf c hcm hpo log hl
  | cancelWorker hr ha hw =>
    exact (h c hcm hpo).mono (fun hf => (Notify.pending_drop _).trans hf) fun t ht => Or.inl ht
  | beginFlush hcmd =>
    rcases List.mem_append.mp hcm with hcm | hcm
    · exact h c hcm hpo
    · rw [List.mem_singleton.mp hcm] at hpo
      cases hpo
  | @flush j c0 c' w' hj hm =>
    have hw := (flush_world hm).1
    have hu : ∀ t ∈ unexported { s with world := w', flushes := s.flushes.set j c' },
        t ∈ unexported s := fun t ht => by
      rw [hw] at ht
      exact ht
    rcases List.mem_or_eq_of_mem_set hcm with hcm | rfl
    · exact (h c hcm hpo).mono (flush_pending hm) fun t ht => Or.inl (hu t ht)
    · rcases posted_of_move hm hpo with hp0 | hf
      · refine ((h c0 (List.mem_of_getElem? hj) hp0).mono (flush_pending hm) fun t ht =>
          Or.inl (hu t ht)).imp id ?_
        rw [(flush_call hm).2]
        exact id
      · exact Or.inl hf
  | @expireFlush j c0 e hj hpc =>
    rcases List.mem_or_eq_of_mem_set hcm with hcm | rfl
    · exact h c hcm hpo
    · cases hpo
  | @control op rest hprog hr =>
    refine (h c hcm hpo).mono (control_pending s.world s.control op .flush) fun t ht => Or.inl ?_
    simpa only [unexported, queued,
      (controlStep_frame s.world s.control op).lanes] using ht
  | _ => exact h c hcm hpo

/-- The delay law holds in every run that meets the condition. -/
theorem delayLaw (h : ReachWhile (step x) batchCovers (State.init L) s) : DelayLaw s :=
  invariant_of_moves_using (I := DelayLaw)
    (J := fun s => Conserved s ∧ SiteLaw s.worker ∧ PollLaw s.worker ∧ BeforeLaw s)
    (fun _ hr => ⟨conserved hr, siteLaw hr, pollLaw hr, beforeLaw hr⟩)
    (fun _ hc => absurd hc (by simp [State.init]))
    (fun _ _ _ hj _ hi hok hm => hi.step hj.1 hj.2.1 hj.2.2.1 hj.2.2.2 hok hm) h

/-- A flush is not held back by the batch delay, in runs where each batch that
takes a flush request leaves no covered record behind in a lane. -/
theorem flush_not_delayed (h : ReachWhile (step x) batchCovers (State.init L) s) {b : Assembly}
    (hpc : s.worker.pc = .parked (.assembly b)) (hf : s.world.flush.pending = false)
    {c : FlushCall} (hc : c ∈ s.flushes) (hr : c.returned = false) (hn : c.pc ≠ .notify)
    {r : MappedLog} (hb : r ∈ b.batch) : r.ticket ∉ c.before := by
  have hp : isPosted c = true := by
    unfold FlushCall.returned at hr
    unfold isPosted
    split
    · exact absurd ‹_› hn
    · rename_i hd
      rw [hd] at hr
      cases hr
    · rfl
  refine ((delayLaw h c hc hp).resolve_left fun h' => ?_) _ ?_
  · rw [hf] at h'
    cases h'
  · refine List.mem_append_right _ (List.mem_append_right _ (List.mem_map_of_mem ?_))
    refine List.mem_append_left _ ?_
    rw [hpc]
    exact hb

/-- A flush takes the batch that holds its record, and a later record opens a
new batch before the flush call moves on. -/
def servedRun : List (Action ℕ) :=
  .spawn :: workerSteps 9 .fatal ++ submitAlone 0 1 ++ workerSteps 19 .fatal ++
    [.beginFlush, .flush 0] ++ workerSteps 25 (.ok 1 0) ++ submitAlone 0 1 ++
    workerSteps 19 .fatal

/-- The worker waits with one record, after a flush call posted its request. -/
def waitsAfterFlush (s : State ℕ) : Bool :=
  match s.worker.pc, s.flushes with
  | .parked (.assembly ⟨[_], _⟩), [⟨.enable, 1, [1]⟩] => !s.world.flush.pending
  | _, _ => false

/-- In that run the new batch is not the flushed one. -/
theorem flush_not_delayed_served : ∃ (s : State ℕ) (c : FlushCall) (r : MappedLog),
    c ∈ s.flushes ∧ c.before = [1] ∧ r.ticket ∉ c.before := by
  obtain ⟨s, hs, hp⟩ := exists_reach_of_replay (step sample) batchCovers_of_check (State.init ℕ)
    servedRun
    waitsAfterFlush (by decide +kernel)
  unfold waitsAfterFlush at hp
  split at hp
  · rename_i r n hpc hfl
    have hc : (⟨.enable, 1, [1]⟩ : FlushCall) ∈ s.flushes := by
      rw [hfl]
      exact List.mem_singleton.mpr rfl
    exact ⟨s, _, r, hc, rfl, flush_not_delayed hs hpc (by simpa using hp) hc rfl (by simp)
      List.mem_cons_self⟩
  · cases hp

/-- A flush takes a batch while its second record is still in a lane. -/
def delayedRun : List (Action ℕ) :=
  .spawn :: workerSteps 9 .fatal ++ submitAlone 0 1 ++ workerSteps 19 .fatal ++
    submitAlone 0 1 ++ [.beginFlush, .flush 0] ++ workerSteps 26 (.ok 1 0) ++ submitAlone 0 1 ++
    workerSteps 20 .fatal

/-- The worker waits with the second record, which a flush call stands for. -/
def waitsBeforeFlush (s : State ℕ) : Bool :=
  match s.worker.pc, s.flushes with
  | .parked (.assembly ⟨r :: _, _⟩), [⟨.enable, 2, [1, 2]⟩] =>
    decide (r.ticket = 2 ∧ s.world.shutdown.pending = false ∧
      s.world.flush.pending = false ∧ s.world.records.pending = false)
  | _, _ => false

/-- In that run the worker waits for the batch delay, with no notification
pending, on a batch that holds a flushed record. -/
theorem flush_delayed : ∃ (s : State ℕ) (b : Assembly) (c : FlushCall) (r : MappedLog),
    Reachable sample s ∧ s.worker.pc = .parked (.assembly b) ∧
      s.world.shutdown.pending = false ∧ s.world.flush.pending = false ∧
      s.world.records.pending = false ∧ c ∈ s.flushes ∧ c.returned = false ∧ c.pc ≠ .notify ∧
      r ∈ b.batch ∧ r.ticket ∈ c.before := by
  obtain ⟨s, hs, hp⟩ := exists_reach (step sample) (State.init ℕ) delayedRun
    waitsBeforeFlush (by decide +kernel)
  unfold waitsBeforeFlush at hp
  split at hp
  · rename_i r rest n hpc hfl
    obtain ⟨ht, hsh, hf, hr⟩ := of_decide_eq_true hp
    refine ⟨s, _, ⟨.enable, 2, [1, 2]⟩, r, hs, hpc, hsh, hf, hr, ?_, rfl, by simp,
      List.mem_cons_self, ?_⟩
    · rw [hfl]
      exact List.mem_singleton.mpr rfl
    · rw [ht]
      decide
  · cases hp

end EdenLogger.FlushDelay
