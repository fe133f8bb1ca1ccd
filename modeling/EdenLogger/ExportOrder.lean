import EdenLogger.LaneOrder
import EdenLogger.ReceiveSites
import EdenLogger.BatchLimits

/-!
# Order between the pop and the first sending

Past the pop the worker holds records in a row: those sent, the parts still to
be sent, the batch under assembly, the carry-over queue and the record in its
hand. Assembly, carry-over and bisection move the borders of the row and drop
only oversize records from it, so records are first sent in the order of their
pops.
-/

namespace EdenLogger.ExportOrder

open MachineWord WakeUpPermit ExporterLanes LogCollector GenerationState GenerationStep
open GenerationMoves GenerationFrames LaneOwnership RecordFlow ReceiveSites LaneOrder PairOrder
open RunRules

variable {L : Type} {x : Exporter L} {s s' : State L} {a : Action L}

/-- The records of some parts that were not sent yet. -/
def unsent (sent : List Tag) (parts : List MappedLog) : List Tag :=
  (parts.map MappedLog.tag).filter fun t => decide (t ∉ sent)

/-- What the worker has popped and not dropped, the records sent first. -/
def flow (w : World L) (k : Worker L) : List Tag :=
  w.history.sent ++ (unsent w.history.sent (held k.pc).parts ++
    ((held k.pc).batch.map MappedLog.tag ++
      (k.pending.map MappedLog.tag ++ (held k.pc).hand.map QueuedLog.tag)))

/-- The records dropped because no request can hold them. -/
def oversized (w : World L) : List Tag :=
  (BatchLimits.oversized w.history.resolved).map fun p => p.1.tag

/-- The part whose answer is awaited. -/
def awaited : WorkerPc L → List MappedLog
  | .awaitReply e => e.records
  | _ => []

/-- The part whose answer is awaited was sent. -/
def AwaitLaw (s : State L) : Prop := ∀ r ∈ awaited s.worker.pc, r.tag ∈ s.world.history.sent

@[simp] theorem unsent_append (sent : List Tag) (l l' : List MappedLog) :
    unsent sent (l ++ l') = unsent sent l ++ unsent sent l' := by
  simp only [unsent, List.map_append, List.filter_append]

@[simp] theorem unsent_nil (sent : List Tag) : unsent sent [] = [] := rfl

/-- Records that were sent are not unsent. -/
theorem unsent_of_sent {sent : List Tag} {l : List MappedLog} (h : ∀ r ∈ l, r.tag ∈ sent) :
    unsent sent l = [] := by
  simp only [unsent, List.filter_eq_nil_iff, List.forall_mem_map, decide_eq_true_eq, not_not]
  exact h

/-- Records that were not sent are unsent. -/
theorem unsent_of_not_sent {sent : List Tag} {l : List MappedLog} (h : ∀ r ∈ l, r.tag ∉ sent) :
    unsent sent l = l.map MappedLog.tag := by
  simp only [unsent, List.filter_eq_self, List.forall_mem_map, decide_eq_true_eq]
  exact h

/-- The worker awaits an answer only right after sending the part. -/
theorem awaited_of_move {o : Oracle} {w w' : World L} {k k' : Worker L}
    (hm : WorkerMove x o w k w' k') :
    awaited k'.pc = [] ∨
      ∃ e : Attempt, awaited k'.pc = e.records ∧ w' = sendRequest w e.records := by
  have htry : ∀ (input : LaneQueues L) (site : Site), awaited (tryReceive input site) = [] :=
    fun input site => by
      unfold tryReceive
      split <;> rfl
  cases hm
  case attempt e hpc => exact Or.inr ⟨e, rfl, rfl⟩
  case detach d detached hpc => cases d <;> exact Or.inl rfl
  case popNone site hi hpc => cases site <;> first | exact Or.inl rfl | exact Or.inl (htry _ _)
  case release site log hpc => cases site <;> exact Or.inl rfl
  case chooseReceive site hp hs hpc => exact Or.inl (htry _ _)
  case assembleReceive a site hl hp hs hpc => exact Or.inl (htry _ _)
  case pollReady wait c cells hr hpc =>
    cases wait <;> cases c <;> first | exact Or.inl rfl | exact Or.inl (htry _ _)
  case completed resume hpc => cases resume <;> exact Or.inl rfl
  all_goals exact Or.inl rfl

/-- Sending a part sends all of its records. -/
theorem mem_sent_of_request {w : World L} {records : List MappedLog} {r : MappedLog}
    (hr : r ∈ records) : r.tag ∈ (sendRequest w records).history.sent := by
  by_cases hs : r.tag ∈ w.history.sent
  · exact List.mem_append_left _ hs
  · refine List.mem_append_right _ (List.mem_filter.mpr ⟨List.mem_map_of_mem hr, ?_⟩)
    exact decide_eq_true hs

/-- The awaited part stays sent. -/
theorem AwaitLaw.step (h : AwaitLaw s) (hm : Move x s a s') : AwaitLaw s' := by
  refine law_of_worker (I := fun past k => ∀ r ∈ awaited k.pc, r.tag ∈ past.sent)
    (fun _ _ _ _ _ h => h) ?_ h hm
  intro o w' k' hm
  rcases awaited_of_move hm with hn | ⟨e, he, hw⟩
  · rw [hn]
    exact fun r hr => absurd hr (by simp)
  · rw [he, hw]
    exact fun r hr => mem_sent_of_request hr

/-- The awaited part was sent in every run. -/
theorem awaitLaw {ok : State L → Action L → Prop}
    (h : ReachWhile (step x) ok (State.init L) s) : AwaitLaw s :=
  invariant_of_moves (I := AwaitLaw)
    (fun r hr => absurd hr (by simp [State.init, Worker.new, awaited]))
    (fun _ _ _ hi _ hm => hi.step hm) h

/-! ## The row of the worker's records -/

/-- What a worker step does to the row: nothing, append a popped record, or
drop an oversize one. -/
inductive FlowMove (w : World L) (k : Worker L) (w' : World L) (k' : Worker L) : Prop where
  | keep (hf : flow w' k' = flow w k) (hp : w'.history.popped = w.history.popped)
      (ho : oversized w' = oversized w)
  | pop {t : Tag} (hf : flow w' k' = flow w k ++ [t])
      (hp : w'.history.popped = w.history.popped ++ [t]) (ho : oversized w' = oversized w)
  | drop {l₁ l₂ : List Tag} {t : Tag} (hf : flow w k = l₁ ++ t :: l₂)
      (hf' : flow w' k' = l₁ ++ l₂) (hp : w'.history.popped = w.history.popped)
      (ho : oversized w' = oversized w ++ [t])

/-- Other outcomes leave the oversize records. -/
theorem oversized_settle (w : World L) (accepted rejected : ℕ) (records : List MappedLog)
    {outcome : Outcome} (h : outcome ≠ .oversize) :
    oversized (settle w accepted rejected records outcome) = oversized w := by
  have hn : BatchLimits.oversized (records.map fun r => (r, outcome)) = [] := by
    simp only [BatchLimits.oversized, List.filter_eq_nil_iff, List.forall_mem_map,
      decide_eq_true_eq]
    exact fun _ _ => h
  have ha : BatchLimits.oversized (settle w accepted rejected records outcome).history.resolved =
      BatchLimits.oversized w.history.resolved := by
    unfold BatchLimits.oversized at hn ⊢
    rw [settle, List.filter_append, hn, List.append_nil]
  rw [oversized, ha, oversized]

/-- A rejected record joins the oversize records. -/
theorem oversized_reject (w : World L) (r : MappedLog) :
    oversized (rejectOversize w r) = oversized w ++ [r.tag] := by
  simp only [oversized, BatchLimits.oversized, rejectOversize, List.filter_append, List.map_append]
  rfl

/-- Sending a part moves the border behind the records sent. -/
theorem flow_attempt {w : World L} {k : Worker L} {e : Attempt} (hpc : k.pc = .attempt e)
    (hn : (flow w k).Nodup) :
    flow (sendRequest w e.records) { k with pc := .awaitReply e } = flow w k := by
  have hself : unsent (sendRequest w e.records).history.sent e.records = [] :=
    unsent_of_sent fun r hr => mem_sent_of_request hr
  simp only [flow, hpc, held, attemptParts, unsent_append] at hn ⊢
  have hrest : unsent (sendRequest w e.records).history.sent e.stack.flatten =
      unsent w.history.sent e.stack.flatten := by
    refine List.filter_congr fun t ht => decide_eq_decide.mpr ?_
    rw [sendRequest, List.mem_append, not_or, and_iff_left_of_imp]
    -- a record of a later part is not in the part that is sent
    intro hs hr
    have hd := (List.nodup_append.mp (List.nodup_append.mp (List.nodup_append.mp hn).2.1).1).2.2
    exact hd t hr t (List.mem_filter.mpr ⟨ht, decide_eq_true hs⟩) rfl
  rw [hself, hrest, List.nil_append]
  simp only [sendRequest, unsent, List.append_assoc]

/-- Every worker step changes the row in one of these ways. -/
theorem flowMove {o : Oracle} {w w' : World L} {k k' : Worker L} (hm : WorkerMove x o w k w' k')
    (hk : SiteLaw k) (ha : ∀ r ∈ awaited k.pc, r.tag ∈ w.history.sent) (hn : (flow w k).Nodup) :
    FlowMove w k w' k' := by
  -- a batch in the row was not sent yet
  have hfresh : ∀ r ∈ (held k.pc).batch, r.tag ∉ w.history.sent := fun r hr hs => by
    refine (List.nodup_append.mp hn).2.2 _ hs _ ?_ rfl
    exact List.mem_append_right _ (List.mem_append_left _ (List.mem_map_of_mem hr))
  have hbatch := unsent_of_not_sent hfresh
  cases hm
  case detach d detached hpc =>
    refine .keep ?_ rfl rfl
    unfold flow
    rw [hpc, held_drainNext]
    rfl
  case popNone site hi hpc =>
    refine .keep ?_ rfl rfl
    rw [hpc] at hbatch
    unfold flow
    dsimp only
    rcases held_receivedNone k.input site with h | h <;> rw [h, hpc]
    · rfl
    · simp only [held] at hbatch ⊢
      rw [hbatch]
      rfl
  case pop site log input hi hpc =>
    refine .pop (t := log.tag) ?_ rfl rfl
    simp only [flow, hpc, held, subDepth, setDepth, List.map_cons, List.map_nil, List.append_assoc,
      List.append_nil]
  case release site log hpc =>
    refine .keep ?_ rfl rfl
    have hp := hk.pending (by rw [hpc]; rfl)
    unfold flow
    rcases held_received k (mapLog x o.now log) site with ⟨h, hp'⟩ | ⟨hb, h, hp'⟩
    · rw [h, hp', hp, hpc]
      simp only [held, mapLog, MappedLog.tag, QueuedLog.tag, subBytes, setBytes, List.map_append,
        List.map_cons, List.map_nil, List.append_nil, List.nil_append]
    · rw [h, hp', hp, hpc]
      simp only [held, hb, mapLog, MappedLog.tag, QueuedLog.tag, subBytes, setBytes, List.map_cons,
        List.map_nil, List.append_nil, List.nil_append]
  case chooseCarried r pending hp hpc =>
    refine .keep ?_ rfl rfl
    simp only [flow, hpc, hp, held, List.map_cons, List.map_nil, List.cons_append, List.nil_append]
  case assembleCarried a r pending hl hp hpc =>
    refine .keep ?_ rfl rfl
    simp only [flow, hpc, hp, held, List.map_append, List.map_cons, List.map_nil, List.append_assoc,
      List.cons_append, List.nil_append]
  case chooseReceive site hp hs hpc =>
    refine .keep ?_ rfl rfl
    unfold flow
    dsimp only
    rw [held_tryReceive, hpc, hs, siteBatch_choose]
    rfl
  case assembleReceive a site hl hp hs hpc =>
    refine .keep ?_ rfl rfl
    unfold flow
    dsimp only
    rw [held_tryReceive, hpc, hs, siteBatch_assemble]
    rfl
  case firstOversize r ho hpc =>
    refine @FlowMove.drop _ _ _ _ _ w.history.sent (k.pending.map MappedLog.tag) _ ?_ ?_ rfl
      (oversized_reject w r)
    · simp only [flow, hpc, held, unsent_nil, List.map_cons, List.map_nil, List.append_nil,
        List.nil_append, List.cons_append]
    · simp only [flow, held, resumeHolding, rejectOversize, unsent_nil, List.map_nil,
        List.append_nil, List.nil_append]
  case offerOversize a r ho hpc =>
    refine @FlowMove.drop _ _ _ _ _ (w.history.sent ++ a.batch.map MappedLog.tag)
      (k.pending.map MappedLog.tag) _ ?_ ?_ rfl (oversized_reject w r)
    · simp only [flow, hpc, held, unsent_nil, List.map_append, List.map_cons, List.map_nil,
        List.append_nil, List.nil_append, List.cons_append, List.append_assoc]
    · simp only [flow, held, resumeHolding, rejectOversize, unsent_nil, List.map_nil,
        List.append_nil, List.nil_append, List.append_assoc]
  case offerCarry a r ho hf hpc =>
    refine .keep ?_ rfl rfl
    rw [hpc] at hfresh
    have hb := unsent_of_not_sent fun r hr => hfresh r (List.mem_append_left _ hr)
    simp only [flow, hpc, held, hb, unsent_nil, List.map_append, List.map_cons, List.map_nil,
      List.append_nil, List.nil_append, List.cons_append, List.append_assoc]
  case assembleFull a hl hpc =>
    refine .keep ?_ rfl rfl
    simp only [hpc, held] at hbatch
    simp only [flow, hpc, held, hbatch, unsent_nil, List.map_nil, List.nil_append]
  case pollReady wait c cells hr hpc =>
    have hw : (pollCell w o c).2.history = w.history := by cases c <;> rfl
    refine .keep ?_ (by cases c <;> rfl) (by cases c <;> rfl)
    rw [hpc] at hbatch
    unfold flow
    rw [waitReady_pending]
    rcases held_waitReady k c wait with h | ⟨hp, h⟩
    · rw [h, hpc]
      simp only [dropWaits, hw]
      rfl
    · rw [h, hpc]
      simp only [held] at hbatch ⊢
      simp only [dropWaits, hw, hp, hbatch, waitHolding_hand, unsent_nil, List.map_nil,
        List.nil_append]
  case pollNext wait c cells hr hpc =>
    have hw : (pollCell w o c).2.history = w.history := by cases c <;> rfl
    refine .keep ?_ (by cases c <;> rfl) (by cases c <;> rfl)
    simp only [flow, hpc, held, hw]
  case attempt e hpc => exact .keep (flow_attempt hpc hn) rfl rfl
  case acknowledged e accepted hr hpc =>
    refine .keep ?_ rfl (oversized_settle w e.records.length 0 e.records (by decide))
    have ha : ∀ r ∈ e.records, r.tag ∈ w.history.sent := by rwa [hpc] at ha
    simp only [flow, hpc, held, resumeHolding, attemptParts, countBatch, settle, unsent_append,
      unsent_of_sent ha, List.nil_append]
  case partialSuccess e accepted rejected hr hne hpc =>
    refine .keep ?_ rfl (oversized_settle w accepted 0 e.records (by decide))
    have ha : ∀ r ∈ e.records, r.tag ∈ w.history.sent := by rwa [hpc] at ha
    simp only [flow, hpc, held, attemptParts, settle, unsent_append, unsent_of_sent ha,
      List.nil_append]
  case countRejected e rejected hpc =>
    refine .keep ?_ rfl rfl
    simp only [flow, hpc, held, resumeHolding, countRejected, countBatch]
  case rejectedAlone e hr hl hpc =>
    refine .keep ?_ rfl (oversized_settle w 0 1 e.records (by decide))
    have ha : ∀ r ∈ e.records, r.tag ∈ w.history.sent := by rwa [hpc] at ha
    simp only [flow, hpc, held, resumeHolding, attemptParts, settle, unsent_append,
      unsent_of_sent ha, List.nil_append]
  case completed resume hpc =>
    refine .keep ?_ rfl rfl
    unfold flow
    dsimp only
    rw [held_resumePc, hpc]
    rfl
  case startExport batch hpc =>
    refine .keep ?_ rfl rfl
    simp only [flow, hpc, held, setInflight, List.flatten_cons, List.flatten_nil, List.append_nil]
  all_goals
    rename_i hpc
    refine .keep ?_ rfl rfl
    simp only [flow, hpc, held, startWait, waitHolding, attemptParts, exitParts, addRecord,
      splitRecords_flatten, drainBatch, pruneLanes, setInflight, setStatus, clearQueues,
      List.flatten_cons, List.flatten_nil, List.flatten_append]

/-- The row holds what was popped and not dropped, in the order of the pops. -/
structure FlowLaw (s : State L) : Prop where
  /-- The order of the pops. -/
  sublist : (flow s.world s.worker).Sublist s.world.history.popped
  /-- Only oversize records are missing. -/
  perm : (flow s.world s.worker ++ oversized s.world).Perm s.world.history.popped

/-- No record was popped twice. -/
theorem popped_nodup (h : Conserved s) : s.world.history.popped.Nodup :=
  List.Nodup.of_map _ h.popped_nodup

/-- The row is kept by every step. -/
theorem FlowLaw.step (h : FlowLaw s) (hc : Conserved s) (hk : SiteLaw s.worker) (ha : AwaitLaw s)
    (hm : Move x s a s') : FlowLaw s' := by
  have hsame : ∀ w' : World L, w'.history.sent = s.world.history.sent →
      w'.history.resolved = s.world.history.resolved →
      w'.history.popped = s.world.history.popped →
      (flow w' s.worker).Sublist w'.history.popped ∧
        (flow w' s.worker ++ oversized w').Perm w'.history.popped := fun w' hs hr hp => by
    have hf : flow w' s.worker = flow s.world s.worker := by
      unfold flow
      rw [hs]
    have ho : oversized w' = oversized s.world := by
      unfold oversized
      rw [hr]
    rw [hf, ho, hp]
    exact ⟨h.sublist, h.perm⟩
  cases hm with
  | @producer i p p' w' hi hm =>
    have hh := (producer_frame hm).history
    obtain ⟨h1, h2⟩ := hsame w' (by rw [hh]) (by rw [hh]) (by rw [hh])
    exact ⟨h1, h2⟩
  | worker hab hm =>
    cases flowMove hm hk ha ((popped_nodup hc).sublist h.sublist) with
    | keep hf hp ho => exact ⟨by rw [hf, hp]; exact h.sublist, by rw [hf, hp, ho]; exact h.perm⟩
    | @pop t hf hp ho =>
      refine ⟨?_, ?_⟩ <;> dsimp only
      · rw [hf, hp]
        exact h.sublist.append (List.Sublist.refl _)
      · rw [hf, hp, ho, List.append_assoc]
        refine (List.perm_append_comm.append_left _).trans ?_
        rw [← List.append_assoc]
        exact h.perm.append_right _
    | @drop l₁ l₂ t hf hf' hp ho =>
      have hs := h.sublist
      have hpm := h.perm
      rw [hf] at hs hpm
      refine ⟨?_, ?_⟩ <;> dsimp only
      · rw [hf', hp]
        exact ((List.Sublist.refl l₁).append (List.sublist_cons_self t l₂)).trans hs
      · rw [hf', hp, ho]
        refine List.Perm.trans ?_ hpm
        rw [List.perm_iff_count]
        intro t'
        simp only [List.count_append, List.count_cons, List.count_nil]
        omega
  | flush hj hm =>
    rw [(flush_world hm).1]
    exact ⟨h.sublist, h.perm⟩
  | @control op rest hp hr =>
    obtain ⟨_, _, hh⟩ := (controlStep_frame s.world s.control op).history
    obtain ⟨h1, h2⟩ := hsame (controlStep s.world s.control op).1 (by rw [hh]) (by rw [hh])
      (by rw [hh])
    exact ⟨h1, h2⟩
  | _ => exact ⟨h.sublist, h.perm⟩

/-- The row is in order in every run. -/
theorem flowLaw {ok : State L → Action L → Prop}
    (h : ReachWhile (step x) ok (State.init L) s) : FlowLaw s :=
  invariant_of_moves_using (I := FlowLaw)
    (J := fun s => Conserved s ∧ SiteLaw s.worker ∧ AwaitLaw s)
    (fun _ hr => ⟨conserved hr, siteLaw hr, awaitLaw hr⟩)
    ⟨List.Sublist.refl _, List.Perm.refl _⟩
    (fun _ _ _ hj _ hi _ hm => hi.step hj.1 hj.2.1 hj.2.2 hm) h

/-- Records are first sent in the order of their pops. -/
theorem sent_in_order {ok : State L → Action L → Prop}
    (h : ReachWhile (step x) ok (State.init L) s) :
    s.world.history.sent.Sublist s.world.history.popped :=
  (List.sublist_append_left _ _).trans (flowLaw h).sublist

/-! ## After a refresh -/

/-- The batch under assembly without a record whose size is not checked yet. -/
def inBatch : WorkerPc L → List MappedLog
  | .first _ => []
  | .offer a _ => a.batch
  | pc => (held pc).batch

/-- The records taken into batches so far: those sent, those in parts still to
be sent, and those of the batch under assembly. -/
def batched (w : World L) (k : Worker L) : List Tag :=
  w.history.sent ++ (unsent w.history.sent (held k.pc).parts ++ (inBatch k.pc).map MappedLog.tag)

/-- The records in batches are the front of the row. -/
theorem flow_eq_batched (w : World L) (k : Worker L) :
    ∃ rest, flow w k = batched w k ++ rest := by
  have hb : ∃ offered, (held k.pc).batch = inBatch k.pc ++ offered := by
    cases hpc : k.pc with
    | first r => exact ⟨[r], rfl⟩
    | offer a r => exact ⟨[r], rfl⟩
    | _ => exact ⟨[], (List.append_nil _).symm⟩
  obtain ⟨offered, hb⟩ := hb
  refine ⟨offered.map MappedLog.tag ++
    (k.pending.map MappedLog.tag ++ (held k.pc).hand.map QueuedLog.tag), ?_⟩
  simp only [flow, batched, hb, List.map_append, List.append_assoc]

/-- A record popped before a record in a batch is in a batch before it, or was
dropped as oversize. -/
theorem batched_in_order (h : Reachable x s) {r n : Tag}
    (hp : Precedes s.world.history.popped r n) (hn : n ∈ batched s.world s.worker) :
    r ∈ oversized s.world ∨ Precedes (batched s.world s.worker) r n := by
  have hf := flowLaw h
  have hnd := popped_nodup (conserved h)
  have hfd := hnd.sublist hf.sublist
  rcases List.mem_append.mp (hf.perm.mem_iff.mpr hp.mem_left) with hr | hr
  · refine Or.inr ?_
    obtain ⟨rest, he⟩ := flow_eq_batched s.world s.worker
    have hflow := hp.restrict hnd hf.sublist hr (he ▸ List.mem_append_left _ hn)
    rw [he] at hflow hfd
    exact hflow.restrict hfd (List.sublist_append_left _ _) (hflow.mem_front hfd hn) hn
  · exact Or.inl hr

/-- Some records are popped next, as far as they are popped at all. -/
def PoppedNext (before next : List Tag) (s : State L) : Prop :=
  (before ++ next) <+: s.world.history.popped ∨
    ∃ gone rest, next = gone ++ rest ∧ s.world.history.popped = before ++ gone ∧
      (rest <+: s.worker.input.reserved.map QueuedLog.tag ∨ pastClosed s.worker.pc = true)

/-- Past its check the worker pops nothing. -/
theorem popped_of_past {o : Oracle} {w w' : World L} {k k' : Worker L}
    (hm : WorkerMove x o w k w' k') (h : pastClosed k.pc = true) :
    pastClosed k'.pc = true ∧ w'.history.popped = w.history.popped := by
  cases hm
  case ledgerNormal | ledgerReserved | ledgerAdd | ledgerClear | storeStopped | notifyStopped
      | report => exact ⟨rfl, rfl⟩
  all_goals
    rename_i hpc
    rw [hpc] at h
    cases h

/-- The reserved records of the inbox are popped next: a worker step. -/
theorem PoppedNext.worker {before next : List Tag} {o : Oracle} {w' : World L} {k' : Worker L}
    (h : PoppedNext before next s) (hm : WorkerMove x o s.world s.worker w' k') :
    PoppedNext before next { s with world := w', worker := k' } := by
  rcases h with h | ⟨gone, rest, hn, hp, h⟩
  · refine Or.inl (h.trans ?_)
    cases queueMove hm with
    | keep _ _ _ hp _ => exact ⟨[], by rw [List.append_nil]; exact hp.symm⟩
    | take _ _ hw _ => exact ⟨[], by rw [hw, List.append_nil]⟩
    | detach _ hw _ => exact ⟨[], by rw [hw, List.append_nil]⟩
    | @pop site log input _ _ hw _ => exact ⟨[log.tag], by rw [hw]; rfl⟩
    | clear _ hw _ => exact ⟨[], by rw [hw, List.append_nil]; rfl⟩
  · rcases h with h | h
    · cases queueMove hm with
      | keep _ _ hi hp' _ =>
        exact Or.inr ⟨gone, rest, hn, hp'.trans hp, Or.inl (by rw [hi]; exact h)⟩
      | take _ _ hw hk =>
        exact Or.inr ⟨gone, rest, hn, by rw [hw]; exact hp, Or.inl (by rw [hk]; exact h)⟩
      | detach _ hw hk =>
        refine Or.inr ⟨gone, rest, hn, by rw [hw]; exact hp, Or.inl ?_⟩
        rw [hk]
        dsimp only
        rw [moveDetached_eq, List.map_append]
        exact h.trans (List.prefix_append _ _)
      | @pop site log input _ hi hw hk =>
        cases rest with
        | nil =>
          refine Or.inl ⟨[log.tag], ?_⟩
          rw [List.append_nil] at hn
          rw [hw, hn, ← hp]
          rfl
        | cons t rest =>
          rcases LaneQueues.popFront_cases hi with ⟨hr, -⟩ | ⟨hr, -⟩
          · rw [hr, List.map_cons, List.cons_prefix_cons] at h
            obtain ⟨rfl, h⟩ := h
            refine Or.inr ⟨gone ++ [log.tag], rest, ?_, ?_, Or.inl (by rw [hk]; exact h)⟩
            · rw [hn, List.append_assoc]
              rfl
            · rw [hw, ← List.append_assoc, ← hp]
              rfl
          · rw [hr] at h
            exact absurd (List.prefix_nil.mp h) (by simp)
      | clear _ hw hk =>
        exact Or.inr ⟨gone, rest, hn, by rw [hw]; exact hp, Or.inr (by rw [hk]; rfl)⟩
    · obtain ⟨hpc, hp'⟩ := popped_of_past hm h
      exact Or.inr ⟨gone, rest, hn, hp'.trans hp, Or.inr hpc⟩

/-- The reserved records of the inbox are popped next, whatever follows. -/
theorem poppedNext {t u : State L} (hr : Reach (step x) t u) :
    PoppedNext t.world.history.popped (t.worker.input.reserved.map QueuedLog.tag) u := by
  refine hr.invariant (Or.inr ⟨[], _, rfl, (List.append_nil _).symm, Or.inl (List.prefix_refl _)⟩)
    fun s s' a hi _ hs => ?_
  cases stepMove hs with
  | producer _ hm =>
    have hh := (producer_frame hm).history
    unfold PoppedNext at hi ⊢
    rw [hh]
    exact hi
  | worker _ hm => exact hi.worker hm
  | flush _ hm =>
    rw [(flush_world hm).1]
    exact hi
  | @control op rest _ _ =>
    obtain ⟨_, _, hh⟩ := (controlStep_frame s.world s.control op).history
    unfold PoppedNext at hi ⊢
    rw [hh]
    exact hi
  | _ => exact hi

/-- A record of the inbox was not popped. -/
theorem not_popped_of_inbox (hc : Conserved s) {q : QueueKind} {n : QueuedLog L}
    (hn : n ∈ s.worker.input.get q) : n.tag ∉ s.world.history.popped := fun hp => by
  have hnd : s.world.history.pushed.Nodup := List.Nodup.of_map _ hc.pushed_nodup
  have hnd := (hc.queue : List.Perm _ _).nodup_iff.mpr hnd
  refine (List.nodup_append.mp hnd).2.2 n.tag (List.mem_map_of_mem ?_) n.tag
    (List.mem_append_left _ hp) rfl
  refine List.mem_append_right _ (List.mem_append_right _ ?_)
  cases q with
  | normal => exact List.mem_append_right _ hn
  | reserved => exact List.mem_append_left _ hn

/-- A reserved record of the inbox is popped before every normal one. -/
theorem reserved_popped_first {t u : State L} (ht : Reachable x t) (hu : Reach (step x) t u)
    {r n : QueuedLog L} (hr : r ∈ t.worker.input.reserved) (hn : n ∈ t.worker.input.normal)
    (hp : n.tag ∈ u.world.history.popped) : Precedes u.world.history.popped r.tag n.tag := by
  have hbefore : n.tag ∉ t.world.history.popped :=
    not_popped_of_inbox (q := .normal) (conserved ht) hn
  have hnext : n.tag ∉ t.worker.input.reserved.map QueuedLog.tag := fun hm => by
    obtain ⟨r', hr', he⟩ := List.mem_map.mp hm
    have h1 := (ownerLaw ht).inbox .reserved r' hr'
    have h2 := (ownerLaw ht).inbox .normal n hn
    have h3 : r'.queue = n.queue := congrArg Tag.queue he
    rw [h1, h2] at h3
    cases h3
  rcases poppedNext hu with ⟨rest, h⟩ | ⟨gone, rest, hnx, h, -⟩
  · rw [← h] at hp ⊢
    refine Precedes.append (List.mem_append_right _ (List.mem_map_of_mem hr)) ?_
    exact (List.mem_append.mp hp).resolve_left fun hm =>
      (List.mem_append.mp hm).elim hbefore hnext
  · rw [h] at hp
    rw [hnx] at hnext
    exact absurd hp fun hm => (List.mem_append.mp hm).elim hbefore fun hg =>
      hnext (List.mem_append_left _ hg)

/-- Export order. Two records of one thread and queue are first sent in push
order. A refresh at a batch boundary brings every reserved record of a lane to
the inbox, where it is popped before every normal record of the inbox, and it
is in a batch before each of them unless it is dropped as oversize. -/
theorem export_order (h : Reachable x s) :
    (∀ a b : Tag, a.producer = b.producer → a.queue = b.queue →
      Precedes s.world.history.pushed a b → a ∈ s.world.history.sent →
      b ∈ s.world.history.sent → Precedes s.world.history.sent a b) ∧
    ∀ t u, s.worker.pc = .drain .boundary → ReachWhile (step x) duringRefresh s t →
      t.worker.pc = .chooseFirst → Reach (step x) t u →
      ∀ lane ∈ s.world.lanes, ∀ r ∈ lane.queues.reserved,
        r ∈ t.worker.input.reserved ∧
        ∀ n ∈ t.worker.input.normal,
          (n.tag ∈ u.world.history.popped → Precedes u.world.history.popped r.tag n.tag) ∧
          (n.tag ∈ batched u.world u.worker →
            r.tag ∈ oversized u.world ∨ Precedes (batched u.world u.worker) r.tag n.tag) := by
  refine ⟨fun a b hi hq hp ha hb => ?_, fun t u hs ht hpc hu lane hl r hr => ?_⟩
  · have hnd : s.world.history.pushed.Nodup := List.Nodup.of_map _ (conserved h).pushed_nodup
    have hca : ofClass b.producer b.queue a = true := decide_eq_true ⟨hi, hq⟩
    have hcb : ofClass b.producer b.queue b = true := decide_eq_true ⟨rfl, rfl⟩
    have hsub := ((sent_in_order h).filter (ofClass b.producer b.queue)).trans
      (popped_in_order h b.producer b.queue)
    have hsent := (hp.filter hca hcb).restrict (hnd.filter _) hsub (List.mem_filter.mpr ⟨ha, hca⟩)
      (List.mem_filter.mpr ⟨hb, hcb⟩)
    exact hsent.mono List.filter_sublist
  · have hrt : Reachable x t := h.trans ht.reach
    have hin : r ∈ t.worker.input.reserved := by
      have h0 : Refreshed r s := by
        unfold Refreshed
        rw [hs]
        obtain ⟨j, hj⟩ := List.mem_iff_getElem?.mp hl
        refine ⟨j, lane.queues, ?_, hr⟩
        rw [pairs, List.getElem?_map, hj]
        rfl
      have h1 := refreshed h ht h0
      unfold Refreshed at h1
      rw [hpc] at h1
      exact h1
    refine ⟨hin, fun n hn => ?_⟩
    have hpop := fun hp => reserved_popped_first hrt hu (u := u) hin hn hp
    refine ⟨hpop, fun hb => ?_⟩
    refine batched_in_order (hrt.trans hu) (hpop ((flowLaw (hrt.trans hu)).sublist.subset ?_)) hb
    obtain ⟨rest, he⟩ := flow_eq_batched u.world u.worker
    rw [he]
    exact List.mem_append_left _ hb

/-- One thread's two records are exported in one batch. -/
def twoRun : List (Action ℕ) :=
  .spawn :: submitAlone 0 3 ++ .enter 0 4 :: producerSteps 0 7 ++ workerSteps 30 .fatal

/-- In that run the records are sent in push order. -/
theorem export_order_two : ∃ s : State ℕ, Reachable sample s ∧
    Precedes s.world.history.sent ⟨1, .normal, 0⟩ ⟨2, .normal, 0⟩ := by
  obtain ⟨s, hs, hp⟩ := exists_reach (step sample) (State.init ℕ) twoRun
    (fun s => decide (s.world.history.pushed = [⟨1, .normal, 0⟩, ⟨2, .normal, 0⟩] ∧
      ⟨1, .normal, 0⟩ ∈ s.world.history.sent ∧ ⟨2, .normal, 0⟩ ∈ s.world.history.sent))
    (by decide +kernel)
  obtain ⟨hpush, h1, h2⟩ := of_decide_eq_true hp
  have hpre : Precedes s.world.history.pushed ⟨1, .normal, 0⟩ ⟨2, .normal, 0⟩ := by
    rw [hpush]
    exact List.Sublist.refl _
  exact ⟨s, hs, (export_order hs).1 _ _ rfl rfl hpre h1 h2⟩

/-- One normal slot, and records of forty bytes and more go to the reserved
queue when it is taken. -/
def urgent : Exporter ℕ where
  config := { sampleConfig with normalQueueCapacity := 1 }
  level := fun n => if n < 40 then .info else .error
  audience := sample.audience
  estimatedSizeBytes := sample.estimatedSizeBytes
  map := sample.map
  resource := sample.resource
  map_length := sample.map_length
  resource_length := sample.resource_length
  scope_length := sample.scope_length

/-- Whether the worker is refreshing, as a check. -/
def duringRefreshCheck (s : State ℕ) (_ : Action ℕ) : Bool := refreshing s.worker.pc

/-- The check means what it says. -/
theorem duringRefresh_of_check (s : State ℕ) (a : Action ℕ) (h : duringRefreshCheck s a = true) :
    duringRefresh s a := h

/-- Of a refresh's records a normal one is in a batch and a reserved one is not. -/
def normalFirst (s t u : State ℕ) : Bool :=
  match s.worker.pc, t.worker.pc with
  | .drain .boundary, .chooseFirst => decide (∃ lane ∈ s.world.lanes,
      ∃ r ∈ lane.queues.reserved, ∃ n ∈ t.worker.input.normal,
        n.tag ∈ batched u.world u.worker ∧ r.tag ∉ batched u.world u.worker)
  | _, _ => false

/-- An oversize reserved record is in the lane and in the inbox after the
refresh, and a normal record of the inbox is taken into a batch without it. -/
theorem reserved_not_batched : ∃ (s t u : State ℕ), Reachable urgent s ∧
    s.worker.pc = .drain .boundary ∧ ReachWhile (step urgent) duringRefresh s t ∧
    t.worker.pc = .chooseFirst ∧ Reach (step urgent) t u ∧
    ∃ lane ∈ s.world.lanes, ∃ r ∈ lane.queues.reserved, ∃ n ∈ t.worker.input.normal,
      n.tag ∈ batched u.world u.worker ∧ r.tag ∉ batched u.world u.worker := by
  obtain ⟨s, hs, hp⟩ := exists_reach (step urgent) (State.init ℕ)
    (.spawn :: submitAlone 0 30 ++ .enter 0 100 :: producerSteps 0 11)
    (fun s => (replay (step urgent) duringRefreshCheck s (workerSteps 3 .fatal)).any fun t =>
      (replay (step urgent) noCheck t (workerSteps 20 .fatal)).any (normalFirst s t))
    (by decide +kernel)
  obtain ⟨t, ht, hp⟩ := exists_reach_of_replay _ duringRefresh_of_check _ _ _ hp
  obtain ⟨u, hu, hp⟩ := exists_reach _ _ _ _ hp
  unfold normalFirst at hp
  split at hp
  · rename_i hpcs hpct
    exact ⟨s, t, u, hs, hpcs, ht, hpct, hu, of_decide_eq_true hp⟩
  · cases hp

end EdenLogger.ExportOrder
