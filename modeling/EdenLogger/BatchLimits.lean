import EdenLogger.RecordFlow
import Mathlib.Algebra.Order.BigOperators.Group.List

/-!
# Limits of a request

The assembly loop keeps a running sum of field lengths, and the sizer turns the
sum into the length of the whole request. Every batch that leaves the loop is
within the limits, and so is every part of it that bisection sends. A record
is counted as oversize only when a request holding it alone is too large.
-/

namespace EdenLogger.BatchLimits

open MachineWord WireFormat RequestSizer ExporterConfig ExporterLanes GenerationState GenerationStep
open GenerationMoves GenerationFrames RecordFlow RunRules

variable {L : Type} {x : Exporter L} {s s' : State L} {a : Action L}

/-! ## Lengths -/

/-- Sum of the exact field lengths of some records. -/
def fieldsLen (records : List MappedLog) : ℕ :=
  (records.map fun r => fieldLen r.record.length).sum

/-- The encoded request of some records. -/
def encoded (x : Exporter L) (records : List MappedLog) : List UInt8 :=
  encodeRequest x.resource x.config.scopeName (records.map MappedLog.record)

/-- Length of the encoded request of some records. -/
theorem encoded_length (x : Exporter L) (records : List MappedLog) :
    (encoded x records).length = requestLen x.resource x.config.scopeName (fieldsLen records) := by
  rw [encoded, encodeRequest_length, recordsLen, List.map_map]
  rfl

/-- The worker's field length is the exact one, cut off at the largest word. -/
theorem recordFieldLen_eq (r : MappedLog) : recordFieldLen r = min (fieldsLen [r]) wordMax := by
  have h := lengthDelimitedFieldLen_min r.record.length
  rw [Nat.min_eq_left r.record_length] at h
  simpa only [recordFieldLen, fieldsLen, List.map_cons, List.map_nil, List.sum_cons, List.sum_nil,
    Nat.add_zero] using h

/-- The sizer computes a request's length, cut off at the largest word. -/
theorem requestSizer_eq (x : Exporter L) (records : List MappedLog) :
    (requestSizer x).encodedLen (min (fieldsLen records) wordMax) =
      min (encoded x records).length wordMax := by
  rw [encoded_length]
  exact encodedLen_eq x.config.scopeName x.resource_length x.scope_length (fieldsLen records)

/-- Part of the records never needs a longer request. -/
theorem encoded_mono {part records : List MappedLog} (h : part.Sublist records) :
    (encoded x part).length ≤ (encoded x records).length := by
  rw [encoded_length, encoded_length]
  exact requestLen_mono
    ((h.map fun (r : MappedLog) => fieldLen r.record.length).sum_le_sum fun _ _ => Nat.zero_le _)

/-! ## Batches within the limits -/

/-- A non-empty batch of at most so many records whose request is short enough. -/
structure WithinLimits (x : Exporter L) (records : List MappedLog) : Prop where
  nonempty : 1 ≤ records.length
  count : records.length ≤ x.config.maxBatchRecords
  bytes : min (encoded x records).length wordMax ≤ x.config.maxBatchBytes

/-- A batch under assembly: within the limits, with its running sum. -/
structure AssemblyOk (x : Exporter L) (a : Assembly) : Prop where
  limits : WithinLimits x a.batch
  sum : a.recordsEncodedLen = min (fieldsLen a.batch) wordMax

/-- A batch under assembly with room for one more record. -/
structure HasRoom (x : Exporter L) (a : Assembly) : Prop extends AssemblyOk x a where
  room : a.batch.length < x.config.maxBatchRecords

/-- The limits at a receive site. -/
def siteLimits (x : Exporter L) : Site → Prop
  | .nextDraining a | .nextPolled a | .nextWoken a => HasRoom x a
  | .firstDraining | .receive | .exitCheck => True

/-- The limits during a drain. -/
def drainLimits (x : Exporter L) : Drain → Prop
  | .boundary => True
  | .receiving site => siteLimits x site

/-- The limits in a wait. -/
def waitLimits (x : Exporter L) : Wait → Prop
  | .assembly a => HasRoom x a
  | .receive | .producersClosed | .terminalShutdown _ | .terminalRecords _ => True

/-- The limits where the worker goes on after completing tickets. -/
def resumeLimits (x : Exporter L) : Resume → Prop
  | .loopTop => True
  | .assemble a => AssemblyOk x a
  | .nextPart stack => ∀ records ∈ stack, WithinLimits x records

/-- What the limits say of the batch the worker has in hand. -/
def pcLimits (x : Exporter L) : WorkerPc L → Prop
  | .drain d | .take d _ _ => drainLimits x d
  | .pop site | .release site _ => siteLimits x site
  | .offer a _ => HasRoom x a
  | .assemble a => AssemblyOk x a
  | .poll wait _ | .parked wait => waitLimits x wait
  | .completing resume _ | .notifyProgress resume _ => resumeLimits x resume
  | .startExport batch => WithinLimits x batch
  | .nextPart stack => ∀ records ∈ stack, WithinLimits x records
  | .attempt e | .awaitReply e | .retrySleep e | .retried e _ =>
    ∀ records ∈ e.records :: e.stack, WithinLimits x records
  | .countRejected e _ => ∀ records ∈ e.stack, WithinLimits x records
  | _ => True

theorem pcLimits_tryReceive (input : LaneQueues L) (site : Site) :
    pcLimits x (tryReceive input site) = siteLimits x site := by
  unfold tryReceive
  split <;> rfl

theorem pcLimits_drainNext (d : Drain) :
    pcLimits x (drainNext d : WorkerPc L) = drainLimits x d := by
  cases d <;> rfl

theorem pcLimits_resumePc (resume : Resume) :
    pcLimits x (resumePc resume : WorkerPc L) = resumeLimits x resume := by
  cases resume <;> rfl

/-- Without a next record the batch goes to export as it is, or waits. -/
theorem pcLimits_receivedNone {input : LaneQueues L} {site : Site} (h : siteLimits x site) :
    pcLimits x (receivedNone input site) := by
  cases site
  case firstDraining =>
    unfold receivedNone
    rw [pcLimits_tryReceive]
    exact h
  case nextDraining a => exact h.limits
  case nextWoken a => exact h.limits
  all_goals exact h

/-- A received record is offered to the batch of its site. -/
theorem pcLimits_received {k : Worker L} {r : MappedLog} {site : Site} (h : siteLimits x site) :
    pcLimits x (received k r site).pc := by
  cases site <;> exact h

/-- A wait that ends sends the batch to export or looks for a record again. -/
theorem pcLimits_waitReady {k : Worker L} {c : Cell} {wait : Wait} (h : waitLimits x wait) :
    pcLimits x (waitReady k c wait).pc := by
  cases wait with
  | receive =>
    cases c <;> unfold waitReady <;> dsimp only <;> rw [pcLimits_tryReceive] <;> trivial
  | assembly a =>
    cases c with
    | records =>
      unfold waitReady
      dsimp only
      rw [pcLimits_tryReceive]
      exact h
    | _ => exact h.limits
  | _ => trivial

/-- A first record that is not oversize starts a batch within the limits. -/
theorem assemblyOk_first (hv : x.config.validate = .ok ()) {r : MappedLog}
    (ho : isOversize x r = false) : AssemblyOk x ⟨[r], recordFieldLen r⟩ where
  limits := by
    have hl := Config.validate_limits hv
    have hb := of_decide_eq_false ho
    rw [recordFieldLen_eq, requestSizer_eq] at hb
    exact ⟨Nat.le_refl 1, by simp only [List.length_singleton]; omega, Nat.le_of_not_gt hb⟩
  sum := recordFieldLen_eq r

/-- An offered record that fits keeps the batch within the limits. -/
theorem AssemblyOk.add {b : Assembly} (h : HasRoom x b) {r : MappedLog}
    (hf : fitsRecord x b r = true) : AssemblyOk x (addRecord b r) := by
  have hsum : (addRecord b r).recordsEncodedLen = min (fieldsLen (b.batch ++ [r])) wordMax := by
    simp only [addRecord, h.sum, recordFieldLen_eq, saturatingAdd_min]
    simp only [fieldsLen, List.map_append, List.sum_append]
  have hb := of_decide_eq_true hf
  rw [hsum, requestSizer_eq] at hb
  refine ⟨⟨?_, ?_, hb⟩, hsum⟩
  · simp only [addRecord, List.length_append, List.length_singleton]
    omega
  · have := h.room
    simp only [addRecord, List.length_append, List.length_singleton]
    omega

/-- A non-empty part of a batch within the limits is within them. -/
theorem WithinLimits.part {part records : List MappedLog} (h : WithinLimits x records)
    (hs : part.Sublist records) (hn : 1 ≤ part.length) : WithinLimits x part where
  nonempty := hn
  count := hs.length_le.trans h.count
  bytes := by
    have := encoded_mono (x := x) hs
    have := h.bytes
    omega

/-- Both halves of a part of several records are within the limits. -/
theorem WithinLimits.split {records : List MappedLog} (h : WithinLimits x records)
    (hl : records.length ≠ 1) : ∀ part ∈ splitRecords records, WithinLimits x part := by
  have hn := h.nonempty
  intro part hp
  rcases List.mem_cons.mp hp with rfl | hp
  · refine h.part (List.take_sublist _ _) ?_
    rw [List.length_take]
    omega
  · rw [List.mem_singleton.mp hp]
    refine h.part (List.drop_sublist _ _) ?_
    rw [List.length_drop]
    omega

/-- The worker keeps its batch within the limits. -/
theorem pcLimits_step (hv : x.config.validate = .ok ()) {o : Oracle} {w w' : World L}
    {k k' : Worker L} (hm : WorkerMove x o w k w' k') (h : pcLimits x k.pc) :
    pcLimits x k'.pc := by
  cases hm
  case detach hpc =>
    rw [hpc] at h
    dsimp only
    rw [pcLimits_drainNext]
    exact h
  case popNone hi hpc =>
    rw [hpc] at h
    exact pcLimits_receivedNone h
  case release hpc =>
    rw [hpc] at h
    exact pcLimits_received h
  case chooseReceive site hp hs hpc =>
    dsimp only
    rw [pcLimits_tryReceive, hs]
    split <;> trivial
  case first r ho hpc => exact assemblyOk_first hv ho
  case assembleCarried a r pending hl hp hpc =>
    rw [hpc] at h
    exact ⟨h, hl⟩
  case assembleReceive a site hl hp hs hpc =>
    rw [hpc] at h
    dsimp only
    rw [pcLimits_tryReceive, hs]
    split <;> exact ⟨h, hl⟩
  case assembleFull a hl hpc =>
    rw [hpc] at h
    exact AssemblyOk.limits h
  case offerOversize a r ho hpc =>
    rw [hpc] at h
    exact HasRoom.toAssemblyOk h
  case offerFits a r ho hf hpc =>
    rw [hpc] at h
    exact AssemblyOk.add h hf
  case offerCarry a r ho hf hpc =>
    rw [hpc] at h
    exact AssemblyOk.limits (HasRoom.toAssemblyOk h)
  case pollReady wait c cells hr hpc =>
    rw [hpc] at h
    exact pcLimits_waitReady h
  case startExport batch hpc =>
    rw [hpc] at h
    intro records hr
    rw [List.mem_singleton.mp hr]
    exact h
  case acknowledged e accepted hr hpc | partialSuccess e accepted rejected hr hn hpc |
      rejectedAlone e hr hl hpc =>
    rw [hpc] at h
    exact fun records hr => h records (List.mem_cons_of_mem _ hr)
  case split e hr hl hpc =>
    rw [hpc] at h
    intro records hr
    rcases List.mem_append.mp hr with hr | hr
    · exact (h e.records List.mem_cons_self).split hl records hr
    · exact h records (List.mem_cons_of_mem _ hr)
  case completed resume hpc =>
    rw [hpc] at h
    dsimp only
    rw [pcLimits_resumePc]
    exact h
  all_goals
    rename_i hpc
    rw [hpc] at h
    first
      | exact h
      | trivial

/-! ## Requests and oversize records -/

/-- Records counted as oversize. -/
def oversized (resolved : List (MappedLog × Outcome)) : List (MappedLog × Outcome) :=
  resolved.filter fun p => decide (p.2 = .oversize)

/-- What was sent is within the limits, and what was dropped as oversize fits
no request. -/
structure LimitLaw (x : Exporter L) (s : State L) : Prop where
  /-- The worker's batch. -/
  worker : pcLimits x s.worker.pc
  /-- Every request handed to the client. -/
  requests : ∀ records ∈ s.world.history.requests, WithinLimits x records
  /-- Every record with the oversize outcome. -/
  oversize : ∀ r, (r, Outcome.oversize) ∈ s.world.history.resolved →
    x.config.maxBatchBytes < (encoded x [r]).length
  /-- The counter counts these records. -/
  counter : s.world.metrics.droppedOversize = (oversized s.world.history.resolved).length

/-- A record the sizer finds oversize fits no request. -/
theorem encoded_of_oversize {r : MappedLog} (ho : isOversize x r = true) :
    x.config.maxBatchBytes < (encoded x [r]).length := by
  have hb := of_decide_eq_true ho
  rw [recordFieldLen_eq, requestSizer_eq] at hb
  omega

/-- What a worker step sends and drops. -/
theorem worker_requests {o : Oracle} {w w' : World L} {k k' : Worker L}
    (hm : WorkerMove x o w k w' k') :
    (w'.history.requests = w.history.requests ∨
        ∃ e, k.pc = .attempt e ∧ w'.history.requests = w.history.requests ++ [e.records]) ∧
      ((∃ dropped, w'.history.resolved = w.history.resolved ++ dropped ∧ oversized dropped = [] ∧
          w'.metrics.droppedOversize = w.metrics.droppedOversize) ∨
        ∃ r, isOversize x r = true ∧
          w'.history.resolved = w.history.resolved ++ [(r, .oversize)] ∧
          w'.metrics.droppedOversize = w.metrics.droppedOversize + 1) := by
  have hnone : ∀ (outcome : Outcome) (records : List MappedLog), outcome ≠ .oversize →
      oversized (records.map fun r => (r, outcome)) = [] := fun outcome records hne => by
    simp only [oversized, List.filter_eq_nil_iff, List.mem_map]
    rintro p ⟨r, -, rfl⟩
    simpa using hne
  cases hm
  case attempt e hpc =>
    exact ⟨Or.inr ⟨e, hpc, rfl⟩, Or.inl ⟨[], (List.append_nil _).symm, rfl, rfl⟩⟩
  case firstOversize r ho hpc => exact ⟨Or.inl rfl, Or.inr ⟨r, ho, rfl, rfl⟩⟩
  case offerOversize a r ho hpc => exact ⟨Or.inl rfl, Or.inr ⟨r, ho, rfl, rfl⟩⟩
  case acknowledged => exact ⟨Or.inl rfl, Or.inl ⟨_, rfl, hnone _ _ (by decide), rfl⟩⟩
  case partialSuccess => exact ⟨Or.inl rfl, Or.inl ⟨_, rfl, hnone _ _ (by decide), rfl⟩⟩
  case rejectedAlone => exact ⟨Or.inl rfl, Or.inl ⟨_, rfl, hnone _ _ (by decide), rfl⟩⟩
  case pollReady wait c cells hr hpc =>
    cases c <;> exact ⟨Or.inl rfl, Or.inl ⟨[], (List.append_nil _).symm, rfl, rfl⟩⟩
  case pollNext wait c cells hr hpc =>
    cases c <;> exact ⟨Or.inl rfl, Or.inl ⟨[], (List.append_nil _).symm, rfl, rfl⟩⟩
  all_goals exact ⟨Or.inl rfl, Or.inl ⟨[], (List.append_nil _).symm, rfl, rfl⟩⟩

/-- The limit law is kept by every step. -/
theorem LimitLaw.step (hv : x.config.validate = .ok ()) (h : LimitLaw x s) (hm : Move x s a s') :
    LimitLaw x s' := by
  cases hm with
  | producer hi hm =>
    have hf := producer_frame hm
    refine ⟨h.worker, ?_, ?_, hf.droppedOversize.trans ?_⟩ <;> dsimp only <;> rw [hf.history]
    · exact h.requests
    · exact h.oversize
    · exact h.counter
  | worker ha hm =>
    obtain ⟨hreq, hres⟩ := worker_requests hm
    refine ⟨pcLimits_step hv hm h.worker, fun records hr => ?_, fun r hr => ?_, ?_⟩ <;>
      dsimp only at *
    · rcases hreq with hreq | ⟨e, hpc, hreq⟩ <;> rw [hreq] at hr
      · exact h.requests records hr
      · rcases List.mem_append.mp hr with hr | hr
        · exact h.requests records hr
        · have hw := h.worker
          rw [hpc] at hw
          exact hw records (List.mem_singleton.mp hr ▸ List.mem_cons_self)
    · rcases hres with ⟨dropped, hres, hnil, -⟩ | ⟨r', ho, hres, -⟩ <;> rw [hres] at hr <;>
        rcases List.mem_append.mp hr with hr | hr
      · exact h.oversize r hr
      · have : (r, Outcome.oversize) ∈ oversized dropped :=
          List.mem_filter.mpr ⟨hr, decide_eq_true rfl⟩
        rw [hnil] at this
        cases this
      · exact h.oversize r hr
      · cases List.mem_singleton.mp hr
        exact encoded_of_oversize ho
    · have hc := h.counter
      simp only [oversized] at hc hres ⊢
      rcases hres with ⟨dropped, hres, hnil, hcnt⟩ | ⟨r', ho, hres, hcnt⟩
      · rw [hres, hcnt, List.filter_append, hnil, List.append_nil]
        exact hc
      · rw [hres, hcnt, List.filter_append, List.length_append, hc]
        rfl
  | flush hj hm =>
    rw [(flush_world hm).1]
    exact ⟨h.worker, h.requests, h.oversize, h.counter⟩
  | @control op rest hp hr =>
    have hf := controlStep_frame s.world s.control op
    obtain ⟨_, _, hh⟩ := hf.history
    refine ⟨h.worker, ?_, ?_, hf.droppedOversize.trans ?_⟩ <;> dsimp only <;> rw [hh]
    · exact h.requests
    · exact h.oversize
    · exact h.counter
  | _ => exact ⟨h.worker, h.requests, h.oversize, h.counter⟩

/-- The limit law holds in every run of a validated configuration. -/
theorem limitLaw (hv : x.config.validate = .ok ()) {ok : State L → Action L → Prop}
    (h : ReachWhile (step x) ok (State.init L) s) : LimitLaw x s :=
  invariant_of_moves (I := LimitLaw x)
    ⟨trivial, fun _ h => absurd h (by simp [State.init, World.new, History.new]),
      fun _ h => absurd h (by simp [State.init, World.new, History.new]), rfl⟩
    (fun _ _ _ hi _ hm => hi.step hv hm) h

/-- Batch limits. Every request handed to the client, first attempts, retries
and bisected parts alike, holds between one and `maxBatchRecords` records and,
as long as its length is a word, encodes to at most `maxBatchBytes`. The
oversize counter counts records no request of their own could carry. -/
theorem batch_limits (hv : x.config.validate = .ok ()) (h : Reachable x s) :
    (∀ records ∈ s.world.history.requests, 1 ≤ records.length ∧
        records.length ≤ x.config.maxBatchRecords ∧
        ((encoded x records).length ≤ wordMax →
          (encoded x records).length ≤ x.config.maxBatchBytes)) ∧
      s.world.metrics.droppedOversize = (oversized s.world.history.resolved).length ∧
      ∀ p ∈ oversized s.world.history.resolved,
        x.config.maxBatchBytes < (encoded x [p.1]).length := by
  have hl := limitLaw hv h
  refine ⟨fun records hr => ?_, hl.counter, fun p hp => ?_⟩
  · have hw := hl.requests records hr
    refine ⟨hw.nonempty, hw.count, fun hle => ?_⟩
    have := hw.bytes
    rwa [Nat.min_eq_left hle] at this
  · obtain ⟨r, outcome⟩ := p
    obtain ⟨hp, ho⟩ := List.mem_filter.mp hp
    cases of_decide_eq_true ho
    exact hl.oversize r hp

/-- Two records of thirty bytes: the second does not fit and is carried over. -/
def carryRun : List (Action ℕ) :=
  .spawn :: submitAlone 0 30 ++ .enter 0 30 :: producerSteps 0 7 ++ workerSteps 14 .fatal

/-- One request of one record that is a word long at most. -/
def oneRequest (s : State ℕ) : Bool :=
  match s.world.history.requests with
  | [records] => decide (records.length = 1 ∧ (encoded sample records).length ≤ wordMax)
  | _ => false

/-- The request of that run holds one record and at most sixty-four bytes. -/
theorem batch_limits_carry : ∃ (s : State ℕ) (records : List MappedLog),
    s.world.history.requests = [records] ∧ records.length = 1 ∧
      (encoded sample records).length ≤ 64 := by
  obtain ⟨s, hs, hp⟩ := exists_reach (step sample) (State.init ℕ) carryRun
    oneRequest (by decide +kernel)
  unfold oneRequest at hp
  split at hp
  · rename_i records hreq
    obtain ⟨h1, hw⟩ := of_decide_eq_true hp
    obtain ⟨hall, -, -⟩ := batch_limits (by decide +kernel : sample.config.validate = .ok ()) hs
    exact ⟨s, records, hreq, h1,
      (hall records (hreq ▸ List.mem_singleton.mpr rfl)).2.2 hw⟩
  · cases hp

end EdenLogger.BatchLimits
