import EdenLogger.BatchLimits
import EdenLogger.LaneOrder
import Mathlib.Logic.Function.Basic

/-!
# What is sent was logged

A journal numbers the calls of the callback and notes the log of each, the call
that each ticket went to, and the records the worker maps. Every record in the
system comes from a ticket, and every ticket from a call of its own. So what
the collector is sent is the mapping of a log that was submitted and let
through, and a record that is sent again is the same one.
-/

namespace EdenLogger.RecordContent

open ExporterConfig ExporterLanes LogCollector GenerationState GenerationStep
open GenerationMoves GenerationFrames ListCells LaneTable LaneOwnership LaneOrder RecordFlow
open BatchLimits RunRules

variable {L : Type} {x : Exporter L} {s s' : State L} {a : Action L}

/-! ## The journal -/

/-- What a run has logged, admitted and mapped. -/
structure Journal (L : Type) where
  /-- Every call of the callback: its thread and its log. -/
  calls : List (ℕ × L)
  /-- The latest call of each thread. -/
  latest : ℕ → ℕ
  /-- The call that each ticket went to. -/
  admitted : List ℕ
  /-- The records that were mapped. -/
  mapped : List MappedLog

/-- Nothing was logged. -/
def Journal.empty : Journal L := ⟨[], fun _ => 0, [], []⟩

/-- Keep the journal. -/
def Journal.note (x : Exporter L) (s : State L) (a : Action L) (_ : State L) (j : Journal L) :
    Journal L :=
  match a with
  | .enter i log =>
    { j with
      calls := j.calls ++ [(i, log)]
      latest := Function.update j.latest i j.calls.length }
  | .producer i =>
    match (s.threads[i]?).map Producer.pc with
    | some (.takeTicket _ _) => { j with admitted := j.admitted ++ [j.latest i] }
    | _ => j
  | .worker o =>
    match s.worker.pc with
    | .release _ log => { j with mapped := j.mapped ++ [mapLog x o.now log] }
    | _ => j
  | _ => j

/-- The steps of a generation, with a journal. -/
abbrev notedStep (x : Exporter L) := monitored (step x) (Journal.note x)

/-! ## Calls and tickets -/

/-- Whether a queue is open to a log. -/
def Eligible (x : Exporter L) (log : L) (q : QueueKind) : Prop :=
  isFiltered x log = false ∧
    (q = .reserved → x.config.priorityThreshold.rank ≤ (x.level log).rank)

/-- A queued record has a ticket, which went to a call of its thread with its log. -/
def Admitted (x : Exporter L) (j : Journal L) (log : QueuedLog L) : Prop :=
  0 < log.ticket ∧ Eligible x log.log log.queue ∧
    ∃ c, j.admitted[log.ticket - 1]? = some c ∧ j.calls[c]? = some (log.producer, log.log)

/-- A thread submits the log of its latest call to a queue. -/
structure Submits (x : Exporter L) (j : Journal L) (i : ℕ) (r : Submission L) (q : QueueKind) :
    Prop where
  /-- The call has no ticket. -/
  fresh : j.latest i ∉ j.admitted
  call : j.calls[j.latest i]? = some (i, r.log)
  priority : r.priority = decide (x.config.priorityThreshold.rank ≤ (x.level r.log).rank)
  eligible : Eligible x r.log q

/-- What the journal says of a thread. -/
def ThreadNoted (x : Exporter L) (j : Journal L) (i : ℕ) (p : Producer L) : Prop :=
  match p.pc with
  | .entered log => j.latest i ∉ j.admitted ∧ j.calls[j.latest i]? = some (i, log)
  | .resolve r => Submits x j i r .normal
  | .claimBytes r q | .undoBytes r q | .claimDepth r q | .undoDepth r q | .returnBytes r q
  | .takeTicket r q => Submits x j i r q
  | .push r q ticket => Admitted x j ⟨r.log, q, r.bytes, ticket, i⟩
  | _ => True

/-- The journal agrees with the threads and with the ticket counter. -/
structure CallLaw (x : Exporter L) (s : State L) (j : Journal L) : Prop where
  threads : ∀ i p, s.threads[i]? = some p → ThreadNoted x j i p
  count : j.admitted.length = s.world.nextTicket
  nodup : j.admitted.Nodup
  range : ∀ c ∈ j.admitted, c < j.calls.length

theorem getElem?_of_prefix {α : Type*} {l l' : List α} (h : l <+: l') {i : ℕ} {b : α}
    (hb : l[i]? = some b) : l'[i]? = some b := by
  obtain ⟨t, rfl⟩ := h
  exact (List.getElem?_append_left (List.getElem?_eq_some_iff.mp hb).1).trans hb

/-- What was admitted stays so. -/
theorem Admitted.mono {j j' : Journal L} {log : QueuedLog L} (h : Admitted x j log)
    (hcalls : j.calls <+: j'.calls) (hadmitted : j.admitted <+: j'.admitted) :
    Admitted x j' log := by
  obtain ⟨hpos, hel, c, hc, hlog⟩ := h
  exact ⟨hpos, hel, c, getElem?_of_prefix hadmitted hc, getElem?_of_prefix hcalls hlog⟩

/-- What the journal says of a thread stays so while its latest call is the
same and no other one gets that call's ticket. -/
theorem ThreadNoted.mono {j j' : Journal L} {i : ℕ} {p : Producer L} (h : ThreadNoted x j i p)
    (hlatest : j'.latest i = j.latest i) (hcalls : j.calls <+: j'.calls)
    (hadmitted : j.admitted <+: j'.admitted)
    (hfresh : ∀ log, j.calls[j.latest i]? = some (i, log) → j.latest i ∉ j.admitted →
      j.latest i ∉ j'.admitted) : ThreadNoted x j' i p := by
  have hsubmits : ∀ {r q}, Submits x j i r q → Submits x j' i r q := fun h => by
    refine ⟨?_, ?_, h.priority, h.eligible⟩ <;> rw [hlatest]
    · exact hfresh _ h.call h.fresh
    · exact getElem?_of_prefix hcalls h.call
  unfold ThreadNoted at h ⊢
  split at h
  case h_1 =>
    rw [hlatest]
    exact ⟨hfresh _ h.2 h.1, getElem?_of_prefix hcalls h.2⟩
  case h_9 => exact h.mono hcalls hadmitted
  all_goals first | exact hsubmits h | trivial

/-- A refused submission goes on to the reserved queue if the log has priority. -/
theorem threadNoted_refuse {j : Journal L} {i : ℕ} {r : Submission L} {q : QueueKind}
    (h : Submits x j i r q) (failure : ClaimFailure) (lane : Option ℕ) :
    ThreadNoted x j i ⟨refuse r failure q, lane⟩ := by
  cases q with
  | reserved => trivial
  | normal =>
    unfold refuse
    cases hp : r.priority with
    | false => trivial
    | true =>
      have hrank := of_decide_eq_true (h.priority.symm.trans hp)
      exact ⟨h.fresh, h.call, (decide_eq_true hrank).symm, h.eligible.1, fun _ => hrank⟩

/-- A step of a thread keeps what the journal says of it. With a ticket, the
journal notes the thread's call. -/
theorem producer_noted {j : Journal L} {i : ℕ} {w w' : World L} {p p' : Producer L}
    (h : ThreadNoted x j i p) (hcount : j.admitted.length = w.nextTicket)
    (hm : ProducerMove x i w p w' p') :
    (w'.nextTicket = w.nextTicket ∧ (∀ r q, p.pc ≠ .takeTicket r q) ∧ ThreadNoted x j i p') ∨
      ∃ r q, p.pc = .takeTicket r q ∧ Submits x j i r q ∧ w'.nextTicket = w.nextTicket + 1 ∧
        ThreadNoted x { j with admitted := j.admitted ++ [j.latest i] } i p' := by
  cases hm
  case takeTicket r q hn hpc =>
    simp only [ThreadNoted, hpc] at h
    refine .inr ⟨r, q, hpc, h, rfl, Nat.succ_pos _, h.eligible, j.latest i, ?_, h.call⟩
    dsimp only
    rw [Nat.add_sub_cancel, ← hcount]
    exact List.getElem?_concat_length
  case submit log ha hf hpc =>
    simp only [ThreadNoted, hpc] at h
    refine .inl ⟨rfl, by simp [hpc], h.1, h.2, rfl, hf, fun hq => by cases hq⟩
  case bytesRefused r q hc hpc | undoBytes r q hpc | returnBytes r q hpc =>
    simp only [ThreadNoted, hpc] at h
    exact .inl ⟨rfl, by simp [hpc], threadNoted_refuse h _ _⟩
  case stopped ha hpc | filtered ha hf hpc => exact .inl ⟨rfl, by simp [hpc], trivial⟩
  case push r q ticket j lane hj hl hpc =>
    refine .inl ⟨rfl, by simp [hpc], ?_⟩
    cases he : lane.queues.isEmpty <;> trivial
  case refused failure hpc => cases failure <;> exact .inl ⟨rfl, by simp [hpc], trivial⟩
  all_goals
    rename_i hpc
    simp only [ThreadNoted, hpc] at h
    exact .inl ⟨rfl, by simp [hpc], h⟩

/-- Threads are in different calls. -/
theorem latest_ne {j : Journal L} {i i' : ℕ} {log log' : L}
    (h : j.calls[j.latest i]? = some (i, log)) (h' : j.calls[j.latest i']? = some (i', log'))
    (hne : i ≠ i') : j.latest i ≠ j.latest i' := by
  intro heq
  rw [heq, h', Option.some.injEq, Prod.mk.injEq] at h
  exact hne h.1.symm

/-- A new call has no ticket yet. -/
theorem CallLaw.enter {j : Journal L} {i : ℕ} {log : L} {p : Producer L} (h : CallLaw x s j)
    (hi : s.threads[i]? = some p) (s' : State L) :
    CallLaw x { s with threads := s.threads.set i { p with pc := .entered log } }
      (j.note x s (.enter i log) s') where
  threads := by
    intro i' p' hi'
    simp only [Journal.note]
    rcases cell_of_set hi' with ⟨rfl, rfl⟩ | ⟨hne, hi'⟩
    · refine ⟨?_, ?_⟩ <;> dsimp only <;> rw [Function.update_self]
      · exact fun hmem => Nat.lt_irrefl _ (h.range _ hmem)
      · exact List.getElem?_concat_length
    · exact (h.threads i' p' hi').mono (Function.update_of_ne hne _ _) (List.prefix_append _ _)
        (List.prefix_refl _) fun _ _ hfresh => hfresh
  count := h.count
  nodup := h.nodup
  range c hc := by
    simp only [Journal.note, List.length_append, List.length_singleton]
    exact Nat.lt_succ_of_lt (h.range c hc)

/-- A ticket goes to a call without one. -/
theorem CallLaw.producer {j : Journal L} {i : ℕ} {p p' : Producer L} {w' : World L}
    (h : CallLaw x s j) (hi : s.threads[i]? = some p) (hm : ProducerMove x i s.world p w' p')
    (s' : State L) :
    CallLaw x { s with world := w', threads := s.threads.set i p' }
      (j.note x s (.producer i) s') := by
  rcases producer_noted (h.threads i p hi) h.count hm with
    ⟨hn, hpc, hnoted⟩ | ⟨r, q, hpc, hsubmits, hn, hnoted⟩
  · have hj : j.note x s (.producer i) s' = j := by
      simp only [Journal.note, hi, Option.map_some]
      split
      · rename_i hp
        exact absurd (Option.some.inj hp) (hpc _ _)
      · rfl
    rw [hj]
    refine ⟨fun i' p'' hi' => ?_, h.count.trans hn.symm, h.nodup, h.range⟩
    rcases cell_of_set hi' with ⟨rfl, rfl⟩ | ⟨-, hi'⟩
    · exact hnoted
    · exact h.threads i' p'' hi'
  · have hj : j.note x s (.producer i) s' = { j with admitted := j.admitted ++ [j.latest i] } := by
      simp only [Journal.note, hi, Option.map_some, hpc]
    rw [hj]
    refine ⟨fun i' p'' hi' => ?_, ?_, ?_, fun c hc => ?_⟩
    · rcases cell_of_set hi' with ⟨rfl, rfl⟩ | ⟨hne, hi'⟩
      · exact hnoted
      · refine (h.threads i' p'' hi').mono rfl (List.prefix_refl _) (List.prefix_append _ _) ?_
        intro log hcall hfresh hmem
        rcases List.mem_append.mp hmem with hmem | hmem
        · exact hfresh hmem
        · exact latest_ne hcall hsubmits.call hne (List.mem_singleton.mp hmem)
    · simp only [List.length_append, List.length_singleton, h.count, hn]
    · rw [List.nodup_append]
      refine ⟨h.nodup, List.nodup_singleton _, fun c hc c' hc' heq => hsubmits.fresh ?_⟩
      rw [← List.mem_singleton.mp hc', ← heq]
      exact hc
    · rcases List.mem_append.mp hc with hc | hc
      · exact h.range c hc
      · rw [List.mem_singleton.mp hc]
        exact (List.getElem?_eq_some_iff.mp hsubmits.call).1

/-- Every step keeps the journal in agreement. -/
theorem CallLaw.step {j : Journal L} (h : CallLaw x s j) (hm : Move x s a s') :
    CallLaw x s' (j.note x s a s') := by
  cases hm with
  | spawn =>
    refine ⟨fun i p hi => ?_, h.count, h.nodup, h.range⟩
    rcases cell_of_append hi with hi | ⟨-, rfl⟩
    · exact h.threads i p hi
    · trivial
  | enter hi hpc hr => exact h.enter hi _
  | producer hi hm => exact h.producer hi hm _
  | @exit i p hi hpc =>
    refine ⟨fun i' p' hi' => ?_, h.count, h.nodup, h.range⟩
    rcases cell_of_set hi' with ⟨rfl, rfl⟩ | ⟨-, hi'⟩
    · cases hl : p.lane <;> simp [ThreadNoted]
    · exact h.threads i' p' hi'
  | @worker o w' k' ha hm =>
    have hcalls : ∀ j' : Journal L, j'.calls = j.calls → j'.latest = j.latest →
        j'.admitted = j.admitted → CallLaw x { s with world := w', worker := k' } j' := by
      intro j' hcalls hlatest hadmitted
      refine ⟨fun i p hi => (h.threads i p hi).mono (congrFun hlatest i)
        (hcalls ▸ List.prefix_refl _) (hadmitted ▸ List.prefix_refl _)
        fun _ _ hfresh => hadmitted ▸ hfresh, ?_, ?_, ?_⟩
      · rw [hadmitted]
        exact h.count.trans (worker_frame hm).nextTicket.symm
      · rw [hadmitted]
        exact h.nodup
      · rw [hadmitted, hcalls]
        exact h.range
    unfold Journal.note
    dsimp only
    split <;> exact hcalls _ rfl rfl rfl
  | flush hj hm => exact ⟨h.threads, by rw [(flush_world hm).1]; exact h.count, h.nodup, h.range⟩
  | @control op rest hp hr =>
    exact ⟨h.threads, h.count.trans (controlStep_frame s.world s.control op).nextTicket.symm,
      h.nodup, h.range⟩
  | _ => exact ⟨h.threads, h.count, h.nodup, h.range⟩

/-- A journal only grows. -/
theorem note_prefix (x : Exporter L) (s : State L) (a : Action L) (s' : State L) (j : Journal L) :
    j.calls <+: (j.note x s a s').calls ∧ j.admitted <+: (j.note x s a s').admitted := by
  cases a with
  | enter i log => exact ⟨List.prefix_append _ _, List.prefix_refl _⟩
  | producer i =>
    unfold Journal.note
    dsimp only
    split
    · exact ⟨List.prefix_refl _, List.prefix_append _ _⟩
    · exact ⟨List.prefix_refl _, List.prefix_refl _⟩
  | worker o =>
    unfold Journal.note
    dsimp only
    split <;> exact ⟨List.prefix_refl _, List.prefix_refl _⟩
  | _ => exact ⟨List.prefix_refl _, List.prefix_refl _⟩

/-! ## Queued records -/

/-- Records that are pushed and not mapped. -/
def unmapped (w : World L) (k : Worker L) : List (QueuedLog L) := queued w k ++ (held k.pc).hand

/-- A thread's step brings no record but the one it pushes. -/
theorem producer_pushed {i : ℕ} {w w' : World L} {p p' : Producer L}
    (hm : ProducerMove x i w p w' p') {log : QueuedLog L} (h : log ∈ laneRecords w'.lanes) :
    log ∈ laneRecords w.lanes ∨
      ∃ r q ticket, p.pc = .push r q ticket ∧ log = ⟨r.log, q, r.bytes, ticket, i⟩ := by
  cases hm
  case register => exact .inl (laneRecords_register w ▸ h)
  case push r q ticket j lane hj hl hpc =>
    rcases List.mem_cons.mp ((laneRecords_push hl _).mem_iff.mp h) with rfl | h
    · exact .inr ⟨r, q, ticket, hpc, rfl⟩
    · exact .inl h
  case close j lane hj hl hpc =>
    have hsame : laneRecords (w.lanes.set j { lane with closed := true }) = laneRecords w.lanes :=
      flatMap_set_eq _ hl rfl
    exact .inl (hsame ▸ h)
  case refused failure hpc => cases failure <;> exact .inl h
  all_goals exact .inl h

/-- The record in the worker's hand is the one that it has popped and not mapped. -/
theorem hand_eq (pc : WorkerPc L) :
    (held pc).hand = match pc with
      | .release _ log => [log]
      | _ => [] := by
  cases pc with
  | poll wait cells | parked wait => exact waitHolding_hand wait
  | completing resume rest | notifyProgress resume rest => cases resume <;> rfl
  | _ => rfl

/-- The worker has a record in its hand only after a pop. -/
theorem hand_of_move {o : Oracle} {w w' : World L} {k k' : Worker L}
    (hm : WorkerMove x o w k w' k') :
    ((held k'.pc).hand = [] ∧ w'.history.popped = w.history.popped) ∨
      ∃ site log input, k.pc = .pop site ∧ k.input.popFront = some (log, input) ∧
        (held k'.pc).hand = [log] ∧ w'.history.popped = w.history.popped ++ [log.tag] := by
  cases hm
  case pop site log input hi hpc => exact .inr ⟨site, log, input, hpc, hi, rfl, rfl⟩
  case detach => exact .inl ⟨by rw [held_drainNext], rfl⟩
  case popNone site hi hpc =>
    rcases held_receivedNone k.input site with h | h <;> exact .inl ⟨by rw [h], rfl⟩
  case release site log hpc =>
    rcases held_received k (mapLog x o.now log) site with ⟨h, -⟩ | ⟨-, h, -⟩ <;>
      exact .inl ⟨by rw [h], rfl⟩
  case chooseReceive | assembleReceive => exact .inl ⟨by rw [held_tryReceive], rfl⟩
  case pollReady wait c cells hr hpc =>
    refine .inl ⟨?_, by cases c <;> rfl⟩
    rcases held_waitReady k c wait with h | ⟨-, h⟩
    · rw [h, waitHolding_hand]
    · rw [h]
  case pollNext wait c cells hr hpc => exact .inl ⟨hand_eq _, by cases c <;> rfl⟩
  case completed resume hpc => exact .inl ⟨by rw [held_resumePc]; cases resume <;> rfl, rfl⟩
  all_goals exact .inl ⟨hand_eq _, rfl⟩

/-- The worker's step brings no queued record. -/
theorem worker_queued {o : Oracle} {w w' : World L} {k k' : Worker L}
    (hm : WorkerMove x o w k w' k')
    (hs : ∀ {j : ℕ} {lane : ProducerLane L}, w.lanes[j]? = some lane → SpareEmpty lane)
    {log : QueuedLog L} (h : log ∈ queued w' k') : log ∈ queued w k := by
  rcases worker_queue hm hs with ⟨hq, -⟩ | ⟨_, _, _, -, -, hq, -⟩ | ⟨_, _, _, hpc, -⟩
  · exact hq.subset h
  · exact hq.symm.subset (List.mem_cons_of_mem _ h)
  · cases queueMove hm with
    | keep hl hd hi hp hc => rwa [queued, hl, hd, hi] at h
    | clear hpc' hw hk =>
      subst hw hk
      have hclear := clearLanes_sublist LaneQueues.records rfl w.lanes w.registry.lanes
      rw [queued] at h ⊢
      rcases List.mem_append.mp h with h | h
      · refine List.mem_append_left _ ?_
        simp only [laneRecords, List.flatMap_map] at hclear ⊢
        exact hclear.subset h
      · cases h
    | take hpc' hi hw hk | detach hpc' hw hk | pop hpc' hi hw hk =>
      rw [hpc] at hpc'
      cases hpc'

/-- The worker's step brings no unmapped record. -/
theorem worker_unmapped {o : Oracle} {w w' : World L} {k k' : Worker L}
    (hm : WorkerMove x o w k w' k')
    (hs : ∀ {j : ℕ} {lane : ProducerLane L}, w.lanes[j]? = some lane → SpareEmpty lane)
    {log : QueuedLog L} (h : log ∈ unmapped w' k') : log ∈ unmapped w k := by
  refine List.mem_append_left _ ?_
  rcases List.mem_append.mp h with h | h
  · exact worker_queued hm hs h
  · rcases hand_of_move hm with ⟨hnil, -⟩ | ⟨site, popped, input, hpc, hpop, hhand, -⟩
    · rw [hnil] at h
      cases h
    · rw [hhand, List.mem_singleton] at h
      subst h
      have hinput := (LaneQueues.records_popFront hpop).symm ▸ List.mem_cons_self
      exact List.mem_append_right _ (List.mem_append_right _ hinput)

/-- Every unmapped record was admitted. -/
def QueuedNoted (x : Exporter L) (s : State L) (j : Journal L) : Prop :=
  ∀ log ∈ unmapped s.world s.worker, Admitted x j log

/-- Every step keeps it so. -/
theorem QueuedNoted.step {j : Journal L} (h : QueuedNoted x s j) (hc : CallLaw x s j)
    (ho : LanesOwned s) (hm : Move x s a s') : QueuedNoted x s' (j.note x s a s') := by
  obtain ⟨hcalls, hadmitted⟩ := note_prefix x s a s' j
  intro log hlog
  refine Admitted.mono ?_ hcalls hadmitted
  cases hm with
  | @producer i p p' w' hi hm =>
    have hold : log ∈ laneRecords w'.lanes ∨ log ∈ unmapped s.world s.worker := by
      rw [unmapped, queued, List.append_assoc] at hlog
      rcases List.mem_append.mp hlog with hlog | hlog
      · exact .inl hlog
      · rw [unmapped, queued, List.append_assoc]
        exact .inr (List.mem_append_right _ hlog)
    rcases hold with hlane | hold
    · rcases producer_pushed hm hlane with hold | ⟨r, q, ticket, hpc, rfl⟩
      · exact h log (List.mem_append_left _ (List.mem_append_left _ hold))
      · have hnoted := hc.threads i p hi
        simpa only [ThreadNoted, hpc] using hnoted
    · exact h log hold
  | worker ha hm => exact h log (worker_unmapped hm ho.spare hlog)
  | flush hj hm => exact h log (by rwa [(flush_world hm).1] at hlog)
  | @control op rest hp hr =>
    rw [unmapped, queued, (controlStep_frame s.world s.control op).lanes] at hlog
    exact h log hlog
  | _ => exact h log hlog

/-! ## Mapped records -/

/-- The mapped records that the worker holds. -/
def workerRecords (k : Worker L) : List MappedLog :=
  (held k.pc).parts ++ ((held k.pc).batch ++ (k.pending ++ (held k.pc).settled))

/-- The worker passes mapped records on, and maps the one in its hand. -/
theorem worker_carried {o : Oracle} {w w' : World L} {k k' : Worker L}
    (hm : WorkerMove x o w k w' k') {r : MappedLog} (h : r ∈ workerRecords k') :
    r ∈ workerRecords k ∨ ∃ site log, k.pc = .release site log ∧ r = mapLog x o.now log := by
  rw [← List.count_pos_iff] at h
  rw [← List.count_pos_iff]
  simp only [workerRecords, List.count_append] at h ⊢
  cases hm
  case release site log hpc =>
    by_cases hr : mapLog x o.now log = r
    · exact .inr ⟨site, log, hpc, hr.symm⟩
    · refine .inl ?_
      rcases held_received k (mapLog x o.now log) site with ⟨hheld, hp⟩ | ⟨hs, hheld, hp⟩
      · simp only [hpc, hheld, hp] at h ⊢
        simp only [held, List.count_append, List.count_cons_of_ne hr, List.count_nil] at h ⊢
        omega
      · simp only [hpc, hheld, hp] at h ⊢
        simp only [held, List.count_append, List.count_cons_of_ne hr, List.count_nil] at h ⊢
        omega
  case detach d detached hpc =>
    simp only [hpc, held_drainNext] at h ⊢
    exact .inl h
  case popNone site hi hpc =>
    rcases held_receivedNone k.input site with hheld | hheld
    all_goals
      simp only [hpc, hheld] at h ⊢
      simp only [held, List.count_nil] at h ⊢
      exact .inl (by omega)
  case chooseReceive site hp hs hpc =>
    simp only [hpc, held_tryReceive, hs, siteBatch_choose] at h ⊢
    exact .inl h
  case assembleReceive b site hl hp hs hpc =>
    simp only [hpc, held_tryReceive, hs, siteBatch_assemble] at h ⊢
    exact .inl h
  case pollReady wait c cells hr hpc =>
    rcases held_waitReady k c wait with hheld | ⟨hp, hheld⟩
    · simp only [hpc, hheld, waitReady_pending] at h ⊢
      exact .inl h
    · simp only [hpc, hheld, waitReady_pending] at h ⊢
      simp only [held, hp, waitHolding_settled, List.count_nil] at h ⊢
      exact .inl (by omega)
  case completed resume hpc =>
    simp only [hpc, held_resumePc, resumeHolding_settled] at h ⊢
    exact .inl h
  case chooseCarried r' pending hp hpc | assembleCarried b r' pending hl hp hpc =>
    simp only [hpc, hp, held, List.count_append, List.count_cons, List.count_nil] at h ⊢
    exact .inl (by omega)
  all_goals
    rename_i hpc
    simp only [hpc, held, waitHolding, resumeHolding, attemptParts, exitParts, addRecord,
      splitRecords_flatten, drainBatch, startWait, List.flatten_cons, List.flatten_append,
      List.flatten_nil, List.append_nil, List.count_append, List.count_cons,
      List.count_nil] at h ⊢
    exact .inl (by omega)

/-- What the journal says of mapped records. -/
structure MappedLaw (x : Exporter L) (s : State L) (j : Journal L) : Prop where
  /-- Each is the mapping of an admitted one. -/
  source : ∀ r ∈ j.mapped, ∃ log now, Admitted x j log ∧ r = mapLog x now log
  /-- Each popped record is in the worker's hand or mapped, once. -/
  once : ((held s.worker.pc).hand.map QueuedLog.ticket ++ j.mapped.map MappedLog.ticket).Perm
    (s.world.history.popped.map Tag.ticket)
  carried : ∀ r ∈ workerRecords s.worker, r ∈ j.mapped
  sent : ∀ records ∈ s.world.history.requests, ∀ r ∈ records, r ∈ j.mapped

/-- The worker maps the record in its hand. -/
theorem note_mapped (x : Exporter L) (s : State L) (o : Oracle) (s' : State L) (j : Journal L) :
    (j.note x s (.worker o) s').mapped =
      j.mapped ++ (held s.worker.pc).hand.map (mapLog x o.now) := by
  rw [hand_eq]
  unfold Journal.note
  dsimp only
  split
  · rfl
  · exact (List.append_nil _).symm

/-- The worker keeps the journal of mapped records. -/
theorem MappedLaw.worker {j : Journal L} {o : Oracle} {w' : World L} {k' : Worker L}
    (h : MappedLaw x s j) (hq : QueuedNoted x s j)
    (hm : WorkerMove x o s.world s.worker w' k') (s' : State L) :
    MappedLaw x { s with world := w', worker := k' } (j.note x s (.worker o) s') := by
  obtain ⟨hcalls, hadmitted⟩ := note_prefix x s (.worker o) s' j
  have hmapped := note_mapped x s o s' j
  have hold : ∀ r ∈ j.mapped, r ∈ (j.note x s (.worker o) s').mapped := fun r hr => by
    rw [hmapped]
    exact List.mem_append_left _ hr
  refine ⟨fun r hr => ?_, ?_, fun r hr => ?_, fun records hrecords r hr => ?_⟩
  · rw [hmapped] at hr
    rcases List.mem_append.mp hr with hr | hr
    · obtain ⟨log, now, hlog, hr⟩ := h.source r hr
      exact ⟨log, now, hlog.mono hcalls hadmitted, hr⟩
    · obtain ⟨log, hlog, rfl⟩ := List.mem_map.mp hr
      exact ⟨log, o.now, (hq log (List.mem_append_right _ hlog)).mono hcalls hadmitted, rfl⟩
  · have hsame : ((held s.worker.pc).hand.map (mapLog x o.now)).map MappedLog.ticket =
        (held s.worker.pc).hand.map QueuedLog.ticket := List.map_map
    have honce := List.perm_append_comm.trans h.once
    rw [hmapped, List.map_append, hsame]
    dsimp only
    rcases hand_of_move hm with ⟨hnil, hp⟩ | ⟨site, log, input, hpc, -, hhand, hp⟩
    · rw [hnil, hp]
      exact honce
    · rw [hpc] at honce ⊢
      rw [hhand, hp, List.map_append]
      exact List.perm_append_comm.trans (honce.append_right _)
  · rcases worker_carried hm hr with hr | ⟨site, log, hpc, rfl⟩
    · exact hold r (h.carried r hr)
    · rw [hmapped, hpc]
      exact List.mem_append_right _ (List.mem_singleton.mpr rfl)
  · rcases (worker_requests hm).1 with hsame | ⟨e, hpc, hnew⟩
    · rw [hsame] at hrecords
      exact hold r (h.sent records hrecords r hr)
    · rw [hnew] at hrecords
      rcases List.mem_append.mp hrecords with hrecords | hrecords
      · exact hold r (h.sent records hrecords r hr)
      · refine hold r (h.carried r (List.mem_append_left _ ?_))
        rw [hpc]
        rw [List.mem_singleton.mp hrecords] at hr
        exact List.mem_append_left _ hr

/-- The journal of mapped records is the worker's alone. -/
theorem MappedLaw.other {j j' : Journal L} (h : MappedLaw x s j) (hworker : s'.worker = s.worker)
    (hpopped : s'.world.history.popped = s.world.history.popped)
    (hrequests : s'.world.history.requests = s.world.history.requests)
    (hmapped : j'.mapped = j.mapped) (hcalls : j.calls <+: j'.calls)
    (hadmitted : j.admitted <+: j'.admitted) : MappedLaw x s' j' where
  source r hr := by
    rw [hmapped] at hr
    obtain ⟨log, now, hlog, hr⟩ := h.source r hr
    exact ⟨log, now, hlog.mono hcalls hadmitted, hr⟩
  once := by
    rw [hworker, hpopped, hmapped]
    exact h.once
  carried := by
    rw [hworker, hmapped]
    exact h.carried
  sent := by
    rw [hrequests, hmapped]
    exact h.sent

/-- Every step keeps the journal of mapped records. -/
theorem MappedLaw.step {j : Journal L} (h : MappedLaw x s j) (hq : QueuedNoted x s j)
    (hm : Move x s a s') : MappedLaw x s' (j.note x s a s') := by
  obtain ⟨hcalls, hadmitted⟩ := note_prefix x s a s' j
  cases hm with
  | worker ha hm => exact h.worker hq hm _
  | @producer i p p' w' hi hm =>
    have hhistory := (producer_frame hm).history
    refine h.other rfl ((congrArg History.popped hhistory).trans rfl)
      ((congrArg History.requests hhistory).trans rfl) ?_ hcalls hadmitted
    unfold Journal.note
    dsimp only
    split <;> rfl
  | flush hj hm =>
    have hworld := (flush_world hm).1
    exact h.other rfl (by rw [hworld]) (by rw [hworld]) rfl hcalls hadmitted
  | @control op rest hp hr =>
    obtain ⟨_, _, hhistory⟩ := (controlStep_frame s.world s.control op).history
    exact h.other rfl ((congrArg History.popped hhistory).trans rfl)
      ((congrArg History.requests hhistory).trans rfl) rfl hcalls hadmitted
  | _ => exact h.other rfl rfl rfl rfl hcalls hadmitted

/-! ## Delivery -/

/-- Everything the journal says. -/
structure Noted (x : Exporter L) (s : State L) (j : Journal L) : Prop where
  calls : CallLaw x s j
  queued : QueuedNoted x s j
  mapped : MappedLaw x s j

/-- A run with a journal is a run. -/
theorem reach_of_noted {p : State L × Journal L}
    (h : Reach (notedStep x) (State.init L, .empty) p) : Reachable x p.1 :=
  ReachWhile.unmonitored (p := (State.init L, Journal.empty)) (q := p) (fun _ _ _ => trivial) h

/-- The journal of every run. -/
theorem noted {j : Journal L}
    (h : Reach (notedStep x) (State.init L, .empty) (s, j)) : Noted x s j := by
  have howned : ∀ p, Reach (notedStep x) (State.init L, .empty) p → LanesOwned p.1 := fun p hr =>
    lanesOwned (reach_of_noted hr)
  refine h.invariant_using (I := fun p => Noted x p.1 p.2) howned ?_ ?_
  · refine ⟨⟨fun i p hi => ?_, rfl, List.nodup_nil, fun c hc => ?_⟩, fun log hlog => ?_, ?_⟩
    · cases hi
    · cases hc
    · cases hlog
    · refine ⟨fun r hr => ?_, List.Perm.refl _, fun r hr => ?_, fun records hr => ?_⟩ <;> cases hr
  · intro p q a ho _ hn _ hs
    obtain ⟨hstep, hjournal⟩ := of_monitored hs
    have hm := stepMove hstep
    rw [hjournal]
    exact ⟨hn.calls.step hm, hn.queued.step hn.calls ho hm, hn.mapped.step hn.queued hm⟩

/-- Every record that the collector is sent is the mapping of a log that its
thread submitted, that the filter let through, and that its queue is open to.
Records with different tickets come from different calls, and records with the
same ticket are the same: what is sent again was not mapped again. -/
theorem sent_was_logged {j : Journal L}
    (h : Reach (notedStep x) (State.init L, .empty) (s, j)) :
    j.admitted.Nodup ∧
      (∀ r ∈ s.world.history.requests.flatten, 0 < r.ticket ∧
        ∃ c log now, j.admitted[r.ticket - 1]? = some c ∧ j.calls[c]? = some (r.producer, log) ∧
          Eligible x log r.queue ∧ r.record = x.map log now) ∧
      ∀ r ∈ s.world.history.requests.flatten, ∀ r' ∈ s.world.history.requests.flatten,
        r.ticket = r'.ticket → r = r' := by
  have hn := noted h
  have hpopped := (conserved (reach_of_noted h)).popped_nodup
  have hmapped : ∀ r ∈ s.world.history.requests.flatten, r ∈ j.mapped := fun r hr => by
    obtain ⟨records, hrecords, hr⟩ := List.mem_flatten.mp hr
    exact hn.mapped.sent records hrecords r hr
  have honce : (j.mapped.map MappedLog.ticket).Nodup :=
    (List.nodup_append.mp (hn.mapped.once.nodup_iff.mpr hpopped)).2.1
  refine ⟨hn.calls.nodup, fun r hr => ?_, fun r hr r' hr' heq => ?_⟩
  · obtain ⟨log, now, ⟨hpos, hel, c, hc, hcall⟩, rfl⟩ := hn.mapped.source r (hmapped r hr)
    exact ⟨hpos, c, log.log, now, hc, hcall, hel, rfl⟩
  · exact List.inj_on_of_nodup_map honce (hmapped r hr) (hmapped r' hr') heq

/-- One record is sent twice, since the first request fails. -/
def retriedRun : List (Action ℕ) :=
  .spawn :: submitAlone 0 3 ++ workerSteps 27 .retryable

/-- Both requests carry the mapping of the same log. -/
theorem sent_was_logged_retried : ∃ s : State ℕ,
    s.world.history.requests.flatten.map MappedLog.ticket = [1, 1] ∧
      ∀ r ∈ s.world.history.requests.flatten, ∀ r' ∈ s.world.history.requests.flatten,
        r = r' ∧ ∃ log now, r.record = sample.map log now := by
  obtain ⟨p, hp, ht⟩ := exists_reach (notedStep sample) (State.init ℕ, .empty) retriedRun
    (fun p => decide (p.1.world.history.requests.flatten.map MappedLog.ticket = [1, 1]))
    (by decide +kernel)
  have htickets := of_decide_eq_true ht
  obtain ⟨-, hsource, hsame⟩ := sent_was_logged hp
  have hfirst : ∀ r ∈ p.1.world.history.requests.flatten, r.ticket = 1 := fun r hr => by
    have hmem := List.mem_map_of_mem (f := MappedLog.ticket) hr
    rw [htickets] at hmem
    simpa using hmem
  refine ⟨p.1, htickets, fun r hr r' hr' => ⟨?_, ?_⟩⟩
  · exact hsame r hr r' hr' ((hfirst r hr).trans (hfirst r' hr').symm)
  · obtain ⟨-, _, log, now, -, -, -, hrecord⟩ := hsource r hr
    exact ⟨log, now, hrecord⟩

end EdenLogger.RecordContent
