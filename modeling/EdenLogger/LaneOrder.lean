import EdenLogger.RecordFlow
import EdenLogger.PairOrder

/-!
# Order between the push and the pop

A thread pushes to one lane, a drain swaps a lane out once, and the quanta of a
drain keep the order of a class that lives in one lane. So the records of one
thread and queue leave the inbox in push order, whatever is interleaved
between them, and a refresh brings the reserved records of every lane.
-/

namespace EdenLogger.LaneOrder

open MachineWord WakeUpPermit ExporterLanes LogCollector GenerationState GenerationStep
open GenerationMoves GenerationFrames ListCells LaneTable LaneOwnership RecordFlow RunRules

variable {L : Type} {x : Exporter L} {s s' : State L} {a : Action L}

/-! ## Whose records a lane holds -/

/-- The lane of a thread. -/
def laneOf (threads : List (Producer L)) (i : ℕ) : Option ℕ := (threads[i]?).bind Producer.lane

/-- A pair holds records of a lane's thread, each in the queue that admitted it. -/
def Owned (threads : List (Producer L)) (j : ℕ) (queues : LaneQueues L) : Prop :=
  ∀ q, ∀ r ∈ queues.get q, r.queue = q ∧ laneOf threads r.producer = some j

/-- The queue pairs of the lanes. -/
def pairs (w : World L) : List (LaneQueues L) := w.lanes.map ProducerLane.queues

/-- Records are where their thread and queue say. -/
structure OwnerLaw (s : State L) : Prop where
  /-- A lane holds records of its thread. -/
  lanes : ∀ {j : ℕ} {queues : LaneQueues L}, (pairs s.world)[j]? = some queues →
    Owned s.threads j queues
  /-- A detached pair holds records of its lane's thread. -/
  detached : ∀ p ∈ (held s.worker.pc).detached, Owned s.threads p.1 p.2
  /-- The inbox holds records in the queue that admitted them. -/
  inbox : ∀ q, ∀ r ∈ s.worker.input.get q, r.queue = q

/-- A pair without records is owned by any lane. -/
theorem Owned.of_empty {threads : List (Producer L)} {j : ℕ} {queues : LaneQueues L}
    (h : queues.records = []) : Owned threads j queues := by
  obtain ⟨hr, hn⟩ := List.append_eq_nil_iff.mp h
  intro q r hm
  cases q with
  | normal =>
    rw [PerQueue.get, hn] at hm
    cases hm
  | reserved =>
    rw [PerQueue.get, hr] at hm
    cases hm

/-- Threads that keep their lanes keep their records. -/
theorem Owned.mono {threads threads' : List (Producer L)} {j : ℕ} {queues : LaneQueues L}
    (h : Owned threads j queues)
    (ht : ∀ i j, laneOf threads i = some j → laneOf threads' i = some j) :
    Owned threads' j queues := fun q r hr => (h q r hr).imp id (ht _ _)

/-- A thread that keeps its lane leaves the lanes of all threads. -/
theorem laneOf_set {threads : List (Producer L)} {i : ℕ} {p p' : Producer L}
    (hi : threads[i]? = some p) (hl : ∀ j, p.lane = some j → p'.lane = some j) (i' j : ℕ)
    (h : laneOf threads i' = some j) : laneOf (threads.set i p') i' = some j := by
  unfold laneOf at h ⊢
  by_cases he : i = i'
  · subst he
    rw [hi] at h
    rw [List.getElem?_set_self (List.getElem?_eq_some_iff.mp hi).1]
    exact hl j h
  · rw [List.getElem?_set_ne he]
    exact h

/-- A new thread leaves the lanes of the others. -/
theorem laneOf_append {threads : List (Producer L)} {p : Producer L} (i j : ℕ)
    (h : laneOf threads i = some j) : laneOf (threads ++ [p]) i = some j := by
  unfold laneOf at h ⊢
  rw [Option.bind_eq_some_iff] at h
  obtain ⟨p', hp, hl⟩ := h
  rw [List.getElem?_append_left (List.getElem?_eq_some_iff.mp hp).1, hp]
  exact hl

/-- What a thread's step does to the queue pairs of the lanes. -/
inductive PairMove (i : ℕ) (w : World L) (p : Producer L) (w' : World L) : Prop where
  | keep (hl : pairs w' = pairs w) (hp : w'.history.pushed = w.history.pushed)
  | register (hl : pairs w' = pairs w ++ [.new]) (hp : w'.history.pushed = w.history.pushed)
  | push {j : ℕ} {queues : LaneQueues L} {log : QueuedLog L} (hj : p.lane = some j)
      (hq : (pairs w)[j]? = some queues) (hi : log.producer = i)
      (hl : pairs w' = (pairs w).set j
        (queues.set log.queue (queues.get log.queue ++ [log])))
      (hp : w'.history.pushed = w.history.pushed ++ [log.tag])

/-- Every step of a thread moves records in one of these ways, and the thread
keeps its lane. -/
theorem pairMove {i : ℕ} {w w' : World L} {p p' : Producer L} (hm : ProducerMove x i w p w' p') :
    PairMove i w p w' ∧ ∀ j, p.lane = some j → p'.lane = some j := by
  refine ⟨?_, fun j hj => ?_⟩
  · cases hm
    case register => exact .register List.map_append rfl
    case push r q ticket j lane hj hl hpc =>
      refine @PairMove.push _ _ _ _ _ j lane.queues ⟨r.log, q, r.bytes, ticket, i⟩ hj ?_ rfl
        List.map_set rfl
      rw [pairs, List.getElem?_map, hl]
      rfl
    case close j lane hj hl hpc =>
      refine .keep ?_ rfl
      refine List.map_set.trans (set_self ?_)
      rw [List.getElem?_map, hl]
      rfl
    case refused failure hpc => cases failure <;> exact .keep rfl rfl
    all_goals exact .keep rfl rfl
  · rcases producer_lane hm with ⟨hl, -⟩ | ⟨r, -, hn, -, -⟩
    · rw [hl]
      exact hj
    · rw [hn] at hj
      cases hj

/-- What a worker step leaves of each lane's pair: all of it, or nothing. -/
theorem worker_pairs {o : Oracle} {w w' : World L} {k k' : Worker L}
    (hm : WorkerMove x o w k w' k')
    (hs : ∀ {j : ℕ} {lane : ProducerLane L}, w.lanes[j]? = some lane → SpareEmpty lane)
    {j : ℕ} {queues : LaneQueues L} (hj : (pairs w')[j]? = some queues) :
    (pairs w)[j]? = some queues ∨ queues.records = [] := by
  simp only [pairs, List.getElem?_map, Option.map_eq_some_iff] at hj ⊢
  obtain ⟨lane', hl', rfl⟩ := hj
  obtain ⟨lane, hl, hst⟩ := (worker_table hm hs).lane hl'
  exact hst.queues.imp (fun hq => ⟨lane, hl, hq.symm⟩) id

/-- The owner law is kept by every worker step. -/
theorem OwnerLaw.worker {o : Oracle} {w' : World L} {k' : Worker L} (h : OwnerLaw s)
    (hs : ∀ {j : ℕ} {lane : ProducerLane L}, s.world.lanes[j]? = some lane → SpareEmpty lane)
    (hm : WorkerMove x o s.world s.worker w' k') :
    OwnerLaw { s with world := w', worker := k' } := by
  refine ⟨fun hj => (worker_pairs hm hs hj).elim h.lanes Owned.of_empty, ?_, ?_⟩ <;> dsimp only
  · cases queueMove hm with
    | keep hl hd hi hp hc =>
      rw [hd]
      exact h.detached
    | @take d i todo detached lane hpc hi hw hk =>
      have hd := h.detached
      rw [hpc] at hd
      rw [hk]
      intro p hp
      rcases List.mem_append.mp hp with hp | hp
      · exact hd p hp
      · rw [List.mem_singleton.mp hp]
        refine h.lanes ?_
        rw [pairs, List.getElem?_map, hi]
        rfl
    | @detach d detached hpc hw hk =>
      rw [hk]
      dsimp only
      rw [held_drainNext]
      exact fun p hp => absurd hp (by simp)
    | pop hpc hi hw hk =>
      rw [hk]
      exact fun p hp => absurd hp (by simp [held])
    | clear hpc hw hk =>
      rw [hk]
      exact fun p hp => absurd hp (by simp [held])
  · cases queueMove hm with
    | keep hl hd hi hp hc =>
      rw [hi]
      exact h.inbox
    | @take d i todo detached lane hpc hi hw hk =>
      rw [hk]
      exact h.inbox
    | @detach d detached hpc hw hk =>
      have hd := h.detached
      rw [hpc] at hd
      rw [hk]
      intro q r hr
      have hr : r ∈ s.worker.input.get q ++ drained q (detached.map Prod.snd) := by
        dsimp only at hr
        rw [moveDetached_eq] at hr
        cases q <;> exact hr
      rcases List.mem_append.mp hr with hr | hr
      · exact h.inbox q r hr
      · rw [(drained_perm q _).mem_iff, kindQueues, List.map_map, List.mem_flatten] at hr
        obtain ⟨l, hl, hr⟩ := hr
        obtain ⟨p, hp, rfl⟩ := List.mem_map.mp hl
        exact (hd p hp q r hr).1
    | @pop site log input hpc hi hw hk =>
      rw [hk]
      intro q r hr
      refine h.inbox q r ?_
      obtain ⟨q₀, hf, ho⟩ := LaneQueues.popFront_get hi
      by_cases he : q = q₀
      · subst he
        rw [hf]
        exact List.mem_cons_of_mem _ hr
      · rw [ho q he]
        exact hr
    | clear hpc hw hk =>
      rw [hk]
      intro q r hr
      cases q <;> cases hr

/-- The owner law is kept by every step. -/
theorem OwnerLaw.step (h : OwnerLaw s) (ho : LanesOwned s) (hm : Move x s a s') : OwnerLaw s' := by
  have hthreads : ∀ threads' : List (Producer L),
      (∀ i j, laneOf s.threads i = some j → laneOf threads' i = some j) →
      OwnerLaw { s with threads := threads' } := fun threads' ht =>
    ⟨fun hj => (h.lanes hj).mono ht, fun p hp => (h.detached p hp).mono ht, h.inbox⟩
  cases hm with
  | spawn => exact hthreads _ laneOf_append
  | enter hi hpc hr => exact hthreads _ (laneOf_set hi fun _ => id)
  | exit hi hpc => exact hthreads _ (laneOf_set hi fun _ => id)
  | @producer i p p' w' hi hm =>
    obtain ⟨hq, hl⟩ := pairMove hm
    have ht := laneOf_set hi hl
    refine ⟨fun hj => ?_, fun p hp => (h.detached p hp).mono ht, h.inbox⟩
    dsimp only at hj ⊢
    cases hq with
    | keep hw _ => exact (h.lanes (hw ▸ hj)).mono ht
    | register hw _ =>
      rw [hw] at hj
      rcases cell_of_append hj with hj | ⟨-, rfl⟩
      · exact (h.lanes hj).mono ht
      · exact Owned.of_empty rfl
    | @push j₀ queues log hj₀ hq hlog hw _ =>
      rw [hw] at hj
      rcases cell_of_set hj with ⟨rfl, rfl⟩ | ⟨-, hj⟩
      · intro q r hr
        have hold : r ∈ queues.get q →
            r.queue = q ∧ laneOf (s.threads.set i p') r.producer = some _ :=
          fun hr => (h.lanes hq).mono ht q r hr
        by_cases he : q = log.queue
        · subst he
          rw [PerQueue.get_set_self] at hr
          rcases List.mem_append.mp hr with hr | hr
          · exact hold hr
          · rw [List.mem_singleton.mp hr, hlog]
            refine ⟨rfl, ht i _ ?_⟩
            rw [laneOf, hi]
            exact hj₀
        · rw [PerQueue.get_set_of_ne _ _ he] at hr
          exact hold hr
      · exact (h.lanes hj).mono ht
  | worker ha hm => exact h.worker ho.spare hm
  | flush hj hm =>
    rw [(flush_world hm).1]
    exact ⟨h.lanes, h.detached, h.inbox⟩
  | @control op rest hp hr =>
    have hw : pairs (controlStep s.world s.control op).1 = pairs s.world := by
      rw [pairs, (controlStep_frame s.world s.control op).lanes]
      rfl
    refine ⟨?_, h.detached, h.inbox⟩
    dsimp only
    rw [hw]
    exact h.lanes
  | _ => exact ⟨h.lanes, h.detached, h.inbox⟩

/-- The owner law holds in every run. -/
theorem ownerLaw {ok : State L → Action L → Prop}
    (h : ReachWhile (step x) ok (State.init L) s) : OwnerLaw s :=
  invariant_of_moves_using (I := OwnerLaw) (fun _ => lanesOwned)
    ⟨fun hj => (by cases hj), fun p hp => absurd hp (by simp [State.init, Worker.new, held]),
      fun q r hr => (by cases q <;> cases hr)⟩
    (fun _ _ _ ho _ hi _ hm => hi.step ho hm) h

/-! ## A drain swaps a lane out once -/

/-- The lanes a drain has swapped out and those it still will are different. -/
def TodoLaw (k : Worker L) : Prop :=
  match k.pc with
  | .take _ todo detached => (detached.map Prod.fst ++ todo).Nodup
  | _ => True

/-- Entering `try_receive` starts a new drain at most. -/
theorem TodoLaw.receive {k : Worker L} (site : Site) (hpc : k.pc = tryReceive k.input site) :
    TodoLaw k := by
  unfold TodoLaw
  rw [hpc]
  rcases tryReceive_cases k.input site with h | h <;> rw [h] <;> trivial

/-- The order of a drain is kept by every worker step. -/
theorem TodoLaw.move {o : Oracle} {w w' : World L} {k k' : Worker L} (h : TodoLaw k)
    (hr : w.registry.lanes.Nodup) (hm : WorkerMove x o w k w' k') : TodoLaw k' := by
  cases hm
  case drain d hpc => exact snapshot_order_nodup _ hr
  case take d i todo detached lane hl hpc =>
    unfold TodoLaw at h ⊢
    rw [hpc] at h
    simp only [List.map_append, List.map_cons, List.map_nil, List.append_assoc,
      List.singleton_append]
    exact h
  case detach d detached hpc => cases d <;> trivial
  case popNone site hi hpc =>
    cases site with
    | firstDraining => exact TodoLaw.receive .exitCheck rfl
    | _ => trivial
  case release site log hpc => cases site <;> trivial
  case chooseReceive site hp hs hpc => exact TodoLaw.receive _ rfl
  case assembleReceive a site hl hp hs hpc => exact TodoLaw.receive _ rfl
  case pollReady wait c cells hr hpc =>
    cases wait <;> cases c <;> first | trivial | exact TodoLaw.receive _ rfl
  case completed resume hpc => cases resume <;> trivial
  all_goals trivial

/-- The order of a drain holds in every run. -/
theorem todoLaw {ok : State L → Action L → Prop}
    (h : ReachWhile (step x) ok (State.init L) s) : TodoLaw s.worker :=
  invariant_of_moves_using (I := fun s => TodoLaw s.worker) (fun _ => lanesOwned) trivial
    (fun t u a ho _ hi _ hm => by
      cases hm with
      | worker ha hm => exact hi.move ho.registry_nodup hm
      | _ => exact hi) h

/-! ## The stream of one thread and queue -/

/-- Records of one thread and queue. -/
def ofClass (i : ℕ) (q : QueueKind) (t : Tag) : Bool := decide (t.producer = i ∧ t.queue = q)

/-- The records of a class among some records, by tag. -/
def select (i : ℕ) (q : QueueKind) (records : List (QueuedLog L)) : List Tag :=
  (records.filter fun r => ofClass i q r.tag).map QueuedLog.tag

@[simp] theorem select_nil (i : ℕ) (q : QueueKind) :
    select i q ([] : List (QueuedLog L)) = [] := rfl

@[simp] theorem select_append (i : ℕ) (q : QueueKind) (l l' : List (QueuedLog L)) :
    select i q (l ++ l') = select i q l ++ select i q l' := by
  simp only [select, List.filter_append, List.map_append]

/-- Selecting commutes with collecting. -/
theorem select_flatMap {β : Type*} (i : ℕ) (q : QueueKind) (l : List β)
    (f : β → List (QueuedLog L)) :
    select i q (l.flatMap f) = l.flatMap fun b => select i q (f b) := by
  simp only [select, List.filter_flatMap, List.map_flatMap]

/-- One record is selected if it is of the class. -/
theorem select_singleton (i : ℕ) (q : QueueKind) (log : QueuedLog L) :
    select i q [log] = [log.tag].filter (ofClass i q) := by
  simp only [select, List.filter_cons, List.filter_nil]
  split <;> rfl

/-- A pair of another lane holds no record of a thread. -/
theorem Owned.select_eq_nil {threads : List (Producer L)} {j j' i : ℕ} {queues : LaneQueues L}
    (h : Owned threads j queues) (hi : laneOf threads i = some j') (hn : j ≠ j') (q : QueueKind) :
    select i q (queues.get q) = [] := by
  simp only [select, List.map_eq_nil_iff, List.filter_eq_nil_iff]
  intro r hr hc
  have hp : r.producer = i := (of_decide_eq_true hc).1
  have ho := (h q r hr).2
  rw [hp, hi] at ho
  exact hn (Option.some.inj ho).symm

/-- A pair that holds records of a thread is of the thread's lane. -/
theorem Owned.owner {threads : List (Producer L)} {j i : ℕ} {queues : LaneQueues L}
    (h : Owned threads j queues) {q : QueueKind} (hn : select i q (queues.get q) ≠ []) :
    laneOf threads i = some j := by
  obtain ⟨t, ht⟩ := List.exists_mem_of_ne_nil _ hn
  obtain ⟨r, hr, -⟩ := List.mem_map.mp ht
  obtain ⟨hr, hc⟩ := List.mem_filter.mp hr
  have hp : r.producer = i := (of_decide_eq_true hc).1
  exact hp ▸ (h q r hr).2

/-- The records of a class on their way, those popped first: the rest of the
inbox, the detached pairs and the lanes. -/
def stream (i : ℕ) (q : QueueKind) (w : World L) (k : Worker L) : List Tag :=
  w.history.popped.filter (ofClass i q) ++
    (select i q (k.input.get q) ++
      (select i q ((held k.pc).detached.flatMap fun p => p.2.get q) ++
        select i q ((pairs w).flatMap fun queues => queues.get q)))

/-- The records of a class are on their way in push order. -/
def StreamLaw (s : State L) : Prop :=
  ∀ i q, (stream i q s.world s.worker).Sublist (s.world.history.pushed.filter (ofClass i q))

/-- The lanes hold a class in the lane of its thread. -/
theorem OwnerLaw.select_pairs (h : OwnerLaw s) {i j : ℕ} {queues : LaneQueues L} (q : QueueKind)
    (hi : laneOf s.threads i = some j) (hq : (pairs s.world)[j]? = some queues) :
    ((pairs s.world).flatMap fun queues => select i q (queues.get q)) =
      select i q (queues.get q) :=
  flatMap_of_single _ hq fun hc hn => (h.lanes hc).select_eq_nil hi hn q

/-- The lanes hold a class in the lane of its thread after a change of it, too. -/
theorem OwnerLaw.select_set (h : OwnerLaw s) {i j : ℕ} {queues : LaneQueues L} (q : QueueKind)
    (hi : laneOf s.threads i = some j) (hj : j < (pairs s.world).length) :
    (((pairs s.world).set j queues).flatMap fun queues => select i q (queues.get q)) =
      select i q (queues.get q) :=
  flatMap_of_single _ (List.getElem?_set_self hj) fun hc hn => by
    rcases cell_of_set hc with ⟨he, -⟩ | ⟨-, hc⟩
    · exact absurd he hn
    · exact (h.lanes hc).select_eq_nil hi hn q

/-- A thread's step keeps the order of every class. -/
theorem StreamLaw.producer {i₀ : ℕ} {w' : World L} {p p' : Producer L} (h : StreamLaw s)
    (ho : OwnerLaw s) (hi₀ : s.threads[i₀]? = some p) (hm : ProducerMove x i₀ s.world p w' p') :
    StreamLaw { s with world := w', threads := s.threads.set i₀ p' } := by
  intro i q
  have hs := h i q
  have hpop : w'.history.popped = s.world.history.popped := by rw [(producer_frame hm).history]
  simp only [stream, hpop, select_flatMap] at hs ⊢
  cases (pairMove hm).1 with
  | keep hl hp =>
    rw [hl, hp]
    exact hs
  | register hl hp =>
    rw [hl, hp, List.flatMap_append]
    have hnew : ([LaneQueues.new].flatMap fun queues : LaneQueues L =>
        select i q (queues.get q)) = [] := by cases q <;> rfl
    rw [hnew, List.append_nil]
    exact hs
  | @push j queues log hj hq hlog hl hp =>
    -- the pushing thread's lane gains the record at the end of its queue
    have hf : select i q ((queues.set log.queue (queues.get log.queue ++ [log])).get q) =
        select i q (queues.get q) ++ [log.tag].filter (ofClass i q) := by
      rw [← select_singleton]
      by_cases he : q = log.queue
      · subst he
        rw [PerQueue.get_set_self, select_append]
      · rw [PerQueue.get_set_of_ne _ _ he, select_singleton, List.filter_cons_of_neg,
          List.filter_nil, List.append_nil]
        exact fun hc => he (of_decide_eq_true hc).2.symm
    rw [hl, hp, List.filter_append]
    by_cases hc : ofClass i q log.tag = true
    · have hlane : laneOf s.threads i = some j := by
        have hi : log.producer = i := (of_decide_eq_true hc).1
        rw [← hi, hlog, laneOf, hi₀]
        exact hj
      rw [ho.select_set q hlane (List.getElem?_eq_some_iff.mp hq).1, hf]
      rw [ho.select_pairs q hlane hq] at hs
      simp only [← List.append_assoc] at hs ⊢
      exact hs.append (List.Sublist.refl _)
    · have hnil : [log.tag].filter (ofClass i q) = [] := by
        rw [List.filter_cons_of_neg hc, List.filter_nil]
      rw [hnil, List.append_nil] at hf
      rw [flatMap_set_eq _ hq hf, hnil, List.append_nil]
      exact hs

/-- The pairs a drain collects hold a class in one of them. -/
theorem OwnerLaw.solo (h : OwnerLaw s) {d : Drain} {detached : List (ℕ × LaneQueues L)}
    (hpc : s.worker.pc = .take d [] detached) (ht : TodoLaw s.worker) (i : ℕ) (q : QueueKind) :
    RoundRobin.Solo (fun r => ofClass i q r.tag) (kindQueues q (detached.map Prod.snd)) := by
  have hd := h.detached
  rw [hpc] at hd
  unfold TodoLaw at ht
  rw [hpc] at ht
  dsimp only at ht
  rw [List.append_nil] at ht
  unfold RoundRobin.Solo kindQueues
  rw [List.map_map, List.pairwise_map]
  refine (List.pairwise_map.mp ht).imp_of_mem fun {p p'} hp hp' hne => ?_
  by_contra hc
  rw [not_or] at hc
  have hsel : ∀ p ∈ detached, (p.2.get q).filter (fun r => ofClass i q r.tag) ≠ [] →
      laneOf s.threads i = some p.1 := fun p hp hn =>
    (hd p hp).owner (q := q) fun hs => hn (List.map_eq_nil_iff.mp hs)
  have h1 := hsel p hp hc.1
  rw [hsel p' hp' hc.2] at h1
  exact hne (Option.some.inj h1).symm

/-- Clearing registered lanes leaves some of their records, in order. -/
theorem clearLanes_sublist {β : Type*} (f : LaneQueues L → List β) (hf : f .new = [])
    (lanes : List (ProducerLane L)) (ids : List ℕ) :
    (((clearLanes lanes ids).1.map ProducerLane.queues).flatMap f).Sublist
      ((lanes.map ProducerLane.queues).flatMap f) := by
  induction ids generalizing lanes with
  | nil => exact List.Sublist.refl _
  | cons i rest ih =>
    rw [clearLanes]
    split
    · exact ih lanes
    · rename_i lane hl
      refine (ih _).trans ?_
      rw [List.map_set]
      refine flatMap_set_sublist f (a := lane.queues) ?_ ?_
      · rw [List.getElem?_map, hl]
        rfl
      · rw [show (clearLane lane).queues = .new from rfl, hf]
        exact List.nil_sublist _

/-- A worker step keeps the order of every class. -/
theorem StreamLaw.worker {o : Oracle} {w' : World L} {k' : Worker L} (h : StreamLaw s)
    (ho : OwnerLaw s) (ht : TodoLaw s.worker) (hl : LanesOwned s)
    (hm : WorkerMove x o s.world s.worker w' k') :
    StreamLaw { s with world := w', worker := k' } := by
  intro i q
  have hs := h i q
  dsimp only
  rw [(worker_frame hm).pushed]
  refine List.Sublist.trans ?_ hs
  clear hs
  cases queueMove hm with
  | keep hlanes hd hi hp hc =>
    unfold stream pairs
    rw [hlanes, hd, hi, hp]
  | @take d j todo detached lane hpc hj hw hk =>
    subst hw hk
    have hq : (pairs s.world)[j]? = some lane.queues := by
      rw [pairs, List.getElem?_map, hj]
      rfl
    have hempty : select i q (lane.take.2.queues.get q) = [] := by
      have hr := List.append_eq_nil_iff.mp (records_take (hl.spare hj))
      cases q with
      | normal => rw [PerQueue.get, hr.2, select_nil]
      | reserved => rw [PerQueue.get, hr.1, select_nil]
    have hset : pairs { s.world with lanes := s.world.lanes.set j lane.take.2 } =
        (pairs s.world).set j lane.take.2.queues := List.map_set
    simp only [stream, hset, hpc, held, select_flatMap, select_append, List.flatMap_append,
      List.flatMap_cons, List.flatMap_nil, List.append_nil, List.append_assoc]
    by_cases hn : select i q (lane.queues.get q) = []
    · rw [flatMap_set_eq _ hq (hempty.trans hn.symm), hn, List.nil_append]
    · have hlane := (ho.lanes hq).owner hn
      rw [ho.select_set q hlane (List.getElem?_eq_some_iff.mp hq).1, ho.select_pairs q hlane hq,
        hempty, List.append_nil]
  | @detach d detached hpc hw hk =>
    subst hw hk
    have hpairs : pairs { s.world with
        lanes := recycleLanes s.world.lanes (emptied detached s.worker.input) } = pairs s.world :=
      recycleLanes_queues _ _
    have hin : (moveDetached detached s.worker.input).get q =
        s.worker.input.get q ++ drained q (detached.map Prod.snd) := by
      rw [moveDetached_eq]
      cases q <;> rfl
    have hdr : select i q (drained q (detached.map Prod.snd)) =
        select i q (detached.flatMap fun p => p.2.get q) := by
      simp only [select]
      rw [drained_filter (ho.solo hpc ht i q), kindQueues, List.map_map, ← List.flatMap_def]
      rfl
    have hheld : (held s.worker.pc).detached = detached := by rw [hpc]; rfl
    simp only [stream, hpairs, hin, hdr, hheld, held_drainNext, select_append, List.flatMap_nil,
      select_nil, List.nil_append, List.append_assoc]
    exact List.Sublist.refl _
  | @pop site log input hpc hi hw hk =>
    subst hw hk
    obtain ⟨q₀, hf, hother⟩ := LaneQueues.popFront_get hi
    have hlq : log.queue = q₀ := ho.inbox q₀ log (hf ▸ List.mem_cons_self)
    have hsel : select i q (s.worker.input.get q) =
        [log.tag].filter (ofClass i q) ++ select i q (input.get q) := by
      rw [← select_singleton, ← select_append]
      by_cases he : q = q₀
      · rw [he, hf]
        rfl
      · rw [hother q he, select_append, select_singleton, List.filter_cons_of_neg,
          List.filter_nil, List.nil_append]
        exact fun hc => he ((of_decide_eq_true hc).2.symm.trans hlq)
    simp only [stream, pairs, hpc, held, subDepth, setDepth, hsel, List.filter_append,
      List.append_assoc]
    exact List.Sublist.refl _
  | @clear retained remaining hpc hw hk =>
    subst hw hk
    have hc := clearLanes_sublist (fun queues : LaneQueues L => select i q (queues.get q))
      (by cases q <;> rfl) s.world.lanes s.world.registry.lanes
    have hnew : select i q ((LaneQueues.new : LaneQueues L).get q) = [] := by cases q <;> rfl
    simp only [stream, pairs, clearQueues, hpc, held, hnew, select_flatMap, List.flatMap_nil,
      List.nil_append]
    exact (List.Sublist.refl _).append
      (hc.trans (List.sublist_append_right _ _))

/-- The order of every class is kept by every step. -/
theorem StreamLaw.step (h : StreamLaw s) (ho : OwnerLaw s) (ht : TodoLaw s.worker)
    (hl : LanesOwned s) (hm : Move x s a s') : StreamLaw s' := by
  cases hm with
  | producer hi hm => exact h.producer ho hi hm
  | worker ha hm => exact h.worker ho ht hl hm
  | flush hj hm =>
    rw [(flush_world hm).1]
    exact h
  | @control op rest hp hr =>
    intro i q
    have hf := controlStep_frame s.world s.control op
    obtain ⟨_, _, hh⟩ := hf.history
    simp only [stream, pairs, hf.lanes, hh]
    exact h i q
  | _ => exact h

/-- The order of every class holds in every run. -/
theorem streamLaw {ok : State L → Action L → Prop}
    (h : ReachWhile (step x) ok (State.init L) s) : StreamLaw s :=
  invariant_of_moves_using (I := StreamLaw)
    (J := fun s => OwnerLaw s ∧ TodoLaw s.worker ∧ LanesOwned s)
    (fun _ hr => ⟨ownerLaw hr, todoLaw hr, lanesOwned hr⟩)
    (fun i q => by cases q <;> exact List.Sublist.refl _)
    (fun _ _ _ hj _ hi _ hm => hi.step hj.1 hj.2.1 hj.2.2 hm) h

/-- The records of one thread and queue are popped in push order. -/
theorem popped_in_order {ok : State L → Action L → Prop}
    (h : ReachWhile (step x) ok (State.init L) s) (i : ℕ) (q : QueueKind) :
    (s.world.history.popped.filter (ofClass i q)).Sublist
      (s.world.history.pushed.filter (ofClass i q)) :=
  (List.sublist_append_left _ _).trans (streamLaw h i q)

/-! ## What a refresh brings -/

/-- A lane holds a reserved record. -/
def LaneHas (w : World L) (j : ℕ) (r : QueuedLog L) : Prop :=
  ∃ queues, (pairs w)[j]? = some queues ∧ r ∈ queues.reserved

/-- The worker is refreshing its inbox at a batch boundary. -/
def refreshing : WorkerPc L → Bool
  | .drain .boundary | .take .boundary _ _ => true
  | _ => false

/-- The steps taken while a refresh lasts. -/
def duringRefresh (s : State L) (_ : Action L) : Prop := refreshing s.worker.pc = true

/-- Where a reserved record is that a lane held when the refresh began. -/
def Refreshed (r : QueuedLog L) (s : State L) : Prop :=
  match s.worker.pc with
  | .drain .boundary => ∃ j, LaneHas s.world j r
  | .take .boundary todo detached =>
    (∃ p ∈ detached, r ∈ p.2.reserved) ∨ ∃ j ∈ todo, LaneHas s.world j r
  | .chooseFirst => r ∈ s.worker.input.reserved
  | _ => True

/-- While the worker stands still a lane keeps its records. -/
theorem Refreshed.mono {r : QueuedLog L} (h : Refreshed r s) (hk : s'.worker = s.worker)
    (hl : ∀ j, LaneHas s.world j r → LaneHas s'.world j r) : Refreshed r s' := by
  unfold Refreshed at h ⊢
  rw [hk]
  split
  · rename_i hpc
    rw [hpc] at h
    obtain ⟨j, hj⟩ := h
    exact ⟨j, hl j hj⟩
  · rename_i hpc
    rw [hpc] at h
    exact h.imp id fun ⟨j, hm, hj⟩ => ⟨j, hm, hl j hj⟩
  · rename_i hpc
    rw [hpc] at h
    exact h
  · trivial

/-- A thread leaves the records of every lane there. -/
theorem producer_keeps_lane {i j : ℕ} {w w' : World L} {p p' : Producer L} {r : QueuedLog L}
    (hm : ProducerMove x i w p w' p') (h : LaneHas w j r) : LaneHas w' j r := by
  obtain ⟨queues, hq, hr⟩ := h
  unfold LaneHas
  cases (pairMove hm).1 with
  | keep hl hp =>
    rw [hl]
    exact ⟨queues, hq, hr⟩
  | register hl hp =>
    rw [hl, List.getElem?_append_left (List.getElem?_eq_some_iff.mp hq).1]
    exact ⟨queues, hq, hr⟩
  | @push j₀ queues₀ log hj hq₀ hi hl hp =>
    rw [hl]
    by_cases he : j₀ = j
    · subst he
      rw [hq] at hq₀
      cases hq₀
      refine ⟨_, List.getElem?_set_self (List.getElem?_eq_some_iff.mp hq).1, ?_⟩
      cases log.queue with
      | normal => exact hr
      | reserved => exact List.mem_append_left _ hr
    · rw [List.getElem?_set_ne he]
      exact ⟨queues, hq, hr⟩

/-- The locked section of a drain orders every lane with a record. -/
theorem mem_drainOrder (hl : LanesOwned s) {j : ℕ} {r : QueuedLog L} (h : LaneHas s.world j r)
    (o : Oracle) : j ∈ drainOrder s.world o := by
  obtain ⟨queues, hq, hr⟩ := h
  rw [pairs, List.getElem?_map, Option.map_eq_some_iff] at hq
  obtain ⟨lane, hj, rfl⟩ := hq
  have hne : lane.queues.records ≠ [] := List.ne_nil_of_mem (List.mem_append_left _ hr)
  have hreg : j ∈ s.world.registry.lanes := by
    by_contra hn
    exact hne (hl.unregistered hj hn)
  have hkeep : keepLane s.world o j = true := by
    by_contra hn
    exact hne (closed_of_not_keep hj (Bool.eq_false_of_not_eq_true hn)).2
  rw [drainOrder, mem_snapshot_order, snapshot_lanes]
  exact List.mem_filter.mpr ⟨hreg, hkeep⟩

/-- A worker step of a refresh brings a reserved record nearer. -/
theorem Refreshed.worker {r : QueuedLog L} {o : Oracle} {w' : World L} {k' : Worker L}
    (h : Refreshed r s) (hl : LanesOwned s) (ha : refreshing s.worker.pc = true)
    (hm : WorkerMove x o s.world s.worker w' k') :
    Refreshed r { s with world := w', worker := k' } := by
  unfold Refreshed at h
  cases hm
  case drain d hpc =>
    rw [hpc] at h ha
    cases d with
    | receiving site => cases ha
    | boundary =>
      obtain ⟨j, hj⟩ := h
      exact Or.inr ⟨j, mem_drainOrder hl hj o, hj⟩
  case take d i todo detached lane hi hpc =>
    rw [hpc] at h ha
    cases d with
    | receiving site => cases ha
    | boundary =>
      rcases h with ⟨p, hp, hr⟩ | ⟨j, hj, queues, hq, hr⟩
      · exact Or.inl ⟨p, List.mem_append_left _ hp, hr⟩
      · by_cases he : i = j
        · subst he
          rw [pairs, List.getElem?_map, hi] at hq
          cases hq
          exact Or.inl ⟨_, List.mem_append_right _ (List.mem_singleton_self _), hr⟩
        · refine Or.inr ⟨j, (List.mem_cons.mp hj).resolve_left (Ne.symm he), queues, ?_, hr⟩
          rw [pairs, List.getElem?_map] at hq ⊢
          rw [List.getElem?_set_ne he]
          exact hq
  case detach d detached hpc =>
    rw [hpc] at h ha
    cases d with
    | receiving site => cases ha
    | boundary =>
      rcases h with ⟨p, hp, hr⟩ | ⟨j, hj, -⟩
      · simp only [Refreshed, drainNext, moveDetached_eq]
        refine List.mem_append_right _ ?_
        rw [(drained_perm .reserved _).mem_iff, kindQueues, List.map_map]
        exact List.mem_flatten.mpr ⟨_, List.mem_map_of_mem hp, hr⟩
      · cases hj
  all_goals
    rename_i hpc
    rw [hpc] at ha
    cases ha

/-- A refresh brings every reserved record that a lane held when it began. -/
theorem refreshed {r : QueuedLog L} {t : State L} (h : Reachable x s)
    (hr : ReachWhile (step x) duringRefresh s t) (h0 : Refreshed r s) : Refreshed r t := by
  refine hr.invariant_using (J := LanesOwned) (fun u hu => lanesOwned (h.trans hu.reach)) h0
    fun t u a hl _ hi ha hs => ?_
  cases stepMove hs with
  | producer _ hm => exact hi.mono rfl fun j => producer_keeps_lane hm
  | worker _ hm => exact hi.worker hl ha hm
  | flush _ hm =>
    rw [(flush_world hm).1]
    exact hi.mono rfl fun _ => id
  | @control op rest _ _ =>
    refine hi.mono rfl fun j hj => ?_
    unfold LaneHas pairs at hj ⊢
    dsimp only
    rw [(controlStep_frame t.world t.control op).lanes]
    exact hj
  | _ => exact hi.mono rfl fun _ => id

end EdenLogger.LaneOrder
