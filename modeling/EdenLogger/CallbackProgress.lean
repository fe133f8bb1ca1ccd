import EdenLogger.CollectorLocks
import EdenLogger.LockOrder
import EdenLogger.ShutdownProgress

/-!
# The callback makes progress

A thread inside the callback goes through a fixed sequence of operations. It
repeats an access only when somebody has changed the counter it had read, or
when the comparison fails for no reason, and it waits only for a mutex. Who
holds that mutex, or is waited for by its holder, can go on, since lanes are
locked under the registry and never the other way round.
-/

namespace EdenLogger.CallbackProgress

open MachineWord ExporterConfig ExporterLanes LogCollector GenerationState GenerationStep
open GenerationMoves GenerationFrames ListCells LaneOwnership QueueAccounting HandleProgram
open LockOrder CollectorLocks RunRules RunCosts

variable {L : Type} {x : Exporter L} {s s' : LockedState L} {a : Action L × Bool}

/-! ## A thread's own steps -/

/-- Steps from a refusal, by the queue that refused. -/
def refusedLeft : QueueKind → ℕ
  | .normal => 9
  | .reserved => 3

/-- Steps until the thread is outside the callback and its exit, besides the
one that prepares its next operation. -/
def callLeft : ProducerPc L → ℕ
  | .idle => 0
  | .entered _ => 18
  | .resolve _ => 16
  | .claimBytes _ q => refusedLeft q + 5
  | .undoBytes _ q => refusedLeft q + 1
  | .claimDepth _ q => refusedLeft q + 3
  | .undoDepth _ q => refusedLeft q + 2
  | .returnBytes _ q => refusedLeft q + 1
  | .takeTicket _ _ => 5
  | .push _ _ _ => 3
  | .notify => 2
  | .refused _ => 2
  | .leaving => 1
  | .closing => 2
  | .closed => 1
  | .gone => 0

/-- Operations that may have to be prepared: a mutex to be taken, or a counter
to be read. -/
def prepares : ProducerPc L → ℕ
  | .resolve _ | .claimBytes _ _ | .claimDepth _ _ | .push _ _ _ => 1
  | _ => 0

/-- A refusal leads to the next queue or out. -/
theorem callLeft_refuse (r : Submission L) (failure : ClaimFailure) (q : QueueKind) :
    callLeft (refuse r failure q) + prepares (refuse r failure q) ≤ refusedLeft q := by
  cases q with
  | normal =>
    unfold refuse
    dsimp only
    split <;> simp [callLeft, prepares, refusedLeft]
  | reserved => simp [refuse, callLeft, prepares, refusedLeft]

/-- Every operation of a thread is one of those left. -/
theorem callLeft_move {i : ℕ} {w w' : World L} {p p' : Producer L}
    (hm : ProducerMove x i w p w' p') :
    callLeft p'.pc + prepares p'.pc + 1 ≤ callLeft p.pc := by
  cases hm
  case bytesRefused r q hc hpc =>
    have hnext := callLeft_refuse r .bytes q
    have hhere : callLeft p.pc = refusedLeft q + 5 := by rw [hpc]; rfl
    dsimp only
    omega
  case undoBytes r q hpc =>
    have hnext := callLeft_refuse r .bytes q
    have hhere : callLeft p.pc = refusedLeft q + 1 := by rw [hpc]; rfl
    dsimp only
    omega
  case returnBytes r q hpc =>
    have hnext := callLeft_refuse r .records q
    have hhere : callLeft p.pc = refusedLeft q + 1 := by rw [hpc]; rfl
    dsimp only
    omega
  case push r q ticket j lane hj hl hpc =>
    rw [hpc]
    dsimp only
    split <;> simp [callLeft, prepares]
  case depthGranted r q n hc hpc =>
    rw [hpc]
    cases q <;> simp [callLeft, prepares, refusedLeft]
  all_goals
    rename_i hpc
    rw [hpc]
    simp [callLeft, prepares, refusedLeft]

/-- Thread `i` has read the value that the counter it claims on still has. -/
def UpToDate (i : ℕ) (s : LockedState L) (c : Measure × QueueKind × ℕ) : Prop :=
  s.loaded i = some (gauge s.base.world c.1 c.2.1)

instance (i : ℕ) (s : LockedState L) (c : Measure × QueueKind × ℕ) :
    Decidable (UpToDate i s c) :=
  inferInstanceAs (Decidable (_ = _))

/-- Whether thread `i` has still to take the mutex of its next operation, or to
read the counter. -/
def unprepared (x : Exporter L) (i : ℕ) (s : LockedState L) (p : Producer L) : ℕ :=
  match guardOf p with
  | some k => if s.holder k = some (.thread i) then 0 else 1
  | none =>
    match exchanges x p with
    | some c => if UpToDate i s c then 0 else 1
    | none => 0

/-- Steps left of thread `i`, if nobody disturbs it. -/
def threadLeft (x : Exporter L) (i : ℕ) (s : LockedState L) : ℕ :=
  ((s.base.threads[i]?).map fun p => callLeft p.pc + unprepared x i s p).getD 0

/-- Thread `i` is about to exchange a value that is up to date. -/
def ready (x : Exporter L) (i : ℕ) (s : LockedState L) : Bool :=
  (s.base.threads[i]?).any fun p =>
    (guardOf p).isNone && (exchanges x p).any fun c => decide (UpToDate i s c)

/-- A step of a party costs one. -/
def ownCost (y : Party) (_ : LockedState L) (a : Action L × Bool) : ℕ :=
  match a.1 with
  | .producer j => if y = .thread j then 1 else 0
  | .worker _ => if y = .worker then 1 else 0
  | _ => 0

/-- What a call lets thread `i` take, and what its exit does. -/
def grant (i : ℕ) : Action L → ℕ
  | .enter j _ => if j = i then 18 else 0
  | .exit j => if j = i then 2 else 0
  | _ => 0

/-- Whether a step makes thread `i` read the counter again: its own comparison
fails spuriously, or another party changes what the thread has read. -/
def disturbs (x : Exporter L) (i : ℕ) (s : LockedState L) (a : Action L × Bool) : Bool :=
  let changed := (lockedStep x s a).any fun t => !ready x i t
  ready x i s && match a.1 with
    | .producer j => if j = i then a.2 else changed
    | _ => changed

/-- Steps that thread `i` may take on account of a step. -/
def callCredit (x : Exporter L) (i : ℕ) (s : LockedState L) (a : Action L × Bool) : ℕ :=
  grant i a.1 + if disturbs x i s a then 1 else 0

/-- At most one step prepares an operation. -/
theorem unprepared_le (i : ℕ) (s : LockedState L) (p : Producer L) :
    unprepared x i s p ≤ prepares p.pc := by
  unfold unprepared guardOf exchanges asks
  cases p.pc <;> simp only [prepares, Option.filter_none, Option.filter_some] <;> grind

/-- What thread `i` has left where it stands. -/
theorem threadLeft_eq {i : ℕ} {p : Producer L} (hi : s.base.threads[i]? = some p) :
    threadLeft x i s = callLeft p.pc + unprepared x i s p := by
  simp only [threadLeft, hi, Option.map_some, Option.getD_some]

/-- Its own operation is one of those left. -/
theorem threadLeft_own {i : ℕ} {t : State L} {p : Producer L} {holder : Mutex → Option Party}
    {loaded : ℕ → Option ℕ} {prune : Option Prune} (hi : s.base.threads[i]? = some p)
    (hs : step x s.base (.producer i) = some t) :
    threadLeft x i ⟨t, holder, loaded, prune⟩ + 1 ≤ threadLeft x i s := by
  cases stepMove hs with
  | @producer i q p' w' hq hm =>
    cases hi.symm.trans hq
    have hlt := (List.getElem?_eq_some_iff.mp hi).1
    have hmove := callLeft_move hm
    have hnext := unprepared_le (x := x) i
      ⟨{ s.base with world := w', threads := s.base.threads.set i p' }, holder, loaded, prune⟩ p'
    rw [threadLeft_eq hi, threadLeft_eq (List.getElem?_set_self hlt)]
    dsimp only at hnext ⊢
    omega

/-- What others do leaves it what it has left, unless they outdate what it has read. -/
theorem threadLeft_others {i : ℕ} (hthread : s'.base.threads[i]? = s.base.threads[i]?)
    (hheld : ∀ k, s.holder k = some (.thread i) → s'.holder k = some (.thread i)) :
    threadLeft x i s' ≤ threadLeft x i s + if ready x i s && !ready x i s' then 1 else 0 := by
  cases hi : s.base.threads[i]? with
  | none => simp [threadLeft, hthread, hi]
  | some p =>
    rw [threadLeft_eq hi, threadLeft_eq (hthread.trans hi)]
    unfold ready
    rw [hthread, hi]
    unfold unprepared
    cases hg : guardOf p with
    | some k =>
      have hk := hheld k
      dsimp only
      split <;> split <;> simp_all
    | none =>
      cases hc : exchanges x p with
      | none => simp
      | some c =>
        by_cases hbefore : UpToDate i s c <;> by_cases hafter : UpToDate i s' c <;>
          simp [hg, hc, hbefore, hafter]

/-- A thread does not pay for the steps of others. -/
theorem ownCost_of_ne {i : ℕ} (ha : a.1 ≠ .producer i) : ownCost (.thread i) s a = 0 := by
  unfold ownCost
  split
  · rename_i j hj
    refine if_neg fun hij => ha ?_
    rw [hj, Party.thread.inj hij]
  · exact if_neg (by simp)
  · rfl

/-- A step of another party is paid for. -/
theorem threadLeft_beside {i : ℕ} (hs : lockedStep x s a = some s') (ha : a.1 ≠ .producer i)
    (hthread : s'.base.threads[i]? = s.base.threads[i]?)
    (hheld : ∀ k, s.holder k = some (.thread i) → s'.holder k = some (.thread i)) :
    threadLeft x i s' + ownCost (.thread i) s a ≤ threadLeft x i s + callCredit x i s a := by
  have hcost := ownCost_of_ne (s := s) ha
  have hcredit : (if ready x i s && !ready x i s' then 1 else 0) ≤ callCredit x i s a := by
    have hdisturbs : disturbs x i s a = (ready x i s && !ready x i s') := by
      unfold disturbs
      rw [hs, Option.any_some]
      dsimp only
      split
      · rename_i j hj
        rw [if_neg fun hji : j = i => ha (hji ▸ hj)]
      · rfl
    rw [callCredit, hdisturbs]
    exact Nat.le_add_left _ _
  have hleft := threadLeft_others (x := x) hthread hheld
  omega

/-- A thread's operation of its own is paid for. -/
theorem threadLeft_paid {i : ℕ} {b : Bool} (hleft : threadLeft x i s' + 1 ≤ threadLeft x i s) :
    threadLeft x i s' + ownCost (.thread i) s (.producer i, b) ≤
      threadLeft x i s + callCredit x i s (.producer i, b) := by
  have hcost : ownCost (.thread i) s (.producer i, b) = 1 := if_pos rfl
  omega

/-- A thread goes on where it stands in the table. -/
theorem threads_of_move {t u : State L} {j i : ℕ} (hm : Move x t (.producer j) u)
    (ha : (.producer j : Action L) ≠ .producer i) : u.threads[i]? = t.threads[i]? := by
  cases hm with
  | producer hj hm => exact List.getElem?_set_ne fun hji => ha (congrArg _ hji)

/-- The worker moves no thread. -/
theorem worker_threads {t u : State L} {o : Oracle} (hm : Move x t (.worker o) u) :
    u.threads = t.threads := by
  cases hm with
  | worker hab hm => rfl

/-- Reading the counter again is paid for. Unless the value was outdated, a comparison has
failed spuriously. -/
theorem threadLeft_load {i : ℕ} {b : Bool} {p : Producer L} {c : Measure × QueueKind × ℕ}
    (hi : s.base.threads[i]? = some p) (hg : guardOf p = none) (hc : exchanges x p = some c)
    (hagain : UpToDate i s c → b = true) :
    threadLeft x i (load s i c) + ownCost (.thread i) s (.producer i, b) ≤
      threadLeft x i s + callCredit x i s (.producer i, b) := by
  have hcost : ownCost (.thread i) s (.producer i, b) = 1 := if_pos rfl
  have hbefore : threadLeft x i s = callLeft p.pc + unprepared x i s p := threadLeft_eq hi
  have hafter : threadLeft x i (load s i c) = callLeft p.pc := by
    simp [threadLeft, unprepared, load, hi, hg, hc, UpToDate]
  by_cases hup : UpToDate i s c
  · have hdisturbs : disturbs x i s (.producer i, b) = true := by
      simp [disturbs, ready, hi, hg, hc, hup, hagain hup]
    have hcredit : 1 ≤ callCredit x i s (.producer i, b) := by simp [callCredit, hdisturbs]
    omega
  · have hread : unprepared x i s p = 1 := by simp [unprepared, hg, hc, hup]
    omega

/-- A thread stands where it was put. -/
theorem threadLeft_set {i : ℕ} {p p' : Producer L} (hi : s.base.threads[i]? = some p)
    (ht : s'.base.threads = s.base.threads.set i p') :
    threadLeft x i s' ≤ callLeft p'.pc + prepares p'.pc := by
  have hlt := (List.getElem?_eq_some_iff.mp hi).1
  rw [threadLeft_eq ((congrArg (·[i]?) ht).trans (List.getElem?_set_self hlt))]
  exact Nat.add_le_add_left (unprepared_le i _ p') _

/-- What the other parties do is paid for. -/
theorem threadLeft_other {i : ℕ} {a : Action L} {b : Bool} {t : State L}
    (hs : lockedStep x s (a, b) = some { s with base := t }) (hm : Move x s.base a t)
    (hp : ∀ i, a ≠ .producer i) :
    threadLeft x i { s with base := t } + ownCost (.thread i) s (a, b) ≤
      threadLeft x i s + callCredit x i s (a, b) := by
  cases hm with
  | spawn =>
    by_cases hi : i < s.base.threads.length
    · exact threadLeft_beside hs (hp i) (List.getElem?_append_left hi) fun _ => id
    · have hnew : threadLeft x i { s with base := { s.base with
          threads := s.base.threads ++ [⟨.idle, none⟩] } } = 0 := by
        unfold threadLeft
        cases hq : (s.base.threads ++ [⟨.idle, none⟩])[i]? with
        | none => rfl
        | some q =>
          rcases cell_of_append hq with hq | ⟨-, rfl⟩
          · exact absurd (List.getElem?_eq_some_iff.mp hq).1 hi
          · rfl
      rw [hnew]
      exact Nat.zero_le _
  | @enter j log p hj hpc hr =>
    by_cases hji : j = i
    · subst hji
      have hgrant : grant j (.enter j log) = 18 := if_pos rfl
      have hcost : ownCost (.thread j) s (.enter j log, b) = 0 := rfl
      rw [callCredit, hgrant, hcost]
      exact (threadLeft_set hj rfl).trans (by simp only [callLeft, prepares]; omega)
    · exact threadLeft_beside hs (hp i) (List.getElem?_set_ne hji) fun _ => id
  | @exit j p hj hpc =>
    by_cases hji : j = i
    · subst hji
      have hgrant : grant j (.exit j : Action L) = 2 := if_pos rfl
      have hcost : ownCost (.thread j) s (.exit j, b) = 0 := rfl
      have hout : callLeft (if p.lane.isSome then .closing else .gone : ProducerPc L) +
          prepares (if p.lane.isSome then .closing else .gone : ProducerPc L) ≤ 2 := by
        cases p.lane <;> simp [callLeft, prepares]
      rw [callCredit, hgrant, hcost]
      exact (threadLeft_set hj rfl).trans (by dsimp only; omega)
    · exact threadLeft_beside hs (hp i) (List.getElem?_set_ne hji) fun _ => id
  | producer hj hm => exact absurd rfl (hp _)
  | worker hab hm => exact threadLeft_beside hs (hp i) rfl fun _ => id
  | _ => exact threadLeft_beside hs (hp i) rfl fun _ => id

/-- A step of the thread itself is paid for. -/
theorem threadLeft_acts {i : ℕ} {b : Bool} (hs : lockedStep x s (.producer i, b) = some s') :
    threadLeft x i s' + ownCost (.thread i) s (.producer i, b) ≤
      threadLeft x i s + callCredit x i s (.producer i, b) := by
  cases lockedMove hs with
  | other hp hw hs' => exact absurd rfl (hp i)
  | threadAcquire hj hg hfree =>
    refine threadLeft_paid ?_
    simp [threadLeft, unprepared, hj, hg, hfree]
  | load hj hg hc hagain => exact threadLeft_load hj hg hc hagain
  | threadUnder hj hg hheld hs' => exact threadLeft_paid (threadLeft_own hj hs')
  | exchange hj hg hc hfinal hs' => exact threadLeft_paid (threadLeft_own hj hs')
  | thread hj hg hc hs' => exact threadLeft_paid (threadLeft_own hj hs')

/-- So is a step that it does not take. -/
theorem threadLeft_rests {i : ℕ} (hl : LockLaw s) (hs : lockedStep x s a = some s')
    (ha : a.1 ≠ .producer i) :
    threadLeft x i s' + ownCost (.thread i) s a ≤ threadLeft x i s + callCredit x i s a := by
  cases lockedMove hs with
  | other hp hw hs' => exact threadLeft_other hs (stepMove hs') hp
  | threadAcquire hj hg hfree => exact threadLeft_beside hs ha rfl (held_acquire hfree)
  | threadUnder hj hg hheld hs' =>
    exact threadLeft_beside hs ha (threads_of_move (stepMove hs') ha)
      (held_release (by simpa [hheld] using ha))
  | exchange hj hg hc hfinal hs' =>
    exact threadLeft_beside hs ha (threads_of_move (stepMove hs') ha) fun _ => id
  | thread hj hg hc hs' =>
    exact threadLeft_beside hs ha (threads_of_move (stepMove hs') ha) fun _ => id
  | beginPrune hab hpc hn hfree => exact threadLeft_beside hs ha rfl (held_acquire hfree)
  | checkAcquire hab hpc hp hj hfree => exact threadLeft_beside hs ha rfl (held_acquire hfree)
  | checkEmpty hab hpc hp hj hheld =>
    exact threadLeft_beside hs ha rfl (held_release (by simp [hheld]))
  | finishPrune hab hpc hp =>
    exact threadLeft_beside hs ha rfl (held_release (by simp [(hl.pruning hp).2]))
  | workerAcquire hab hg hfree => exact threadLeft_beside hs ha rfl (held_acquire hfree)
  | workerUnder hab hg hheld hs' =>
    exact threadLeft_beside hs ha (congrArg (·[i]?) (worker_threads (stepMove hs')))
      (held_release (by simp [hheld]))
  | worker hd hg hs' =>
    exact threadLeft_beside hs ha (congrArg (·[i]?) (worker_threads (stepMove hs'))) fun _ => id
  | _ => exact threadLeft_beside hs ha rfl fun _ => id

/-- Every step with the locks is paid for. -/
theorem threadLeft_step (i : ℕ) (hl : LockLaw s) (hs : lockedStep x s a = some s') :
    threadLeft x i s' + ownCost (.thread i) s a ≤ threadLeft x i s + callCredit x i s a := by
  obtain ⟨action, b⟩ := a
  by_cases ha : action = .producer i
  · subst ha
    exact threadLeft_acts hs
  · exact threadLeft_rests hl hs ha

/-! ## Who waits for whom -/

/-- The mutex that the worker's next operation takes, or needs to be free. -/
def workerWants (s : LockedState L) : Option Mutex :=
  match s.base.worker.pc, s.prune with
  | .drain _, none => some .registry
  | .drain _, some ⟨j :: _, _, true⟩ => some (.lane j)
  | .ledgerClear _ _, _ =>
    if s.holder .registry = some .worker then
      (s.base.world.registry.lanes.find? fun j => (s.holder (.lane j)).isSome).map .lane
    else some .registry
  | pc, _ => workGuard pc

/-- The mutex that a party's next operation takes. -/
def wants (s : LockedState L) : Party → Option Mutex
  | .thread i => ((s.base.threads[i]?).bind guardOf).filter fun k =>
      decide (s.holder k ≠ some (.thread i))
  | .worker => (workerWants s).filter fun k => decide (s.holder k ≠ some .worker)

/-- A party's next step is enabled, whatever comes from outside. -/
def CanMove (x : Exporter L) (s : LockedState L) : Party → Prop
  | .thread i => ∀ b, (lockedStep x s (.producer i, b)).isSome = true
  | .worker => ∀ o b, (lockedStep x s (.worker o, b)).isSome = true

/-- What the worker wants ranks below what it holds. -/
theorem rank_lt {k j : Mutex} (hlocks : j ∈ workerLocks s.base.worker.pc s.prune)
    (hwants : workerWants s = some k) (hj : s.holder j = some .worker)
    (hk : s.holder k ≠ some .worker) : k.rank < j.rank := by
  have hne : k ≠ j := by
    rintro rfl
    exact hk hj
  unfold workerWants at hwants
  cases hpc : s.base.worker.pc with
  | drain d =>
    rw [hpc] at hlocks hwants
    cases hp : s.prune with
    | none =>
      rw [hp] at hlocks
      cases hlocks
    | some c =>
      obtain ⟨todo, checked, saw⟩ := c
      rw [hp] at hlocks hwants
      cases todo with
      | nil => cases hwants
      | cons j' todo =>
        cases saw with
        | false => cases hwants
        | true =>
          cases hwants
          rcases List.mem_cons.mp hlocks with rfl | hlane
          · exact Nat.zero_lt_one
          · exact absurd (List.mem_singleton.mp hlane).symm hne
  | take d todo detached =>
    rw [hpc] at hlocks hwants
    cases todo with
    | nil => cases hlocks
    | cons j' todo =>
      cases hwants
      exact absurd (List.mem_singleton.mp hlocks).symm hne
  | ledgerClear retained remaining =>
    rw [hpc] at hlocks hwants
    obtain rfl := List.mem_singleton.mp hlocks
    dsimp only at hwants
    rw [if_pos hj] at hwants
    obtain ⟨j', -, rfl⟩ := Option.map_eq_some_iff.mp hwants
    exact Nat.zero_lt_one
  | _ =>
    rw [hpc] at hlocks
    cases hlocks

/-- Mutexes are taken in order. -/
theorem wants_ordered (hl : LockLaw s) : Ordered Mutex.rank s.holder (wants s) := by
  rintro (i | _) k j hk hj
  · obtain ⟨p, hi, hg⟩ := hl.thread hj
    simp only [wants, hi, Option.bind_some, hg, Option.filter_eq_some_iff, Option.some.injEq,
      decide_eq_true_eq] at hk
    obtain ⟨rfl, hne⟩ := hk
    exact absurd hj hne
  · simp only [wants, Option.filter_eq_some_iff, decide_eq_true_eq] at hk
    exact rank_lt (hl.worker hj) hk.1 hj hk.2

/-- Work under a mutex can begin or end, if the mutex is free or held and the work can be
done. -/
theorem under_isSome {y : Party} {k : Mutex} {work : Option (LockedState L)}
    (hfree : s.holder k ≠ some y → s.holder k = none)
    (hwork : s.holder k = some y → work.isSome = true) : (under s y k work).isSome = true := by
  unfold under
  split
  · rename_i hk
    rw [Option.isSome_map]
    exact hwork hk
  · rename_i hk
    unfold acquire
    rw [hfree hk]
    rfl

/-- A thread inside the callback that waits for nobody can move, unless it is about to take a
ticket and the last one is handed out. -/
theorem thread_moves (hb : Reachable x s.base) {i : ℕ} {p : Producer L}
    (hi : s.base.threads[i]? = some p) (hin : p.pc.outside = false)
    (hticket : ∀ r q, p.pc = .takeTicket r q → s.base.world.nextTicket < wordMax)
    (hfree : Free s.holder (wants s) (.thread i)) : CanMove x s (.thread i) := by
  intro b
  have hbase : ∀ loaded, (baseStep x { s with loaded := loaded } (.producer i)).isSome = true := by
    intro loaded
    rw [baseStep, Option.isSome_map]
    exact producer_enabled hb hi hin hticket
  simp only [lockedStep, hi, Option.bind_some]
  unfold threadStep
  split
  · rename_i k hg
    refine under_isSome (fun hk => hfree k ?_) fun _ => hbase s.loaded
    simp only [wants, hi, Option.bind_some, hg, Option.filter_some, hk, ne_eq, not_false_eq_true,
      decide_true, if_true]
  · split
    · unfold fetchUpdate
      dsimp only
      split
      · exact hbase _
      · rfl
    · exact hbase s.loaded

/-- A thread that holds a mutex is inside the callback, and has its ticket or needs none yet. -/
theorem inside_of_guard {p : Producer L} {k : Mutex} (hg : guardOf p = some k) :
    p.pc.outside = false ∧ ∀ r q, p.pc ≠ .takeTicket r q := by
  unfold guardOf at hg
  split at hg
  · rename_i hpc
    exact ⟨by rw [hpc]; rfl, by simp [hpc]⟩
  · rename_i hpc
    exact ⟨by rw [hpc]; rfl, by simp [hpc]⟩
  · cases hg

/-- Where the worker may hold a mutex it is neither suspended nor done. -/
theorem running_of_locks {pc : WorkerPc L} {prune : Option Prune} {k : Mutex}
    (hk : k ∈ workerLocks pc prune) : pc.awaits = false ∧ pc.isFinished = false := by
  cases pc with
  | drain | take | ledgerClear => exact ⟨rfl, rfl⟩
  | _ => cases hk

/-- What the worker wants is free, if it waits for nobody. -/
theorem wanted_free (hfree : Free s.holder (wants s) .worker) {k : Mutex}
    (hw : workerWants s = some k) (hk : s.holder k ≠ some .worker) : s.holder k = none :=
  hfree k (by simp only [wants, hw, Option.filter_some, hk, ne_eq, not_false_eq_true, decide_true,
    if_true])

/-- Lanes can be cleared, if the worker waits for nobody. -/
theorem clearable_of_free (hl : LockLaw s) (hfree : Free s.holder (wants s) .worker)
    (hheld : ∀ k, workGuard s.base.worker.pc = some k → s.holder k = some .worker) :
    clearable s = true := by
  unfold clearable
  split
  · rename_i retained remaining hpc
    have hreg : s.holder .registry = some .worker := hheld _ (by rw [hpc]; rfl)
    rw [List.all_eq_true]
    intro j hj
    by_contra hlocked
    obtain ⟨j', hfind⟩ := Option.isSome_iff_exists.mp
      (List.find?_isSome.mpr ⟨j, hj, by simpa [Option.ne_none_iff_isSome] using hlocked⟩ :
        (s.base.world.registry.lanes.find? fun j => (s.holder (.lane j)).isSome).isSome = true)
    have hw : workerWants s = some (.lane j') := by
      simp only [workerWants, hpc, if_pos hreg, hfind, Option.map_some]
    have hnone : s.holder (.lane j') = none := wanted_free hfree hw fun hmine => by
      have hlocks := hl.worker hmine
      rw [hpc] at hlocks
      cases List.mem_singleton.mp hlocks
    have hsome := List.find?_some hfind
    rw [hnone] at hsome
    cases hsome
  · rfl

/-- The worker can move where it holds a mutex and waits for nobody. -/
theorem worker_moves (hb : Reachable x s.base) (hl : LockLaw s) {k : Mutex}
    (hk : s.holder k = some .worker) (hfree : Free s.holder (wants s) .worker) :
    CanMove x s .worker := by
  intro o b
  have hlocks := hl.worker hk
  obtain ⟨hawaits, hfinished⟩ := running_of_locks hlocks
  have hab : s.base.aborted = false := by
    by_contra hab
    have hsuspended := (handleLaw hb).aborted (by simpa using hab)
    cases hawaits.symm.trans hsuspended
  have hbase : (baseStep x s (.worker o)).isSome = true := by
    rw [baseStep, Option.isSome_map]
    exact ShutdownProgress.worker_enabled hb hab hfinished o
  simp only [lockedStep, hab, Bool.false_eq_true, if_false]
  unfold lockedWorker
  split
  · rename_i d hpc
    split
    · rename_i hn
      rw [hpc, hn] at hlocks
      cases hlocks
    · rename_i c hp
      unfold pruneStep
      split
      · rfl
      · rename_i j todo htodo
        have hj : j < s.base.world.lanes.length := (lanesOwned hb).registry_range j (by
          rw [← (hl.prune hp).lanes, htodo]
          exact List.mem_append_right _ List.mem_cons_self)
        rw [List.getElem?_eq_getElem hj, Option.bind_some]
        split
        · rename_i hsaw
          refine under_isSome (wanted_free hfree ?_) fun _ => rfl
          obtain ⟨todo', checked, saw⟩ := c
          obtain rfl : todo' = j :: todo := htodo
          obtain rfl : saw = true := hsaw
          simp only [workerWants, hpc, hp]
        · split <;> rfl
  · rename_i hd
    split
    · rename_i k' hg
      rw [workerLocks_of_ne _ hd, hg] at hlocks
      obtain rfl := List.mem_singleton.mp hlocks
      refine under_isSome (fun hne => absurd hk hne) fun _ => ?_
      rw [if_pos (clearable_of_free hl hfree fun k' hg' => by
        rw [← Option.some.inj (hg.symm.trans hg')]
        exact hk)]
      exact hbase
    · rename_i hg
      rw [workerLocks_of_ne _ hd, hg] at hlocks
      cases hlocks

/-- Who holds a mutex and waits for nobody can move. -/
theorem holder_moves (hb : Reachable x s.base) (hl : LockLaw s) {k : Mutex} {y : Party}
    (hk : s.holder k = some y) (hfree : Free s.holder (wants s) y) : CanMove x s y := by
  cases y with
  | thread i =>
    obtain ⟨p, hi, hg⟩ := hl.thread hk
    obtain ⟨hin, hticket⟩ := inside_of_guard hg
    exact thread_moves hb hi hin (fun r q hpc => absurd hpc (hticket r q)) hfree
  | worker => exact worker_moves hb hl hk hfree

/-! ## How long a mutex is held -/

/-- Steps of a prune until the registry is given back. -/
def pruneLeft (s : LockedState L) (c : Prune) : ℕ :=
  match c.todo with
  | [] => 1
  | j :: todo =>
    3 * todo.length + 1 +
      if c.sawClosed then if s.holder (.lane j) = some .worker then 1 else 2 else 3

/-- Steps of a party until it gives a mutex back. -/
def holdLeft (k : Mutex) (y : Party) (s : LockedState L) : ℕ :=
  if s.holder k = some y then
    match y, k, s.prune with
    | .worker, .registry, some c => pruneLeft s c
    | _, _, _ => 1
  else 0

/-- A prune takes at most three steps a lane. -/
theorem pruneLeft_le (s : LockedState L) (c : Prune) : pruneLeft s c ≤ 3 * c.todo.length + 1 := by
  unfold pruneLeft
  split
  · omega
  · rename_i j todo htodo
    rw [htodo, List.length_cons]
    split_ifs <;> omega

/-- Somewhere in a prune there is a step left. -/
theorem pruneLeft_open (s : LockedState L) (todo : List ℕ) (checked : List (ℕ × Bool)) :
    pruneLeft s ⟨todo, checked, false⟩ = 3 * todo.length + 1 := by
  cases todo with
  | nil => rfl
  | cons j todo => simp only [pruneLeft, List.length_cons, Bool.false_eq_true, if_false]; omega

/-- Nobody holds a mutex longer than a prune takes. -/
theorem holdLeft_le (hl : LockLaw s) (k : Mutex) (y : Party) :
    holdLeft k y s ≤ 3 * s.base.world.registry.lanes.length + 1 := by
  unfold holdLeft
  split
  · split
    · rename_i c hp hk
      have hlanes := congrArg List.length (hl.prune hp).lanes
      rw [List.length_append] at hlanes
      have hleft := pruneLeft_le s c
      omega
    · omega
  · exact Nat.zero_le _

/-- A mutex that is given back is not held. -/
theorem holdLeft_release (t : LockedState L) (k : Mutex) (y : Party) :
    holdLeft k y (release t k) = 0 := by
  simp [holdLeft, release]

/-- What a party holds otherwise depends on the mutexes the worker holds, and on its prune. -/
theorem holdLeft_kept {k : Mutex} {y : Party} (hk : s.holder k = some y)
    (hprune : s'.prune = s.prune)
    (hworker : ∀ k', s'.holder k' = some .worker ↔ s.holder k' = some .worker) :
    holdLeft k y s' ≤ holdLeft k y s := by
  have hsame : ∀ c, pruneLeft s' c = pruneLeft s c := by
    intro c
    unfold pruneLeft
    simp only [hworker]
  unfold holdLeft
  rw [if_pos hk, hprune]
  split
  · split
    · rw [hsame]
    · exact Nat.le_refl _
  · exact Nat.zero_le _

/-- There is a step left until a mutex is given back. -/
theorem holdLeft_pos {k : Mutex} {y : Party} (hk : s.holder k = some y) : 1 ≤ holdLeft k y s := by
  unfold holdLeft
  rw [if_pos hk]
  split
  · unfold pruneLeft
    split <;> omega
  · exact Nat.le_refl _

/-- A thread has one step left until it gives a mutex back. -/
theorem holdLeft_thread_le (k : Mutex) (i : ℕ) (s : LockedState L) :
    holdLeft k (.thread i) s ≤ 1 := by
  unfold holdLeft
  split
  · exact Nat.le_refl _
  · exact Nat.zero_le _

/-- A thread that holds a mutex gives it back with its next step. -/
theorem holdLeft_own {k : Mutex} {i : ℕ} {b : Bool} (hl : LockLaw s)
    (hk : s.holder k = some (.thread i)) (hs : lockedStep x s (.producer i, b) = some s') :
    holdLeft k (.thread i) s' = 0 := by
  obtain ⟨q, hq, hgq⟩ := hl.thread hk
  cases lockedMove hs with
  | other hp hw hs' => exact absurd rfl (hp i)
  | threadAcquire hi hg hfree =>
    cases hi.symm.trans hq
    cases hg.symm.trans hgq
    cases hfree.symm.trans hk
  | threadUnder hi hg hheld hs' =>
    cases hi.symm.trans hq
    cases hg.symm.trans hgq
    exact holdLeft_release _ k _
  | exchange hi hg | load hi hg | thread hi hg =>
    cases hi.symm.trans hq
    cases hg.symm.trans hgq

/-- Beside the worker nobody changes what it has left until it gives a mutex back. -/
theorem holdLeft_beside {k : Mutex} (hk : s.holder k = some .worker) (hw : ∀ o, a.1 ≠ .worker o)
    (hs : lockedStep x s a = some s') : holdLeft k .worker s' ≤ holdLeft k .worker s := by
  cases lockedMove hs with
  | other hp hw' hs' => exact holdLeft_kept hk rfl fun _ => Iff.rfl
  | threadAcquire hi hg hfree =>
    refine holdLeft_kept hk rfl fun k' => ?_
    simp only [Function.update_apply]
    split
    · rename_i hsame
      simp [hsame, hfree]
    · exact Iff.rfl
  | threadUnder hi hg hheld hs' =>
    refine holdLeft_kept hk rfl fun k' => ?_
    simp only [release, Function.update_apply]
    split
    · rename_i hsame
      simp [hsame, hheld]
    · exact Iff.rfl
  | exchange | load | thread => exact holdLeft_kept hk rfl fun _ => Iff.rfl
  | _ => exact absurd rfl (hw _)

/-- In a prune the registry is held until the prune ends. -/
theorem holdLeft_prune {c : Prune} (hk : s.holder .registry = some .worker)
    (hp : s.prune = some c) : holdLeft .registry .worker s = pruneLeft s c := by
  simp only [holdLeft, hk, hp, if_true]

/-- A step of a prune leaves what the prune has left. -/
theorem holdLeft_next {c : Prune} {holder : Mutex → Option Party}
    (hk : holder .registry = some .worker) :
    holdLeft .registry .worker { s with holder := holder, prune := some c } =
      pruneLeft { s with holder := holder, prune := some c } c :=
  holdLeft_prune hk rfl

/-- A step of the worker with a mutex held is one of those left until it gives the mutex back. -/
theorem holdLeft_worker {k : Mutex} {o : Oracle} {b : Bool} (hl : LockLaw s)
    (hk : s.holder k = some .worker) (hs : lockedStep x s (.worker o, b) = some s') :
    holdLeft k .worker s' + 1 ≤ holdLeft k .worker s := by
  have hlocks := hl.worker hk
  cases lockedMove hs with
  | other hp hw hs' => exact absurd rfl (hw o)
  | beginPrune hab hpc hn hfree =>
    rw [hpc, hn] at hlocks
    cases hlocks
  | @sawOpen _ _ d j todo checked lane hab hpc hp hj hopen =>
    rw [hpc, hp, workerLocks_open] at hlocks
    obtain rfl := List.mem_singleton.mp hlocks
    rw [holdLeft_next hk, holdLeft_prune hk hp, pruneLeft_open, pruneLeft_open, List.length_cons]
    omega
  | @sawClosed _ _ d j todo checked lane hab hpc hp hj hclosed =>
    rw [hpc, hp, workerLocks_open] at hlocks
    obtain rfl := List.mem_singleton.mp hlocks
    rw [holdLeft_next hk, holdLeft_prune hk hp, pruneLeft_open, List.length_cons]
    simp only [pruneLeft, if_true]
    split_ifs <;> omega
  | @checkAcquire _ _ d j todo checked lane hab hpc hp hj hfree =>
    rw [hpc, hp] at hlocks
    rcases List.mem_cons.mp hlocks with rfl | hlane
    · have hk' : Function.update s.holder (.lane j) (some .worker) .registry = some .worker :=
        (Function.update_of_ne (by simp) _ _).trans hk
      have hafter := holdLeft_prune
        (s := { s with holder := Function.update s.holder (.lane j) (some .worker) }) hk' hp
      rw [hafter, holdLeft_prune hk hp]
      simp [pruneLeft, hfree]
    · obtain rfl := List.mem_singleton.mp hlane
      cases hfree.symm.trans hk
  | @checkEmpty _ _ d j todo checked lane hab hpc hp hj hheld =>
    rw [hpc, hp] at hlocks
    rcases List.mem_cons.mp hlocks with rfl | hlane
    · have hk' : Function.update s.holder (.lane j) none .registry = some .worker :=
        (Function.update_of_ne (by simp) _ _).trans hk
      rw [release, holdLeft_next hk', holdLeft_prune hk hp, pruneLeft_open]
      simp [pruneLeft, hheld]
    · obtain rfl := List.mem_singleton.mp hlane
      rw [holdLeft_release]
      exact holdLeft_pos hk
  | finishPrune hab hpc hp =>
    rw [hpc, hp] at hlocks
    obtain rfl := List.mem_singleton.mp hlocks
    rw [holdLeft_release]
    exact holdLeft_pos hk
  | workerAcquire hab hg hfree =>
    rw [workerLocks_of_ne _ (ne_drain_of_guard hg), hg] at hlocks
    obtain rfl := List.mem_singleton.mp hlocks
    cases hfree.symm.trans hk
  | workerUnder hab hg hheld hs' =>
    rw [workerLocks_of_ne _ (ne_drain_of_guard hg), hg] at hlocks
    obtain rfl := List.mem_singleton.mp hlocks
    rw [holdLeft_release]
    exact holdLeft_pos hk
  | worker hd hg hs' =>
    rw [workerLocks_of_ne _ hd, hg] at hlocks
    cases hlocks

/-- Every step of who holds a mutex is one of those left until it gives the mutex back. -/
theorem holdLeft_step {k : Mutex} {y : Party} (hl : LockLaw s) (hk : s.holder k = some y)
    (hs : lockedStep x s a = some s') : holdLeft k y s' + ownCost y s a ≤ holdLeft k y s := by
  obtain ⟨action, b⟩ := a
  have hpos := holdLeft_pos hk
  cases y with
  | thread i =>
    have hle := holdLeft_thread_le k i s'
    by_cases ha : action = .producer i
    · subst ha
      have hown := holdLeft_own hl hk hs
      have hcost : ownCost (.thread i) s (.producer i, b) = 1 := if_pos rfl
      omega
    · rw [ownCost_of_ne ha]
      omega
  | worker =>
    cases action with
    | worker o => exact holdLeft_worker hl hk hs
    | _ =>
      refine (Nat.add_le_add_right (holdLeft_beside hk (by simp) hs) _).trans ?_
      simp [ownCost]

/-- A party holds a mutex. -/
def Holding (k : Mutex) (y : Party) (s : LockedState L) (_ : Action L × Bool) : Prop :=
  s.holder k = some y

/-- A mutex is given back soon. While a party holds it, the party takes at most three steps for
each registered lane, and one more. -/
theorem held_briefly (h : Reach (lockedStep x) (LockedState.init L) s) {k : Mutex} {y : Party}
    {t : LockedState L} {c : Account}
    (hr : ReachWhile (booked (lockedStep x) (ownCost y) fun _ _ => 0)
      (fun p => Holding k y p.1) (s, .empty) (t, c)) :
    c.spent ≤ 3 * s.base.world.registry.lanes.length + 1 := by
  have hrun := amortised (I := LockLaw) (J := fun _ => True) (φ := holdLeft k y)
    (fun u hu => (locks_refine (h.trans hu.reach)).2) (fun _ _ _ _ _ _ => trivial)
    (fun u v a hl _ (hk : Holding k y u a) hs => holdLeft_step hl hk hs) hr trivial
  have hcredit : c.credited = 0 := credited_eq_zero hr
  have hleft := holdLeft_le (locks_refine h).2 k y
  omega

/-! ## Progress -/

/-- The callback makes progress, with the collector's mutexes and counter updates taken apart.
Every run with them is one of the generation. Over any run, thread `i` takes at most the steps
left of its call, eighteen for every further call and two for its exit, and one for every
comparison that fails spuriously and every time another party changes a counter the thread has
read. Inside the callback its next step is enabled, unless the last ticket is handed out or it
waits for a mutex. Then the chain of those it waits for ends with a party that holds a mutex and
can move; and who holds a mutex gives it back within three steps of its own for each
registered lane, and one more. -/
theorem callback_progress (h : Reach (lockedStep x) (LockedState.init L) s) (i : ℕ)
    {t : LockedState L} {c : Account}
    (hr : Reach (booked (lockedStep x) (ownCost (.thread i)) (callCredit x i)) (s, .empty) (t, c)) :
    Reachable x t.base ∧ c.spent ≤ threadLeft x i s + c.credited ∧
      (∀ p, t.base.threads[i]? = some p → p.pc.outside = false →
        (∀ r q, p.pc = .takeTicket r q → t.base.world.nextTicket < wordMax) →
        CanMove x t (.thread i) ∨ ∃ y k, Relation.TransGen (WaitsFor t.holder (wants t))
          (.thread i) y ∧ t.holder k = some y ∧ CanMove x t y) ∧
      ∀ k y u d, ReachWhile (booked (lockedStep x) (ownCost y) fun _ _ => 0)
          (fun p => Holding k y p.1) (t, .empty) (u, d) →
        d.spent ≤ 3 * t.base.world.registry.lanes.length + 1 := by
  have hrun : Reach (lockedStep x) (LockedState.init L) t := h.trans (reach_of_booked hr)
  obtain ⟨hb, hl⟩ := locks_refine hrun
  refine ⟨hb, ?_, fun p hi hin hticket => ?_, fun k y u d hu => held_briefly hrun hu⟩
  · have hspent := amortised (I := LockLaw) (J := fun _ => True) (φ := threadLeft x i)
      (fun u hu => (locks_refine (h.trans hu)).2) (fun _ _ _ _ _ _ => trivial)
      (fun u v a hl _ _ hs => threadLeft_step i hl hs) hr trivial
    omega
  · rcases (wants_ordered hl).exists_free (.thread i) with hfree | ⟨y, k, hchain, hk, hfree⟩
    · exact Or.inl (thread_moves hb hi hin hticket hfree)
    · exact Or.inr ⟨y, k, hchain, hk, holder_moves hb hl hk hfree⟩

/-- An exporter whose bytes are claimed by `fetch_update`. -/
def wide : Exporter ℕ := { sample with config := { sampleConfig with normalQueueBytes := wordMax } }

/-- Steps without spurious failures. -/
def plain (as : List (Action ℕ)) : List (Action ℕ × Bool) := as.map fun a => (a, false)

/-- Thread 0 reads the counter, thread 1 changes it, and thread 0 reads it again, twice since
its comparison fails. Then the worker locks the lane that thread 0 is about to push to. -/
def contendedRun : List (Action ℕ × Bool) :=
  plain (.spawn :: .spawn :: .enter 0 3 :: .enter 1 4 :: producerSteps 0 4 ++ producerSteps 1 5 ++
      producerSteps 0 1) ++
    (.producer 0, true) :: plain (producerSteps 0 3 ++ workerSteps 5 .fatal)

/-- Whether thread 0 has taken nine steps and cannot take the next one, since the worker holds
its lane. -/
def isBlocked (p : LockedState ℕ × Account) : Bool :=
  decide (p.2 = ⟨9, 20⟩) && !(lockedStep wide p.1 (.producer 0, false)).isSome &&
    decide (p.1.holder (.lane 0) = some .worker) &&
    (p.1.base.threads[0]?).any fun q => decide (guardOf q = some (.lane 0))

/-- In that run thread 0 takes nine steps of the twenty it may take, and waits for the worker,
which can move. -/
theorem callback_progress_contended : ∃ t : LockedState ℕ,
    (lockedStep wide t (.producer 0, false)).isSome = false ∧ t.holder (.lane 0) = some .worker ∧
    Reachable wide t.base ∧ 9 ≤ threadLeft wide 0 (LockedState.init ℕ) + 20 ∧
    (∃ y k, Relation.TransGen (WaitsFor t.holder (wants t)) (.thread 0) y ∧
      t.holder k = some y ∧ CanMove wide t y) ∧
    ∀ u d, ReachWhile (booked (lockedStep wide) (ownCost .worker) fun _ _ => 0)
        (fun p => Holding (.lane 0) .worker p.1) (t, .empty) (u, d) →
      d.spent ≤ 3 * t.base.world.registry.lanes.length + 1 := by
  obtain ⟨⟨t, c⟩, hr, ht⟩ := exists_reach
    (booked (lockedStep wide) (ownCost (.thread 0)) (callCredit wide 0))
    (LockedState.init ℕ, .empty) contendedRun isBlocked (by decide +kernel)
  simp only [isBlocked, Bool.and_eq_true, decide_eq_true_eq, Bool.not_eq_true'] at ht
  obtain ⟨⟨⟨rfl, hblocked⟩, hheld⟩, hthread⟩ := ht
  obtain ⟨p, hi, hg⟩ := (Option.any_eq_true _ _).mp hthread
  obtain ⟨hin, hticket⟩ := inside_of_guard (of_decide_eq_true hg)
  obtain ⟨hb, hspent, hnext, hhold⟩ := callback_progress ReachWhile.refl 0 hr
  refine ⟨t, hblocked, hheld, hb, hspent, ?_, fun u d => hhold _ _ u d⟩
  rcases hnext p hi hin (fun r q hpc => absurd hpc (hticket r q)) with hmove | hchain
  · cases hblocked.symm.trans (hmove false)
  · exact hchain

end EdenLogger.CallbackProgress
