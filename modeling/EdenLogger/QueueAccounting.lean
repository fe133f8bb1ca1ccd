import EdenLogger.CapacityAccount
import EdenLogger.RecordFlow

/-!
# What the queue gauges account for

Each queue has a gauge of records and a gauge of bytes. Every access adds or
subtracts one amount, so a gauge stands, modulo the word size, for what the
records held under its queue amount to, what submissions hold claimed on it
and what a release in progress has not returned. Claims are of two sorts: those
granted, and those that found no room and are about to be taken back.
-/

namespace EdenLogger.QueueAccounting

open MachineWord WakeUpPermit ExporterLanes LogCollector GenerationState GenerationStep
open GenerationMoves GenerationFrames ListCells LaneTable LaneOwnership RecordFlow
open CapacityAccount RunRules

variable {L : Type} {x : Exporter L} {s s' : State L} {a : Action L}

/-- What a gauge measures. -/
inductive Measure where
  | records
  | bytes
  deriving DecidableEq

/-- The value of a gauge. -/
def gauge (w : World L) : Measure → QueueKind → ℕ
  | .records => w.metrics.queueDepth.get
  | .bytes => w.metrics.queueBytes.get

/-- What a record amounts to. -/
def weight : Measure → QueuedLog L → ℕ
  | .records, _ => 1
  | .bytes, log => log.bytes

/-- What a record amounts to under a queue. -/
def weightIn (m : Measure) (q : QueueKind) (log : QueuedLog L) : ℕ :=
  if log.queue = q then weight m log else 0

/-- What some records amount to under a queue. -/
def heldIn (m : Measure) (q : QueueKind) (logs : List (QueuedLog L)) : ℕ :=
  (logs.map (weightIn m q)).sum

/-- The granted claim a submission holds on a gauge. -/
def grantedOf (m : Measure) (q : QueueKind) (p : Producer L) : ℕ :=
  match m, p.pc with
  | .records, .takeTicket _ q' | .records, .push _ q' _ => if q' = q then 1 else 0
  | .bytes, .claimDepth r q' | .bytes, .undoDepth r q' | .bytes, .returnBytes r q'
  | .bytes, .takeTicket r q' | .bytes, .push r q' _ => if q' = q then r.bytes else 0
  | _, _ => 0

/-- The failed claim a submission has not taken back from a gauge. -/
def failedOf (m : Measure) (q : QueueKind) (p : Producer L) : ℕ :=
  match m, p.pc with
  | .records, .undoDepth _ q' => if q' = q then 1 else 0
  | .bytes, .undoBytes r q' => if q' = q then r.bytes else 0
  | _, _ => 0

/-- What a submission holds claimed on a gauge. -/
def claimOf (m : Measure) (q : QueueKind) (p : Producer L) : ℕ := grantedOf m q p + failedOf m q p

/-- What the threads hold claimed on a gauge. -/
def claimed (m : Measure) (q : QueueKind) (threads : List (Producer L)) : ℕ :=
  (threads.map (claimOf m q)).sum

/-- What the threads were granted on a gauge. -/
def grantedIn (m : Measure) (q : QueueKind) (threads : List (Producer L)) : ℕ :=
  (threads.map (grantedOf m q)).sum

/-- What the threads have to take back from a gauge. -/
def failedIn (m : Measure) (q : QueueKind) (threads : List (Producer L)) : ℕ :=
  (threads.map (failedOf m q)).sum

/-- The claim a submission makes with its next access. -/
def asks (p : Producer L) : Option (Measure × QueueKind × ℕ) :=
  match p.pc with
  | .claimBytes r q => some (.bytes, q, r.bytes)
  | .claimDepth _ q => some (.records, q, 1)
  | _ => none

/-- The amount a submission takes back with its next access. -/
def returns (p : Producer L) : Option (Measure × QueueKind × ℕ) :=
  match p.pc with
  | .undoBytes r q | .returnBytes r q => some (.bytes, q, r.bytes)
  | .undoDepth _ q => some (.records, q, 1)
  | _ => none

/-- The amount the worker gives back with its next access. -/
def releases (k : Worker L) : Option (Measure × QueueKind × ℕ) :=
  match k.pc with
  | .pop _ => k.input.popFront.map fun r => (.records, r.1.queue, 1)
  | .release _ log => some (.bytes, log.queue, log.bytes)
  | _ => none

/-- The amount an action subtracts from a gauge. -/
def subtracts (s : State L) : Action L → Option (Measure × QueueKind × ℕ)
  | .producer i => (s.threads[i]?).bind returns
  | .worker _ => releases s.worker
  | _ => none

/-- The capacity a gauge is claimed against. -/
def limit (x : Exporter L) : Measure → QueueKind → ℕ
  | .records, q => capacity x q
  | .bytes, q => byteCapacity x q

/-- What a release in progress has not returned to a gauge: the record has left
the inbox and the depth, its bytes are still counted. -/
def releasing (m : Measure) (q : QueueKind) (pc : WorkerPc L) : ℕ :=
  match m with
  | .records => 0
  | .bytes => heldIn .bytes q (held pc).hand

/-- A gauge's account: granted are the records held, the claims of submissions
on their way to a push, and a release in progress. -/
def account (s : State L) (m : Measure) (q : QueueKind) : Account where
  counter := gauge s.world m q
  granted := heldIn m q (queued s.world s.worker) + grantedIn m q s.threads +
    releasing m q s.worker.pc
  failed := failedIn m q s.threads

/-- What a gauge stands for. -/
def accounted (s : State L) (m : Measure) (q : QueueKind) : ℕ :=
  heldIn m q (queued s.world s.worker) + claimed m q s.threads + releasing m q s.worker.pc

/-- Every gauge stands for what it accounts for, until the gauges are reset. -/
def GaugeLaw (s : State L) : Prop :=
  s.world.history.gaugesReset = false → ∀ m q, gauge s.world m q = accounted s m q % size

/-! ## Small facts -/

theorem heldIn_cons (m : Measure) (q : QueueKind) (log : QueuedLog L) (logs : List (QueuedLog L)) :
    heldIn m q (log :: logs) = weightIn m q log + heldIn m q logs := by
  simp only [heldIn, List.map_cons, List.sum_cons]

/-- Permuted records amount to the same. -/
theorem heldIn_perm {logs logs' : List (QueuedLog L)} (h : logs.Perm logs') (m : Measure)
    (q : QueueKind) : heldIn m q logs = heldIn m q logs' := (h.map _).sum_eq

/-- A thread that claims nothing on any gauge. -/
def Unclaiming (p : Producer L) : Prop := ∀ m q, grantedOf m q p = 0 ∧ failedOf m q p = 0

/-- A thread outside the callback claims nothing. -/
theorem unclaiming_outside {p : Producer L} (h : p.pc.outside = true) : Unclaiming p := by
  intro m q
  unfold grantedOf failedOf
  cases m <;> cases hpc : p.pc <;> rw [hpc] at h <;> first | exact ⟨rfl, rfl⟩ | cases h

/-- A refused submission holds nothing. -/
theorem unclaiming_refuse (q : QueueKind) (r : Submission L) (f : ClaimFailure)
    (lane : Option ℕ) : Unclaiming ⟨refuse r f q, lane⟩ := by
  intro m q'
  cases q with
  | normal =>
    simp only [refuse]
    split <;> cases m <;> exact ⟨rfl, rfl⟩
  | reserved => cases m <;> exact ⟨rfl, rfl⟩

/-- What the threads claim is what they were granted and what failed. -/
theorem claimed_eq (m : Measure) (q : QueueKind) (threads : List (Producer L)) :
    claimed m q threads = grantedIn m q threads + failedIn m q threads := by
  unfold claimed grantedIn failedIn
  induction threads with
  | nil => rfl
  | cons p rest ih =>
    simp only [List.map_cons, List.sum_cons, ih, claimOf]
    omega

/-- An account's totals are what the gauge stands for. -/
theorem account_total (s : State L) (m : Measure) (q : QueueKind) :
    (account s m q).granted + (account s m q).failed = accounted s m q := by
  rw [accounted, claimed_eq]
  simp only [account]
  omega

/-! ## Accesses -/

/-- Writing one gauge leaves the other gauges alone. -/
theorem gauge_setDepth_of_ne {w : World L} {m : Measure} {q q' : QueueKind} {n : ℕ}
    (h : ¬ (m = .records ∧ q = q')) : gauge (setDepth w q' n) m q = gauge w m q := by
  cases m with
  | bytes => rfl
  | records => exact PerQueue.get_set_of_ne _ _ fun he => h ⟨rfl, he⟩

theorem gauge_setBytes_of_ne {w : World L} {m : Measure} {q q' : QueueKind} {n : ℕ}
    (h : ¬ (m = .bytes ∧ q = q')) : gauge (setBytes w q' n) m q = gauge w m q := by
  cases m with
  | records => rfl
  | bytes => exact PerQueue.get_set_of_ne _ _ fun he => h ⟨rfl, he⟩

@[simp] theorem gauge_setDepth (w : World L) (q : QueueKind) (n : ℕ) :
    gauge (setDepth w q n) .records q = n := PerQueue.get_set_self _ _ _

@[simp] theorem gauge_setBytes (w : World L) (q : QueueKind) (n : ℕ) :
    gauge (setBytes w q n) .bytes q = n := PerQueue.get_set_self _ _ _

/-- While its depth is not claimed, a submission claims no more than its bytes. -/
theorem bytes_elsewhere {m : Measure} {q q' : QueueKind} {r : Submission L} {p : Producer L}
    (hpc : p.pc = .claimBytes r q' ∨ p.pc = .claimDepth r q' ∨ p.pc = .undoBytes r q' ∨
      p.pc = .returnBytes r q') (h : ¬ (m = .bytes ∧ q = q')) :
    grantedOf m q p = 0 ∧ failedOf m q p = 0 := by
  cases m with
  | records =>
    rcases hpc with hpc | hpc | hpc | hpc <;> simp only [grantedOf, failedOf, hpc, and_self]
  | bytes =>
    have hq : ¬ q' = q := fun he => h ⟨rfl, he.symm⟩
    rcases hpc with hpc | hpc | hpc | hpc <;>
      simp only [grantedOf, failedOf, hpc, if_neg hq, and_self]

/-- Around the claim of its depth, a submission claims its bytes besides. -/
theorem depth_elsewhere {m : Measure} {q q' : QueueKind} {r : Submission L} {p : Producer L}
    (hpc : p.pc = .claimDepth r q' ∨ p.pc = .takeTicket r q' ∨ p.pc = .undoDepth r q' ∨
      p.pc = .returnBytes r q') (h : ¬ (m = .records ∧ q = q')) :
    grantedOf m q p = grantedOf m q ⟨.claimDepth r q', none⟩ ∧ failedOf m q p = 0 := by
  cases m with
  | bytes =>
    rcases hpc with hpc | hpc | hpc | hpc <;> simp only [grantedOf, failedOf, hpc, and_self]
  | records =>
    have hq : ¬ q' = q := fun he => h ⟨rfl, he.symm⟩
    rcases hpc with hpc | hpc | hpc | hpc <;>
      simp only [grantedOf, failedOf, hpc, if_neg hq, and_self]

/-- An access to one gauge is a step of its account. The others stay as they are
where the thread claims there what it claimed before. -/
theorem access_step {w w' : World L} {p p' : Producer L} {m : Measure} {q : QueueKind} {g f : ℕ}
    (m₀ : Measure) (q₀ : QueueKind)
    (helsewhere : ¬ (m = m₀ ∧ q = q₀) → gauge w' m q = gauge w m q ∧
      grantedOf m q p' = grantedOf m q p ∧ failedOf m q p' = failedOf m q p)
    (hat : AccountStep (limit x m₀ q₀) (fun k => asks p = some (m₀, q₀, k))
      (fun k => returns p = some (m₀, q₀, k))
      ⟨gauge w m₀ q₀, g + grantedOf m₀ q₀ p, f + failedOf m₀ q₀ p⟩
      ⟨gauge w' m₀ q₀, g + grantedOf m₀ q₀ p', f + failedOf m₀ q₀ p'⟩) :
    AccountStep (limit x m q) (fun k => asks p = some (m, q, k))
      (fun k => returns p = some (m, q, k))
      ⟨gauge w m q, g + grantedOf m q p, f + failedOf m q p⟩
      ⟨gauge w' m q, g + grantedOf m q p', f + failedOf m q p'⟩ := by
  by_cases h : m = m₀ ∧ q = q₀
  · obtain ⟨rfl, rfl⟩ := h
    exact hat
  · obtain ⟨hg, hgranted, hfailed⟩ := helsewhere h
    exact .same hg (congrArg (g + ·) hgranted) (congrArg (f + ·) hfailed)

/-- A thread's access to a gauge as a step of the account it shares with others,
who were granted `g` and have to take back `f`; or its push. -/
theorem producer_account {i : ℕ} {w w' : World L} {p p' : Producer L}
    (hm : ProducerMove x i w p w' p') (m : Measure) (q : QueueKind) (g f : ℕ) :
    (laneRecords w'.lanes = laneRecords w.lanes ∧
        AccountStep (limit x m q) (fun k => asks p = some (m, q, k))
          (fun k => returns p = some (m, q, k))
          ⟨gauge w m q, g + grantedOf m q p, f + failedOf m q p⟩
          ⟨gauge w' m q, g + grantedOf m q p', f + failedOf m q p'⟩) ∨
      ∃ log : QueuedLog L, (laneRecords w'.lanes).Perm (log :: laneRecords w.lanes) ∧
        gauge w' m q = gauge w m q ∧ grantedOf m q p = weightIn m q log ∧ failedOf m q p = 0 ∧
        grantedOf m q p' = 0 ∧ failedOf m q p' = 0 := by
  cases hm
  case push r q' ticket j lane hj hl hpc =>
    refine Or.inr ⟨⟨r.log, q', r.bytes, ticket, i⟩, laneRecords_push hl _, ?_, ?_, ?_, ?_⟩
    · cases m <;> rfl
    · cases m <;> simp only [grantedOf, hpc, weightIn, weight]
    · cases m <;> simp only [failedOf, hpc]
    · by_cases he : lane.queues.isEmpty = true
      · simp only [grantedOf, failedOf, if_pos he, and_self]
      · simp only [grantedOf, failedOf, if_neg he, and_self]
  all_goals refine Or.inl ?_
  case register hl hpc =>
    refine ⟨laneRecords_register w, .same ?_ ?_ ?_⟩
    · cases m <;> rfl
    · cases m <;> simp only [grantedOf, hpc]
    · cases m <;> simp only [failedOf, hpc]
  case close j lane hj hl hpc =>
    refine ⟨flatMap_set_eq _ hl rfl, .same ?_ ?_ ?_⟩
    · cases m <;> rfl
    · cases m <;> simp only [grantedOf, hpc]
    · cases m <;> simp only [failedOf, hpc]
  case bytesRefused r q' hc hpc =>
    obtain ⟨hg, hf⟩ := unclaiming_refuse q' r .bytes p.lane m q
    refine ⟨rfl, .same rfl ?_ ?_⟩
    · simp only [hg]
      cases m <;> simp only [grantedOf, hpc]
    · simp only [hf]
      cases m <;> simp only [failedOf, hpc]
  case bytesGranted r q' n hc hpc =>
    refine ⟨rfl, access_step .bytes q' (fun h => ⟨gauge_setBytes_of_ne h, ?_⟩) ?_⟩
    · obtain ⟨hg, hf⟩ := bytes_elsewhere (Or.inl hpc) h
      rw [hg, hf]
      exact bytes_elsewhere (Or.inr (Or.inl rfl)) h
    · refine .grant hc (by simp only [asks, hpc]) (gauge_setBytes _ _ _) ?_ ?_
      · simp only [grantedOf, hpc, if_true, Nat.add_zero]
      · simp only [failedOf, hpc]
  case bytesOvershot r q' n hc hpc =>
    refine ⟨rfl, access_step .bytes q' (fun h => ⟨gauge_setBytes_of_ne h, ?_⟩) ?_⟩
    · obtain ⟨hg, hf⟩ := bytes_elsewhere (Or.inl hpc) h
      rw [hg, hf]
      exact bytes_elsewhere (Or.inr (Or.inr (Or.inl rfl))) h
    · refine .overshoot hc (by simp only [asks, hpc]) (gauge_setBytes _ _ _) ?_ ?_
      · simp only [grantedOf, hpc]
      · simp only [failedOf, hpc, if_true, Nat.add_zero]
  case undoBytes r q' hpc =>
    have hun := unclaiming_refuse q' r .bytes p.lane
    refine ⟨rfl, access_step .bytes q' (fun h => ⟨gauge_setBytes_of_ne h, ?_⟩) ?_⟩
    · obtain ⟨hg, hf⟩ := bytes_elsewhere (Or.inr (Or.inr (Or.inl hpc))) h
      exact ⟨(hun m q).1.trans hg.symm, (hun m q).2.trans hf.symm⟩
    · rw [(hun .bytes q').1, (hun .bytes q').2]
      refine .undo (k := r.bytes) (by simp only [returns, hpc]) (gauge_setBytes _ _ _) ?_ ?_
      · simp only [grantedOf, hpc]
      · simp only [failedOf, hpc, if_true, Nat.add_zero]
  case returnBytes r q' hpc =>
    have hun := unclaiming_refuse q' r .records p.lane
    refine ⟨rfl, access_step .bytes q' (fun h => ⟨gauge_setBytes_of_ne h, ?_⟩) ?_⟩
    · obtain ⟨hg, hf⟩ := bytes_elsewhere (Or.inr (Or.inr (Or.inr hpc))) h
      exact ⟨(hun m q).1.trans hg.symm, (hun m q).2.trans hf.symm⟩
    · rw [(hun .bytes q').1, (hun .bytes q').2]
      refine .giveBack (k := r.bytes) (by simp only [returns, hpc]) (gauge_setBytes _ _ _) ?_ ?_
      · simp only [grantedOf, hpc, if_true, Nat.add_zero]
      · simp only [failedOf, hpc]
  case depthGranted r q' n hc hpc =>
    refine ⟨rfl, access_step .records q' (fun h => ⟨gauge_setDepth_of_ne h, ?_⟩) ?_⟩
    · obtain ⟨hg, hf⟩ := depth_elsewhere (Or.inl hpc) h
      rw [hg, hf]
      exact depth_elsewhere (Or.inr (Or.inl rfl)) h
    · refine .grant hc (by simp only [asks, hpc]) (gauge_setDepth _ _ _) ?_ ?_
      · simp only [grantedOf, hpc, if_true, Nat.add_zero]
      · simp only [failedOf, hpc]
  case depthOvershot r q' n hc hpc =>
    refine ⟨rfl, access_step .records q' (fun h => ⟨gauge_setDepth_of_ne h, ?_⟩) ?_⟩
    · obtain ⟨hg, hf⟩ := depth_elsewhere (Or.inl hpc) h
      rw [hg, hf]
      exact depth_elsewhere (Or.inr (Or.inr (Or.inl rfl))) h
    · refine .overshoot hc (by simp only [asks, hpc]) (gauge_setDepth _ _ _) ?_ ?_
      · simp only [grantedOf, hpc]
      · simp only [failedOf, hpc, if_true, Nat.add_zero]
  case undoDepth r q' hpc =>
    refine ⟨rfl, access_step .records q' (fun h => ⟨gauge_setDepth_of_ne h, ?_⟩) ?_⟩
    · obtain ⟨hg, hf⟩ := depth_elsewhere (Or.inr (Or.inr (Or.inl hpc))) h
      rw [hg, hf]
      exact depth_elsewhere (Or.inr (Or.inr (Or.inr rfl))) h
    · refine .undo (k := 1) (by simp only [returns, hpc]) (gauge_setDepth _ _ _) ?_ ?_
      · simp only [grantedOf, hpc]
      · simp only [failedOf, hpc, if_true, Nat.add_zero]
  case refused failure hpc =>
    cases failure <;> refine ⟨rfl, .same ?_ ?_ ?_⟩ <;> cases m <;>
      first | rfl | simp only [grantedOf, failedOf, hpc]
  all_goals
    rename_i hpc
    refine ⟨rfl, .same ?_ ?_ ?_⟩ <;> cases m <;>
      first | rfl | simp only [grantedOf, failedOf, hpc]

/-- What a worker step does to the gauges and to the record in its hand. -/
inductive ReleaseMove (w : World L) (k : Worker L) (w' : World L) (k' : Worker L) : Prop where
  | keep (hh : (held k'.pc).hand = (held k.pc).hand) (hg : ∀ m q, gauge w' m q = gauge w m q)
      (hp : w'.history.popped = w.history.popped)
      (hc : ∀ retained remaining, k.pc ≠ .ledgerClear retained remaining)
  | pop {site : Site} {log : QueuedLog L} {input : LaneQueues L} (hpc : k.pc = .pop site)
      (hi : k.input.popFront = some (log, input))
      (hw : w' = subDepth { w with history.popped := w.history.popped ++ [log.tag] } log.queue)
      (hk : (held k'.pc).hand = [log])
  | release {site : Site} {log : QueuedLog L} (hpc : k.pc = .release site log)
      (hw : w' = subBytes w log.queue log.bytes) (hk : (held k'.pc).hand = [])
  | reset {retained : List (List MappedLog)} {remaining : ℕ}
      (hpc : k.pc = .ledgerClear retained remaining) (hw : w' = clearQueues w k)
      (hk : k' = { k with pc := .storeStopped (.terminal retained remaining), input := .new })

/-- Every worker step moves the gauges in one of these ways. -/
theorem releaseMove {o : Oracle} {w w' : World L} {k k' : Worker L}
    (hm : WorkerMove x o w k w' k') : ReleaseMove w k w' k' := by
  cases hm
  case pop site log input hi hpc => exact .pop hpc hi rfl rfl
  case release site log hpc =>
    refine .release hpc rfl ?_
    rcases held_received k (mapLog x o.now log) site with ⟨h, -⟩ | ⟨-, h, -⟩ <;> rw [h]
  case ledgerClear retained remaining hpc => exact .reset hpc rfl rfl
  case detach d detached hpc =>
    refine .keep ?_ (fun _ _ => rfl) rfl fun _ _ h => by rw [hpc] at h; cases h
    rw [hpc, held_drainNext]
    rfl
  case popNone site hi hpc =>
    refine .keep ?_ (fun _ _ => rfl) rfl fun _ _ h => by rw [hpc] at h; cases h
    rw [hpc]
    rcases held_receivedNone k.input site with h | h <;> dsimp only <;> rw [h] <;> rfl
  case chooseReceive site hp hs hpc | assembleReceive hl hp hs hpc =>
    refine .keep ?_ (fun _ _ => rfl) rfl fun _ _ h => by rw [hpc] at h; cases h
    rw [hpc]
    dsimp only
    rw [held_tryReceive]
    rfl
  case pollReady wait c cells hr hpc =>
    have hw : (pollCell w o c).2.metrics = w.metrics := by cases c <;> rfl
    have hh : (pollCell w o c).2.history = w.history := by cases c <;> rfl
    refine .keep ?_ (fun m q => ?_) ?_ fun _ _ h => by rw [hpc] at h; cases h
    · rw [hpc]
      rcases held_waitReady k c wait with h | ⟨-, h⟩
      · rw [h]
        rfl
      · rw [h]
        exact (waitHolding_hand wait).symm
    · cases m <;> simp only [gauge, dropWaits, hw]
    · simp only [dropWaits, hh]
  case pollNext wait c cells hr hpc =>
    have hw : (pollCell w o c).2.metrics = w.metrics := by cases c <;> rfl
    have hh : (pollCell w o c).2.history = w.history := by cases c <;> rfl
    refine .keep (by rw [hpc]; rfl) (fun m q => ?_) (by rw [hh]) fun _ _ h => by
      rw [hpc] at h
      cases h
    cases m <;> simp only [gauge, hw]
  case completed resume hpc =>
    refine .keep ?_ (fun _ _ => rfl) rfl fun _ _ h => by rw [hpc] at h; cases h
    rw [hpc]
    dsimp only
    rw [held_resumePc]
    rfl
  all_goals
    rename_i hpc
    refine .keep (by rw [hpc]; rfl) (fun m q => by cases m <;> rfl) rfl fun _ _ h => ?_
    rw [hpc] at h
    cases h

/-- Until it resets them, the worker only gives back to the gauges what it was
granted, with others granted `g` and failed claims of `f`. -/
theorem worker_account {o : Oracle} {w w' : World L} {k k' : Worker L}
    (hm : WorkerMove x o w k w' k')
    (hs : ∀ {j : ℕ} {lane : ProducerLane L}, w.lanes[j]? = some lane → SpareEmpty lane)
    (hr : w'.history.gaugesReset = false) (m : Measure) (q : QueueKind) (g f : ℕ)
    (adds : ℕ → Prop) :
    AccountStep (limit x m q) adds (fun n => releases k = some (m, q, n))
      ⟨gauge w m q, heldIn m q (queued w k) + g + releasing m q k.pc, f⟩
      ⟨gauge w' m q, heldIn m q (queued w' k') + g + releasing m q k'.pc, f⟩ := by
  cases releaseMove hm with
  | reset hpc hw hk =>
    rw [hw] at hr
    cases hr
  | keep hh hg hp hc =>
    rcases worker_queue hm hs with ⟨hq, -, -⟩ | ⟨_, log, _, -, -, -, hp', -⟩ |
      ⟨retained, remaining, _, hpc, -⟩
    · refine .same (hg m q) ?_ rfl
      rw [heldIn_perm hq m q]
      cases m with
      | records => rfl
      | bytes => simp only [releasing, hh]
    · exact absurd (hp.symm.trans hp') (by simp)
    · exact absurd hpc (hc retained remaining)
  | @pop site log input hpc hi hw hk =>
    rcases worker_queue hm hs with ⟨-, hp, -⟩ | ⟨_, log', _, -, hi', hq, -, -⟩ |
      ⟨_, _, _, hpc', -⟩
    · rw [hw] at hp
      exact absurd hp (by simp [subDepth, setDepth])
    · rw [hi] at hi'
      cases hi'
      have hh : (held k.pc).hand = [] := by rw [hpc]; rfl
      rw [heldIn_perm hq m q, heldIn_cons, hw]
      cases m with
      | records =>
        by_cases h : q = log.queue
        · subst h
          refine .giveBack (k := 1) (by simp only [releases, hpc, hi, Option.map_some])
            (gauge_setDepth _ _ _) ?_ rfl
          simp only [releasing, weightIn, weight, if_true]
          omega
        · refine .same ?_ ?_ rfl
          · exact gauge_setDepth_of_ne (m := .records) fun h' => h h'.2
          · simp only [releasing, weightIn, if_neg fun h' => h (Eq.symm h')]
            omega
      | bytes =>
        refine .same rfl ?_ rfl
        simp only [releasing, hk, hh, heldIn, List.map_cons, List.map_nil, List.sum_cons,
          List.sum_nil]
        omega
    · rw [hpc] at hpc'
      cases hpc'
  | @release site log hpc hw hk =>
    rcases worker_queue hm hs with ⟨hq, -, -⟩ | ⟨_, _, _, hpc', -⟩ | ⟨_, _, _, hpc', -⟩
    · have hh : (held k.pc).hand = [log] := by rw [hpc]; rfl
      rw [heldIn_perm hq m q, hw]
      cases m with
      | records => exact .same rfl rfl rfl
      | bytes =>
        by_cases h : q = log.queue
        · subst h
          refine .giveBack (k := log.bytes) (by simp only [releases, hpc])
            (gauge_setBytes _ _ _) ?_ rfl
          simp only [releasing, hk, hh, heldIn, weightIn, weight, List.map_cons, List.map_nil,
            List.sum_cons, List.sum_nil, if_true]
          omega
        · refine .same ?_ ?_ rfl
          · exact gauge_setBytes_of_ne (m := .bytes) fun h' => h h'.2
          · simp only [releasing, hk, hh, heldIn, weightIn, List.map_cons, List.map_nil,
              List.sum_cons, List.sum_nil, if_neg (Ne.symm h), Nat.add_zero]
    · rw [hpc] at hpc'
      cases hpc'
    · rw [hpc] at hpc'
      cases hpc'

/-- A reset is not undone. -/
theorem gaugesReset_of_move (hm : Move x s a s') (h : s'.world.history.gaugesReset = false) :
    s.world.history.gaugesReset = false := by
  cases hm with
  | producer hi hm =>
    dsimp only at h
    rwa [(producer_frame hm).history] at h
  | worker ha hm =>
    cases hm
    case ledgerClear => cases h
    case pollReady wait c cells hr hpc => cases c <;> exact h
    case pollNext wait c cells hr hpc => cases c <;> exact h
    all_goals exact h
  | flush hj hm =>
    rw [(flush_world hm).1] at h
    exact h
  | @control op rest hp hr =>
    cases op
    case storeShuttingDown =>
      dsimp only [controlStep] at h
      split at h <;> exact h
    case resetDepth | resetBytes | resetInflight => cases h
    all_goals exact h
  | _ => exact h

/-- Gauges not reset at the end of a run were not reset at its start. -/
theorem gaugesReset_of_run {ok : State L → Action L → Prop} (h : ReachWhile (step x) ok s s') :
    s'.world.history.gaugesReset = false → s.world.history.gaugesReset = false :=
  h.invariant (I := fun t => t.world.history.gaugesReset = false →
    s.world.history.gaugesReset = false) id
    fun _ _ _ hi _ hs hr => hi (gaugesReset_of_move (stepMove hs) hr)

/-- A command's operation that resets no gauge writes none. -/
theorem control_gauge (w : World L) (c : Control) (op : ControlOp)
    (h : (controlStep w c op).1.history.gaugesReset = false) (m : Measure) (q : QueueKind) :
    gauge (controlStep w c op).1 m q = gauge w m q := by
  cases op
  case storeShuttingDown =>
    simp only [controlStep]
    split <;> cases m <;> rfl
  case resetDepth | resetBytes | resetInflight => cases h
  all_goals cases m <;> rfl

/-- Replacing a thread that claims nothing by another one changes no total. -/
theorem totals_set {threads : List (Producer L)} {i : ℕ} {p p' : Producer L}
    (hi : threads[i]? = some p) (hp : Unclaiming p) (hp' : Unclaiming p') (m : Measure)
    (q : QueueKind) : grantedIn m q (threads.set i p') = grantedIn m q threads ∧
      failedIn m q (threads.set i p') = failedIn m q threads := by
  obtain ⟨g, hg, hgset⟩ := sum_map_split (grantedOf m q) hi
  obtain ⟨f, hf, hfset⟩ := sum_map_split (failedOf m q) hi
  unfold grantedIn failedIn
  rw [hgset, hfset, hg, hf, (hp m q).1, (hp m q).2, (hp' m q).1, (hp' m q).2]
  exact ⟨rfl, rfl⟩

/-- What an added amount without room meets: a thread asks for it. -/
def Asked (s : State L) (a : Action L) (m : Measure) (q : QueueKind) (k : ℕ) : Prop :=
  ∃ i p, a = .producer i ∧ s.threads[i]? = some p ∧ asks p = some (m, q, k)

/-- Until the gauges are reset, every step is a step of every gauge's account. -/
theorem account_step (ho : LanesOwned s) (hm : Move x s a s')
    (hr : s'.world.history.gaugesReset = false) (m : Measure) (q : QueueKind) :
    AccountStep (limit x m q) (Asked s a m q) (fun k => subtracts s a = some (m, q, k))
      (account s m q) (account s' m q) := by
  cases hm with
  | spawn =>
    refine .same rfl ?_ ?_
    · simp only [account, grantedIn, List.map_append, List.map_cons, List.map_nil, List.sum_append]
      cases m <;> rfl
    · simp only [account, failedIn, List.map_append, List.map_cons, List.map_nil, List.sum_append]
      cases m <;> rfl
  | @enter i log p hi hpc hret =>
    have hp : Unclaiming p := unclaiming_outside (by rw [hpc]; rfl)
    have hp' : Unclaiming (⟨.entered log, p.lane⟩ : Producer L) := fun m q => by
      cases m <;> exact ⟨rfl, rfl⟩
    obtain ⟨hg, hf⟩ := totals_set hi hp hp' m q
    exact .same rfl (by simp only [account, hg]) (by simp only [account, hf])
  | @exit i p hi hpc =>
    have hp : Unclaiming p := unclaiming_outside (by rw [hpc]; rfl)
    have hp' : Unclaiming (⟨if p.lane.isSome then .closing else .gone, p.lane⟩ : Producer L) :=
      unclaiming_outside (by dsimp only; split <;> rfl)
    obtain ⟨hg, hf⟩ := totals_set hi hp hp' m q
    exact .same rfl (by simp only [account, hg]) (by simp only [account, hf])
  | @producer i p p' w' hi hm =>
    obtain ⟨g, hg, hgset⟩ := sum_map_split (grantedOf m q) hi
    obtain ⟨f, hf, hfset⟩ := sum_map_split (failedOf m q) hi
    rcases producer_account hm m q
      (heldIn m q (queued s.world s.worker) + releasing m q s.worker.pc + g) f with
      ⟨hl, ha⟩ | ⟨log, hl, hgauge, hpg, hpf, hpg', hpf'⟩
    · have hq : queued w' s.worker = queued s.world s.worker := by
        unfold queued
        rw [hl]
      have h1 : account s m q = ⟨gauge s.world m q, heldIn m q (queued s.world s.worker) +
          releasing m q s.worker.pc + g + grantedOf m q p, f + failedOf m q p⟩ := by
        simp only [account, grantedIn, failedIn, hg, hf, Account.mk.injEq, true_and, and_true]
        omega
      have h2 : account { s with world := w', threads := s.threads.set i p' } m q =
          ⟨gauge w' m q, heldIn m q (queued s.world s.worker) + releasing m q s.worker.pc + g +
            grantedOf m q p', f + failedOf m q p'⟩ := by
        simp only [account, grantedIn, failedIn, hgset, hfset, hq, Account.mk.injEq, true_and,
          and_true]
        omega
      rw [h1, h2]
      exact ha.mono (fun k hk => ⟨i, p, rfl, hi, hk⟩) fun k hk => by
        simp only [subtracts, hi, Option.bind_some, hk]
    · have hp : (queued w' s.worker).Perm (log :: queued s.world s.worker) := hl.append_right _
      refine .same hgauge ?_ ?_
      · simp only [account, grantedIn, hg, hgset, hpg, hpg', heldIn_perm hp m q, heldIn_cons]
        omega
      · simp only [account, failedIn, hf, hfset, hpf, hpf']
  | worker ha hm =>
    exact worker_account hm ho.spare hr m q (grantedIn m q s.threads) (failedIn m q s.threads) _
  | flush hj hm =>
    rw [(flush_world hm).1]
    exact .same (by cases m <;> rfl) rfl rfl
  | @control op rest hp hr' =>
    have hf := controlStep_frame s.world s.control op
    refine .same (control_gauge s.world s.control op hr m q) ?_ rfl
    simp only [account, queued, hf.lanes]
  | _ => exact .same (by cases m <;> rfl) rfl rfl

/-- Every gauge follows its account until the gauges are reset. -/
theorem gaugeLaw {ok : State L → Action L → Prop}
    (h : ReachWhile (step x) ok (State.init L) s) : GaugeLaw s := by
  have hfollows : s.world.history.gaugesReset = false → ∀ m q, (account s m q).Follows :=
    invariant_of_moves_using (I := fun s => s.world.history.gaugesReset = false →
        ∀ m q, (account s m q).Follows) (fun _ => lanesOwned)
      (fun _ m q => by cases m <;> cases q <;> rfl)
      (fun _ _ _ ho _ hi _ hm hr m q =>
        (account_step ho hm hr m q).follows (hi (gaugesReset_of_move hm hr) m q)) h
  intro hr m q
  rw [← account_total]
  exact hfollows hr m q

/-! ## Runs in which no gauge wraps -/

/-- No optimistic addition of the step wraps its gauge. -/
def NoWrap (x : Exporter L) (s : State L) (a : Action L) : Prop :=
  ∀ m q k, Asked s a m q k → Fitting (limit x m q) (gauge s.world m q) k

/-- Capacities are words. -/
theorem limit_le (x : Exporter L) (m : Measure) (q : QueueKind) : limit x m q ≤ wordMax := by
  cases m <;> cases q <;> exact Nat.min_le_right _ _

/-- Without wrapping, a gauge is exact and its capacity bounds what is granted,
until the gauges are reset. -/
theorem account_sound {ok : State L → Action L → Prop} (hok : ∀ s a, ok s a → NoWrap x s a)
    (h : ReachWhile (step x) ok (State.init L) s) (hr : s.world.history.gaugesReset = false)
    (m : Measure) (q : QueueKind) : (account s m q).Sound (limit x m q) :=
  invariant_of_moves_using (I := fun s => s.world.history.gaugesReset = false →
      ∀ m q, (account s m q).Sound (limit x m q)) (fun _ => lanesOwned)
    (fun _ m q => by cases m <;> cases q <;> exact ⟨rfl, Nat.zero_le _, Nat.zero_le _⟩)
    (fun _ _ _ ho _ hi ha hm hr m q =>
      ((account_step ho hm hr m q).mono (fun k hk => hok _ _ ha m q k hk) fun _ => id).sound
        (limit_le x m q) (hi (gaugesReset_of_move hm hr) m q)) h hr m q

/-- Without wrapping, no queue holds more than its capacities. -/
theorem held_le_limit {ok : State L → Action L → Prop} (hok : ∀ s a, ok s a → NoWrap x s a)
    (h : ReachWhile (step x) ok (State.init L) s) (hr : s.world.history.gaugesReset = false)
    (m : Measure) (q : QueueKind) :
    heldIn m q (queued s.world s.worker) + grantedIn m q s.threads ≤ limit x m q := by
  have hb := (account_sound hok h hr m q).bounded
  simp only [account] at hb
  omega

end EdenLogger.QueueAccounting
