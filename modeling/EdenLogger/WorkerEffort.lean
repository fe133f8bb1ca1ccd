import EdenLogger.RunCosts
import EdenLogger.BatchExport
import EdenLogger.BatchLimits
import EdenLogger.ProducerWakeUps

/-!
# What makes the worker work

Every step of the worker is paid for. Queued and carried-over records pay for
their way through a batch, a notification pays for the look it causes, and
where the worker stands pays for the way to its next wait. Pushes,
notifications, retries and polls nobody asked for add to what is paid, so
between them the worker takes a bounded number of steps.
-/

namespace EdenLogger.WorkerEffort

open MachineWord WakeUpPermit ExporterConfig ExporterLanes LogCollector GenerationState
open GenerationStep GenerationMoves GenerationFrames LaneTable LaneOwnership RecordFlow
open ReceiveSites ProducerWakeUps BatchLimits RunRules RunCosts
open BatchExport (stepCost stepCost_cons stepCost_nil stepCost_split asksRetry)

variable {L : Type} {x : Exporter L} {s s' : State L} {a : Action L} {n lanes : ℕ}

/-! ## The measure -/

/-- Steps of one drain of so many lanes. -/
def drainEffort (lanes : ℕ) : ℕ := lanes + 2

/-- Steps from a batch boundary to a wait or to the exit, if no record is found.
A drain takes `n` steps. -/
def boundaryEffort (n : ℕ) : ℕ := 3 * n + 8

/-- What a carried-over record pays for. -/
def carriedEffort (n : ℕ) : ℕ := 2 * n + 22

/-- What a queued record pays for. -/
def queuedEffort (n : ℕ) : ℕ := 5 * n + 31

/-- Steps to export some parts and to return to the boundary. -/
def partsEffort (n : ℕ) (stack : List (List MappedLog)) : ℕ :=
  stepCost stack + 5 + boundaryEffort n

/-- Steps to export a batch. -/
def batchEffort (n : ℕ) (batch : List MappedLog) : ℕ := partsEffort n [batch] + 1

/-- Steps from the head of the assembly loop, if no record is found. -/
def assembleEffort (n : ℕ) (a : Assembly) : ℕ := batchEffort n a.batch + n + 7

/-- Steps from a pop that finds no record. -/
def siteEffort (n : ℕ) : Site → ℕ
  | .firstDraining => n + 7
  | .receive => 4
  | .exitCheck => 6
  | .nextDraining a | .nextWoken a => batchEffort n a.batch + 1
  | .nextPolled a => batchEffort n a.batch + 6

/-- Steps behind a drain. -/
def followEffort (n : ℕ) : Drain → ℕ
  | .boundary => 2 * n + 8
  | .receiving site => siteEffort n site

/-- Steps behind the completion of tickets. -/
def resumeEffort (n : ℕ) : Resume → ℕ
  | .loopTop => boundaryEffort n
  | .assemble a => assembleEffort n a
  | .nextPart stack => partsEffort n stack

/-- Steps behind a wait that no notification ends. -/
def waitEffort (n : ℕ) : Wait → ℕ
  | .assembly a => batchEffort n a.batch
  | .receive | .producersClosed | .terminalShutdown _ | .terminalRecords _ => 0

/-- Steps from where the worker stands. A wait that missed a notification is
going to poll once more. -/
def pcEffort (n : ℕ) (heard : Cell → Bool) : WorkerPc L → ℕ
  | .drain d => n + followEffort n d
  | .take d todo _ => todo.length + 1 + followEffort n d
  | .pop site => siteEffort n site
  | .release site _ => siteEffort n site + (queuedEffort n - 1)
  | .chooseFirst => 2 * n + 8
  | .first _ => 4 * n + 29
  | .assemble a => assembleEffort n a
  | .offer a _ => assembleEffort n a + (carriedEffort n - 1)
  | .poll wait cells =>
    waitEffort n wait + 1 + cells.length +
      if wait.cells.any heard && !cells.any heard then 7 else 0
  | .parked wait => waitEffort n wait + if wait.cells.any heard then 7 else 0
  | .loadClosed => 5
  | .startExport batch => batchEffort n batch
  | .nextPart stack => partsEffort n stack
  | .attempt e => partsEffort n (e.records :: e.stack) - 1
  | .awaitReply e => partsEffort n (e.records :: e.stack) - 2
  | .retrySleep e => partsEffort n (e.records :: e.stack) + 1
  | .retried e _ => partsEffort n (e.records :: e.stack)
  | .countRejected e _ => 2 * e.records.length + 2 + partsEffort n e.stack
  | .completing resume settled => 2 * settled.length + 1 + resumeEffort n resume
  | .notifyProgress resume settled => 2 * settled.length + 2 + resumeEffort n resume
  | .batchDone => boundaryEffort n + 2
  | .batchStatus => boundaryEffort n + 1
  | .terminalInflight _ => 10
  | .terminalAccepting _ => 9
  | .terminalClosed _ => 8
  | .ledgerNormal _ => 7
  | .ledgerReserved _ _ => 6
  | .ledgerAdd _ _ => 5
  | .ledgerClear _ _ => 4
  | .storeStopped _ => 3
  | .notifyStopped _ => 2
  | .reporting _ => 1
  | .finished _ _ => 0

/-- The notifications the worker has not seen. -/
def notices (w : World L) : ℕ := w.shutdown.count + w.flush.count + w.records.count

/-- What is paid besides the queued records. -/
def localEffort (n : ℕ) (w : World L) (k : Worker L) : ℕ :=
  carriedEffort n * k.pending.length + boundaryEffort n * notices w + pcEffort n (pendingAt w) k.pc

/-- What is paid in a state with at most so many registered lanes. -/
def effort (lanes : ℕ) (w : World L) (k : Worker L) : ℕ :=
  queuedEffort (drainEffort lanes) * (queued w k).length + localEffort (drainEffort lanes) w k

/-! ## Places -/

section places

variable {f : Cell → Bool}

theorem pcEffort_tryReceive (input : LaneQueues L) (site : Site) :
    pcEffort n f (tryReceive input site) ≤ n + siteEffort n site := by
  rcases tryReceive_cases input site with h | h <;> rw [h] <;> simp only [pcEffort, followEffort]
  · exact Nat.le_refl _
  · exact Nat.le_add_left _ _

/-- A wait that begins has missed no notification. -/
theorem pcEffort_startWait (wait : Wait) :
    pcEffort n f (startWait wait : WorkerPc L) =
      waitEffort n wait + 1 + wait.cells.length := by
  simp [startWait, pcEffort]

theorem pcEffort_drainNext (d : Drain) :
    pcEffort n f (drainNext d : WorkerPc L) = followEffort n d := by
  cases d <;> rfl

theorem pcEffort_resumePc (resume : Resume) :
    pcEffort n f (resumePc resume : WorkerPc L) ≤ resumeEffort n resume := by
  cases resume with
  | loopTop => simp only [resumePc, pcEffort, resumeEffort, followEffort, boundaryEffort]; omega
  | _ => exact Nat.le_refl _

theorem pcEffort_receivedNone (input : LaneQueues L) (site : Site) :
    pcEffort n f (receivedNone input site) + 1 ≤ siteEffort n site := by
  cases site with
  | firstDraining =>
    have := pcEffort_tryReceive (n := n) (f := f) input .exitCheck
    simp only [receivedNone, siteEffort] at this ⊢
    omega
  | receive | nextPolled =>
    simp only [receivedNone, pcEffort_startWait, waitEffort, Wait.cells, List.length_cons,
      List.length_nil, siteEffort]
    omega
  | _ => exact Nat.le_refl _

/-- A received record pays for its way from here. -/
theorem pcEffort_received (k : Worker L) (r : MappedLog) (site : Site) :
    carriedEffort n * (received k r site).pending.length +
        pcEffort n f (received k r site).pc + 1 ≤
      carriedEffort n * k.pending.length + (siteEffort n site + (queuedEffort n - 1)) := by
  cases site with
  | exitCheck =>
    simp only [received, List.length_append, List.length_singleton, Nat.mul_succ, pcEffort,
      followEffort, siteEffort, carriedEffort, queuedEffort]
    omega
  | _ =>
    simp only [received, pcEffort, siteEffort, assembleEffort, carriedEffort, queuedEffort]
    omega

/-- A wait that ends without a notification has reached its deadline. -/
theorem assembly_of_deadline {wait : Wait} (h : .deadline ∈ wait.cells) :
    ∃ a, wait = .assembly a := by
  cases wait with
  | assembly a => exact ⟨a, rfl⟩
  | _ => simp [Wait.cells] at h

/-- The end of a wait is paid for by the notification that ended it. -/
theorem pcEffort_waitReady (hn : 2 ≤ n) (k : Worker L) {c : Cell} {wait : Wait}
    (hc : c ∈ wait.cells) :
    pcEffort n f (waitReady k c wait).pc + 1 ≤
      waitEffort n wait + 2 + if c = .deadline then 0 else boundaryEffort n := by
  have htry := fun site => pcEffort_tryReceive (n := n) (f := f) k.input site
  by_cases hd : c = .deadline
  · subst hd
    obtain ⟨a, rfl⟩ := assembly_of_deadline hc
    simp only [waitReady, pcEffort, waitEffort]
    omega
  · rw [if_neg hd]
    cases wait with
    | receive =>
      have h1 := htry .exitCheck
      have h2 := htry .receive
      simp only [siteEffort] at h1 h2
      cases c <;> simp only [waitReady, waitEffort, boundaryEffort] <;> omega
    | assembly a =>
      have h1 := htry (.nextWoken a)
      simp only [siteEffort] at h1
      cases c with
      | records => simp only [waitReady, waitEffort, boundaryEffort]; omega
      | _ => simp only [waitReady, pcEffort, waitEffort, boundaryEffort]; omega
    | _ => simp only [waitReady, pcEffort, followEffort, waitEffort, boundaryEffort]; omega

end places

/-! ## Notifications -/

/-- A poll takes a notification if it is ready, and none is added. -/
theorem notices_pollCell (w : World L) (o : Oracle) (c : Cell) :
    notices (pollCell w o c).2 ≤ notices w ∧
      ((pollCell w o c).1 = true → c ≠ .deadline →
        notices (dropWaits (pollCell w o c).2) + 1 ≤ notices w) := by
  have hpoll := fun m : Notify => m.count_poll
  have hready := fun (m : Notify) (h : m.poll.1 = true) => Notify.count_poll_of_ready h
  have hdrop := fun m : Notify => m.count_drop
  cases c with
  | deadline => exact ⟨Nat.le_refl _, fun _ hne => absurd rfl hne⟩
  | shutdown =>
    refine ⟨?_, fun hr _ => ?_⟩ <;> simp only [notices, pollCell, dropWaits]
    · have := hpoll w.shutdown
      omega
    · have h1 := hready w.shutdown hr
      have h2 := hdrop w.shutdown.poll.2
      have h3 := hdrop w.flush
      have h4 := hdrop w.records
      omega
  | flush =>
    refine ⟨?_, fun hr _ => ?_⟩ <;> simp only [notices, pollCell, dropWaits]
    · have := hpoll w.flush
      omega
    · have h1 := hready w.flush hr
      have h2 := hdrop w.flush.poll.2
      have h3 := hdrop w.shutdown
      have h4 := hdrop w.records
      omega
  | records =>
    refine ⟨?_, fun hr _ => ?_⟩ <;> simp only [notices, pollCell, dropWaits]
    · have := hpoll w.records
      omega
    · have h1 := hready w.records hr
      have h2 := hdrop w.records.poll.2
      have h3 := hdrop w.shutdown
      have h4 := hdrop w.flush
      omega

/-- Dropping the worker's registrations adds no notification. -/
theorem notices_dropWaits (w : World L) : notices (dropWaits w) ≤ notices w := by
  have h1 := w.shutdown.count_drop
  have h2 := w.flush.count_drop
  have h3 := w.records.count_drop
  simp only [notices, dropWaits]
  omega

/-- A worker that is not polling leaves the notifications alone. -/
theorem cells_of_move {o : Oracle} {w w' : World L} {k k' : Worker L}
    (hm : WorkerMove x o w k w' k') (hpc : ∀ wait c cells, k.pc ≠ .poll wait (c :: cells)) :
    w'.shutdown = w.shutdown ∧ w'.flush = w.flush ∧ w'.records = w.records := by
  cases hm
  case pollReady hr hpc' | pollNext hr hpc' => exact absurd hpc' (hpc _ _ _)
  all_goals exact ⟨rfl, rfl, rfl⟩

/-! ## One step -/

/-- A poll of a wait with nothing to hear. -/
def unprompted (w : World L) (k : Worker L) : Bool :=
  match k.pc with
  | .parked wait => !wait.cells.any (pendingAt w)
  | _ => false

/-- What a worker step is credited besides what is paid already. -/
def workerCredit (w : World L) (k : Worker L) (o : Oracle) : ℕ :=
  (if asksRetry k o then 4 else 0) + if unprompted w k then 6 else 0

/-- A drain swaps out registered lanes, each once. -/
theorem drainOrder_length (w : World L) (o : Oracle) :
    (drainOrder w o).length ≤ w.registry.lanes.length := by
  unfold drainOrder LaneRegistry.snapshot
  dsimp only
  split
  · exact Nat.zero_le _
  · rw [List.length_rotate]
    exact List.length_filter_le _ _

/-- A step of a poll. -/
theorem localEffort_poll (hn : 2 ≤ n) {o : Oracle} {w : World L} {k : Worker L} {wait : Wait}
    {c : Cell} {cells : List Cell} (hpc : k.pc = .poll wait (c :: cells)) (hc : c ∈ wait.cells) :
    ((pollCell w o c).1 = true →
        localEffort n (dropWaits (pollCell w o c).2) (waitReady k c wait) + 1 ≤
          localEffort n w k) ∧
      ((pollCell w o c).1 = false →
        localEffort n (pollCell w o c).2 { k with pc := .poll wait cells } + 1 ≤
          localEffort n w k) := by
  obtain ⟨hkeep, htake⟩ := notices_pollCell w o c
  refine ⟨fun hr => ?_, fun hr => ?_⟩
  · have hwait := pcEffort_waitReady (f := pendingAt (dropWaits (pollCell w o c).2)) hn k hc
    have hplace : waitEffort n wait + 2 ≤ pcEffort n (pendingAt w) k.pc := by
      rw [hpc]
      simp only [pcEffort, List.length_cons]
      omega
    unfold localEffort
    rw [waitReady_pending]
    by_cases hd : c = .deadline
    · have hdrop := notices_dropWaits (pollCell w o c).2
      have hmul := Nat.mul_le_mul_left (boundaryEffort n) (hdrop.trans hkeep)
      rw [if_pos hd] at hwait
      omega
    · have hmul := Nat.mul_le_mul_left (boundaryEffort n) (htake hr hd)
      rw [Nat.mul_succ] at hmul
      rw [if_neg hd] at hwait
      omega
  · have hsame : pendingAt (pollCell w o c).2 = pendingAt w := funext (pendingAt_pollCell hr)
    have hquiet : pendingAt w c = false := by
      cases c with
      | deadline => rfl
      | _ => exact (Notify.poll_fst _).symm.trans hr
    have hmul := Nat.mul_le_mul_left (boundaryEffort n) hkeep
    unfold localEffort
    rw [hpc, hsame]
    simp only [pcEffort, List.any_cons, hquiet, Bool.false_or, List.length_cons]
    omega

/-- Notifications the worker does not touch pay for the same steps. -/
theorem localEffort_eq {w w' : World L} (h : w'.shutdown = w.shutdown ∧ w'.flush = w.flush ∧
    w'.records = w.records) (k : Worker L) : localEffort n w' k = localEffort n w k := by
  obtain ⟨h1, h2, h3⟩ := h
  have hsame : pendingAt w' = pendingAt w := by
    funext c
    cases c <;> simp only [pendingAt, h1, h2, h3]
  simp only [localEffort, notices, h1, h2, h3, hsame]

/-- A part within the limits pays for its request. -/
theorem partsEffort_settled {e : Attempt} (h : ∀ records ∈ e.records :: e.stack,
    WithinLimits x records) :
    2 * e.records.length + 5 + partsEffort n e.stack ≤ partsEffort n (e.records :: e.stack) := by
  have hne := (h e.records List.mem_cons_self).nonempty
  simp only [partsEffort, stepCost_cons]
  omega

/-- A refused part pays for its halves. -/
theorem partsEffort_split {e : Attempt} (h : ∀ records ∈ e.records :: e.stack,
    WithinLimits x records) (hl : e.records.length ≠ 1) :
    partsEffort n (splitRecords e.records ++ e.stack) + 3 =
      partsEffort n (e.records :: e.stack) := by
  have hne := (h e.records List.mem_cons_self).nonempty
  have hcost := stepCost_split (List.length_pos_iff.mp hne) hl e.stack
  simp only [partsEffort]
  omega

/-- One more record in a batch. -/
theorem batchEffort_add (n : ℕ) (a : Assembly) (r : MappedLog) :
    batchEffort n (addRecord a r).batch ≤ batchEffort n a.batch + 10 := by
  simp only [batchEffort, partsEffort, stepCost_cons, stepCost_nil, addRecord,
    List.length_append, List.length_singleton]
  omega

/-- A step that leaves the notifications alone pays for itself. -/
theorem localEffort_quiet {o : Oracle} {w w' : World L} {k k' : Worker L}
    (hlimits : pcLimits x k.pc) (hlanes : w.registry.lanes.length + 2 ≤ n)
    (hm : WorkerMove x o w k w' k') (hpc : ∀ wait c cells, k.pc ≠ .poll wait (c :: cells))
    (hpop : ∀ site log input, k.pc = .pop site → k.input.popFront ≠ some (log, input)) :
    localEffort n w k' + 1 ≤ localEffort n w k + workerCredit w k o := by
  unfold localEffort workerCredit
  cases hm
  case pollReady hr hpc' | pollNext hr hpc' => exact absurd hpc' (hpc _ _ _)
  case pop hi hpc' => exact absurd hi (hpop _ _ _ hpc')
  case drain d hpc =>
    have hlen := drainOrder_length w o
    simp only [hpc, pcEffort]
    omega
  case detach d detached hpc =>
    have hhere : pcEffort n (pendingAt w) k.pc = 1 + followEffort n d := by
      rw [hpc]
      simp only [pcEffort, List.length_nil, Nat.zero_add]
    have hnext := pcEffort_drainNext (L := L) (n := n) (f := pendingAt w) d
    refine Nat.le_add_right_of_le ?_
    dsimp only
    rw [hhere, show pcEffort n (pendingAt _) (drainNext d) = _ from hnext]
    omega
  case popNone site hi hpc =>
    have hhere : pcEffort n (pendingAt w) k.pc = siteEffort n site := by rw [hpc]; rfl
    have hnext := pcEffort_receivedNone (n := n) (f := pendingAt w) k.input site
    dsimp only
    omega
  case release site log hpc =>
    have hhere : pcEffort n (pendingAt w) k.pc = siteEffort n site + (queuedEffort n - 1) := by
      rw [hpc]
      rfl
    have hnext := pcEffort_received (n := n) (f := pendingAt w) k (mapLog x o.now log) site
    omega
  case chooseReceive site hp hs hpc =>
    have hnext := pcEffort_tryReceive (n := n) (f := pendingAt w) k.input site
    have hsite : siteEffort n site ≤ n + 7 := by
      rw [hs]
      split <;> simp only [siteEffort] <;> omega
    have hhere : pcEffort n (pendingAt w) k.pc = 2 * n + 8 := by rw [hpc]; rfl
    dsimp only
    omega
  case assembleReceive a site hl hp hs hpc =>
    have hnext := pcEffort_tryReceive (n := n) (f := pendingAt w) k.input site
    have hsite : siteEffort n site ≤ batchEffort n a.batch + 6 := by
      rw [hs]
      split <;> simp only [siteEffort] <;> omega
    have hhere : pcEffort n (pendingAt w) k.pc = batchEffort n a.batch + n + 7 := by rw [hpc]; rfl
    dsimp only
    omega
  case chooseCarried r pending hp hpc =>
    simp only [hpc, hp, pcEffort, List.length_cons, Nat.mul_succ, carriedEffort]
    omega
  case assembleCarried a r pending hl hp hpc =>
    simp only [hpc, hp, pcEffort, List.length_cons, Nat.mul_succ, carriedEffort]
    omega
  case first r ho hpc =>
    simp only [hpc, pcEffort, assembleEffort, batchEffort, partsEffort, boundaryEffort,
      stepCost_cons, stepCost_nil, List.length_singleton]
    omega
  case offerFits a r ho hf hpc =>
    have hadd := batchEffort_add n a r
    simp only [hpc, pcEffort, assembleEffort, carriedEffort] at hadd ⊢
    omega
  case offerCarry a r ho hf hpc =>
    simp only [hpc, pcEffort, assembleEffort, List.length_cons, Nat.mul_succ, carriedEffort]
    omega
  case wake wait hpc =>
    have hcells : wait.cells.length ≤ 4 := by cases wait <;> simp [Wait.cells]
    cases hany : wait.cells.any (pendingAt w) <;>
      simp only [hpc, pcEffort, unprompted, asksRetry, hany, Bool.not_true, Bool.not_false,
        Bool.and_false, Bool.false_and, Bool.false_eq_true, if_false, if_true] <;> omega
  case suspend wait hpc =>
    simp only [hpc, pcEffort, List.any_nil, Bool.not_false, Bool.and_true, List.length_nil]
    omega
  case closedWait hc hpc | terminalWait hc hpc | terminalUnclosed hc hpc =>
    rw [hpc, pcEffort_startWait]
    simp only [pcEffort, waitEffort, Wait.cells, List.length_cons, List.length_nil]
    omega
  case acknowledged e accepted hr hpc | partialSuccess e accepted rejected hr hn hpc |
      rejectedAlone e hr hl hpc =>
    rw [hpc] at hlimits
    have hpaid := partsEffort_settled (n := n) hlimits
    simp only [hpc, pcEffort, resumeEffort]
    omega
  case split e hr hl hpc =>
    rw [hpc] at hlimits
    have hpaid := partsEffort_split (n := n) hlimits hl
    simp only [hpc, pcEffort]
    omega
  case backOff e hr hpc =>
    simp only [hpc, pcEffort, asksRetry, hr, decide_true, if_true]
    have hmin : 5 ≤ partsEffort n (e.records :: e.stack) := by
      simp only [partsEffort]
      omega
    simp only [partsEffort] at hmin ⊢
    omega
  case fatal e hr hpc =>
    simp only [hpc, pcEffort, partsEffort, boundaryEffort]
    rw [hpc] at hlimits
    have hne := (hlimits e.records List.mem_cons_self).nonempty
    rw [stepCost_cons]
    omega
  case completed resume hpc =>
    have hnext := pcEffort_resumePc (n := n) (f := pendingAt w) resume (L := L)
    have hhere : pcEffort n (pendingAt w) k.pc = 1 + resumeEffort n resume := by
      rw [hpc]
      simp only [pcEffort, List.length_nil, Nat.mul_zero, Nat.zero_add]
    dsimp only
    omega
  all_goals
    rename_i hpc
    simp only [hpc, pcEffort, followEffort, resumeEffort, assembleEffort, batchEffort, partsEffort,
      boundaryEffort, carriedEffort, List.length_cons, List.length_nil, stepCost_nil]
    omega

/-- A popped record pays for its mapping. -/
theorem localEffort_pop (n : ℕ) (w : World L) {k : Worker L} {site : Site} (log : QueuedLog L)
    (input : LaneQueues L) (hpc : k.pc = .pop site) :
    localEffort n w { k with pc := .release site log, input := input } + 1 =
      localEffort n w k + queuedEffort n := by
  simp only [localEffort, hpc, pcEffort, queuedEffort]
  omega

/-- Every worker step is paid for. -/
theorem effort_worker {o : Oracle} {w w' : World L} {k k' : Worker L}
    (hlimits : pcLimits x k.pc) (hpoll : PollLaw k)
    (hspare : ∀ {j : ℕ} {lane : ProducerLane L}, w.lanes[j]? = some lane → SpareEmpty lane)
    (hlanes : w.registry.lanes.length ≤ lanes) (hm : WorkerMove x o w k w' k') :
    effort lanes w' k' + 1 ≤ effort lanes w k + workerCredit w k o := by
  have hqueue := worker_queue hm hspare
  have hkept : (∀ site log input, k.pc = .pop site → k.input.popFront ≠ some (log, input)) →
      (queued w' k').length ≤ (queued w k).length := fun hpop => by
    rcases hqueue with ⟨hq, -⟩ | ⟨site, log, input, hpc, hi, -⟩ | ⟨_, _, cleared, -, -, -, hq⟩
    · exact hq.length_eq.le
    · exact absurd hi (hpop _ _ _ hpc)
    · have hlen := hq.length_eq
      rw [List.length_append, List.length_map, List.length_map] at hlen
      omega
  have hn : w.registry.lanes.length + 2 ≤ drainEffort lanes := Nat.add_le_add_right hlanes 2
  unfold effort
  by_cases hpop : ∀ site log input, k.pc = .pop site → k.input.popFront ≠ some (log, input)
  · have hmul := Nat.mul_le_mul_left (queuedEffort (drainEffort lanes)) (hkept hpop)
    by_cases hpc : ∀ wait c cells, k.pc ≠ .poll wait (c :: cells)
    · have hlocal := localEffort_quiet hlimits hn hm hpc hpop
      rw [localEffort_eq (cells_of_move hm hpc)]
      omega
    · push Not at hpc
      obtain ⟨wait, c, cells, hpc⟩ := hpc
      unfold PollLaw at hpoll
      rw [hpc] at hpoll
      obtain ⟨hready, hnext⟩ := localEffort_poll (n := drainEffort lanes) (o := o) (w := w)
        (Nat.le_add_left 2 lanes) hpc (hpoll List.mem_cons_self)
      cases hm
      case pollReady hr hpc' =>
        cases hpc.symm.trans hpc'
        have hlocal := hready hr
        omega
      case pollNext hr hpc' =>
        cases hpc.symm.trans hpc'
        have hlocal := hnext hr
        omega
      all_goals
        rename_i hpc'
        cases hpc.symm.trans hpc'
  · push Not at hpop
    obtain ⟨site, log, input, hpc, hi⟩ := hpop
    have hcells := cells_of_move hm fun wait c cells hpoll' => by cases hpc.symm.trans hpoll'
    cases hm
    case pop site' log' input' hi' hpc' =>
      cases hi.symm.trans hi'
      have hlocal := localEffort_pop (drainEffort lanes) w log input hpc'
      rcases hqueue with ⟨hq, hp, -⟩ | ⟨_, _, _, -, hi'', hq, -⟩ | ⟨_, _, _, hpc'', -⟩
      · exact absurd hp (by simp [subDepth, setDepth])
      · cases hi.symm.trans hi''
        have hlen := hq.length_eq
        rw [List.length_cons] at hlen
        rw [localEffort_eq hcells, hlen, Nat.mul_succ]
        omega
      · cases hpc.symm.trans hpc''
    case popNone hi' hpc' =>
      rw [(LaneQueues.popFront_eq_none_iff _).mpr hi'] at hi
      cases hi
    all_goals
      rename_i hpc'
      cases hpc.symm.trans hpc'

/-! ## The other parties -/

/-- Whether a thread is about to push a record or to notify the worker. -/
def ProducerPc.feeds : ProducerPc L → Bool
  | .push _ _ _ | .notify | .closed => true
  | _ => false

/-- Whether a flush call is about to notify the worker. -/
def FlushPc.feeds : FlushPc → Bool
  | .notify => true
  | _ => false

/-- Whether an operation of the command notifies the worker. -/
def ControlOp.feeds : ControlOp → Bool
  | .notifyShutdown | .notifyRecords | .notifyFlush => true
  | _ => false

/-- Whether an action of another party pushes a record or notifies the worker. -/
def feeds (s : State L) : Action L → Bool
  | .producer i => (s.threads[i]?).any fun p => ProducerPc.feeds p.pc
  | .fence => decide (s.fence = .closing)
  | .flush j => (s.flushes[j]?).any fun c => FlushPc.feeds c.pc
  | .control => (s.control.program.head?).any ControlOp.feeds
  | _ => false

/-- What another party does to the worker's work: nothing, one more record, or
one more notification. -/
inductive Feed (w w' : World L) : Bool → Prop where
  | quiet {b : Bool} (hl : (laneRecords w'.lanes).length = (laneRecords w.lanes).length)
      (hc : w'.shutdown = w.shutdown ∧ w'.flush = w.flush ∧ w'.records = w.records) :
      Feed w w' b
  | record (hl : (laneRecords w'.lanes).length = (laneRecords w.lanes).length + 1)
      (hc : w'.shutdown = w.shutdown ∧ w'.flush = w.flush ∧ w'.records = w.records) :
      Feed w w' true
  | notice (hl : (laneRecords w'.lanes).length = (laneRecords w.lanes).length)
      (hc : notices w' ≤ notices w + 1) : Feed w w' true

/-- A thread feeds the worker where it pushes or notifies. -/
theorem producer_feed {i : ℕ} {w w' : World L} {p p' : Producer L}
    (hm : ProducerMove x i w p w' p') : Feed w w' (ProducerPc.feeds p.pc) := by
  have hf := producer_frame hm
  have hrecords := producer_records hm
  cases hm
  case push r q ticket j lane hj hl hpc =>
    rw [hpc]
    rcases hrecords with ⟨-, hp⟩ | ⟨log, -, hp⟩
    · exact absurd hp (by simp [pushLane])
    · exact .record hp.records.length_eq ⟨rfl, rfl, rfl⟩
  case notify hpc | closed hpc =>
    rw [hpc]
    refine .notice rfl ?_
    have := w.records.count_notifyOne
    simp only [notices, notifyRecords]
    omega
  case refused failure hpc => cases failure <;> exact .quiet rfl ⟨rfl, rfl, rfl⟩
  case register hl hpc =>
    exact .quiet (congrArg List.length (laneRecords_register w)) ⟨rfl, rfl, rfl⟩
  case close j lane hj hl hpc =>
    rcases hrecords with ⟨hl', -⟩ | ⟨log, -, hp⟩
    · exact .quiet (congrArg List.length hl') ⟨rfl, rfl, rfl⟩
    · obtain ⟨_, _, _, _, _, hp, -⟩ := hp
      exact absurd hp (by simp)
  all_goals exact .quiet rfl ⟨rfl, rfl, rfl⟩

/-- What any party but the worker does to the worker's work. -/
theorem feed_of_move (hm : Move x s a s') (ha : ∀ o, a ≠ .worker o) (hc : a ≠ .cancelWorker) :
    s'.worker = s.worker ∧ Feed s.world s'.world (feeds s a) := by
  cases hm with
  | @producer i p p' w' hi hm =>
    have hfeeds : feeds s (.producer i) = ProducerPc.feeds p.pc := by
      simp only [feeds, hi, Option.any_some]
    rw [hfeeds]
    exact ⟨rfl, producer_feed hm⟩
  | worker hab hm => exact absurd rfl (ha _)
  | cancelWorker => exact absurd rfl hc
  | fenceNotify hf =>
    have hfeeds : feeds s .fence = true := decide_eq_true hf
    rw [hfeeds]
    refine ⟨rfl, .notice rfl ?_⟩
    have := s.world.records.count_notifyOne
    simp only [notices, notifyRecords]
    omega
  | @flush j c c' w' hj hm =>
    have hfeeds : feeds s (.flush j) = FlushPc.feeds c.pc := by
      simp only [feeds, hj, Option.any_some]
    rw [hfeeds]
    refine ⟨rfl, ?_⟩
    cases hm
    case notify hpc =>
      rw [hpc]
      refine .notice rfl ?_
      have := s.world.flush.count_notifyOne
      simp only [notices]
      omega
    all_goals exact .quiet rfl ⟨rfl, rfl, rfl⟩
  | @control op rest hp hr =>
    have hfeeds : feeds s .control = ControlOp.feeds op := by
      simp only [feeds, hp, List.head?_cons, Option.any_some]
    rw [hfeeds]
    refine ⟨rfl, ?_⟩
    have hl := congrArg (fun lanes => (laneRecords lanes).length)
      (controlStep_frame s.world s.control op).lanes
    cases op
    case notifyShutdown =>
      have := s.world.shutdown.count_notifyOne
      exact .notice hl (by simp only [notices, controlStep]; omega)
    case notifyRecords =>
      have := s.world.records.count_notifyOne
      exact .notice hl (by simp only [notices, controlStep, notifyRecords]; omega)
    case notifyFlush =>
      have := s.world.flush.count_notifyOne
      exact .notice hl (by simp only [notices, controlStep]; omega)
    case storeShuttingDown =>
      refine .quiet hl ?_
      simp only [controlStep]
      split <;> exact ⟨rfl, rfl, rfl⟩
    all_goals exact .quiet hl ⟨rfl, rfl, rfl⟩
  | _ => exact ⟨rfl, .quiet rfl ⟨rfl, rfl, rfl⟩⟩

/-- What is heard changes the work of a place by seven steps at most. -/
theorem pcEffort_heard (n : ℕ) (h h' : Cell → Bool) (pc : WorkerPc L) :
    pcEffort n h' pc ≤ pcEffort n h pc + 7 := by
  cases pc with
  | poll wait cells => simp only [pcEffort]; split <;> split <;> omega
  | parked wait => simp only [pcEffort]; split <;> split <;> omega
  | _ => exact Nat.le_add_right _ _

/-- What is fed pays for the work it makes. -/
theorem effort_feed {w w' : World L} {b : Bool} (h : Feed w w' b) (k : Worker L) :
    effort lanes w' k ≤ effort lanes w k +
      if b then queuedEffort (drainEffort lanes) else 0 := by
  unfold effort
  cases h with
  | quiet hl hc =>
    have hq : (queued w' k).length = (queued w k).length := by
      simp only [queued, List.length_append, hl]
    rw [hq, localEffort_eq hc]
    exact Nat.le_add_right _ _
  | record hl hc =>
    have hq : (queued w' k).length = (queued w k).length + 1 := by
      simp only [queued, List.length_append, hl]
      omega
    rw [hq, localEffort_eq hc, if_pos rfl, Nat.mul_succ]
    omega
  | notice hl hc =>
    have hq : (queued w' k).length = (queued w k).length := by
      simp only [queued, List.length_append, hl]
    have hmul := Nat.mul_le_mul_left (boundaryEffort (drainEffort lanes)) hc
    have hheard := pcEffort_heard (drainEffort lanes) (pendingAt w) (pendingAt w') k.pc
    rw [Nat.mul_succ] at hmul
    rw [hq, if_pos rfl]
    simp only [localEffort, boundaryEffort, queuedEffort] at hmul ⊢
    omega

/-! ## Runs -/

/-- A step of the worker costs one. -/
def workerCost (_ : State L) : Action L → ℕ
  | .worker _ => 1
  | _ => 0

/-- What a step is credited, with at most so many lanes: a push or a
notification, an answer that asks for a retry, or an unprompted poll. -/
def workCredit (lanes : ℕ) (s : State L) : Action L → ℕ
  | .worker o => workerCredit s.world s.worker o
  | a => if feeds s a then queuedEffort (drainEffort lanes) else 0

/-- The steps of a generation, with an account of the worker's work. -/
abbrev accountedStep (x : Exporter L) (lanes : ℕ) :=
  booked (GenerationStep.step x) workerCost (workCredit lanes)

/-- Registered lanes are lanes, each once. -/
theorem registry_length (ho : LanesOwned s) :
    s.world.registry.lanes.length ≤ s.world.lanes.length := by
  have hsub : s.world.registry.lanes ⊆ List.range s.world.lanes.length := fun j hj =>
    List.mem_range.mpr (ho.registry_range j hj)
  simpa only [List.length_range] using
    (List.subperm_of_subset ho.registry_nodup hsub).length_le

/-- Lanes are never removed from the table. -/
theorem lanes_length_mono (ho : LanesOwned s) (hm : Move x s a s') :
    s.world.lanes.length ≤ s'.world.lanes.length := by
  cases hm with
  | producer hi hm =>
    cases hm
    case register => exact (Nat.le_succ _).trans (by simp [registerLane])
    case push => simp [pushLane]
    case close => simp
    case refused failure hpc => cases failure <;> exact Nat.le_refl _
    all_goals exact Nat.le_refl _
  | worker ha hm => exact (worker_table hm ho.spare).length.ge
  | flush hj hm => rw [(flush_world hm).1]
  | @control op rest hp hr =>
    exact (congrArg List.length (controlStep_frame s.world s.control op).lanes).ge
  | _ => exact Nat.le_refl _

/-- A cancelled worker is owed nothing more. -/
theorem effort_cancel (lanes : ℕ) (w : World L) (k : Worker L) :
    effort lanes (dropWaits w) k ≤ effort lanes w k := by
  have hsame : pendingAt (dropWaits w) = pendingAt w := by
    funext c
    cases c <;> first | rfl | exact Notify.pending_drop _
  have hmul := Nat.mul_le_mul_left (boundaryEffort (drainEffort lanes)) (notices_dropWaits w)
  have hq : queued (dropWaits w) k = queued w k := rfl
  simp only [effort, localEffort, hsame, hq] at hmul ⊢
  omega

/-- Every step of the generation is paid for. -/
theorem effort_step (hl : LimitLaw x s) (hp : PollLaw s.worker) (ho : LanesOwned s)
    (hlanes : s.world.lanes.length ≤ lanes) (hm : Move x s a s') :
    effort lanes s'.world s'.worker + workerCost s a ≤
      effort lanes s.world s.worker + workCredit lanes s a := by
  by_cases ha : ∀ o, a ≠ .worker o
  · have hcost : workerCost s a = 0 := by
      cases a with
      | worker o => exact absurd rfl (ha o)
      | _ => rfl
    have hcredit : workCredit lanes s a =
        if feeds s a then queuedEffort (drainEffort lanes) else 0 := by
      cases a with
      | worker o => exact absurd rfl (ha o)
      | _ => rfl
    rw [hcost, hcredit, Nat.add_zero]
    by_cases hc : a = .cancelWorker
    · subst hc
      cases hm
      exact (effort_cancel lanes s.world s.worker).trans (Nat.le_add_right _ _)
    · obtain ⟨hk, hf⟩ := feed_of_move hm ha hc
      rw [hk]
      exact effort_feed hf s.worker
  · cases hm with
    | worker hab hm =>
      exact effort_worker hl.worker hp ho.spare ((registry_length ho).trans hlanes) hm
    | _ => exact (ha fun o hc => by cases hc).elim

/-- What every state of a run satisfies for its steps to be paid for. -/
structure Payable (x : Exporter L) (s : State L) : Prop where
  limits : LimitLaw x s
  poll : PollLaw s.worker
  lanes : LanesOwned s

/-- Every reachable state of a validated exporter does. -/
theorem payable (hv : x.config.validate = .ok ()) (h : Reachable x s) : Payable x s :=
  ⟨limitLaw hv h, pollLaw h, lanesOwned h⟩

/-- The account of a run never runs dry. -/
theorem effort_run (hv : x.config.validate = .ok ()) (h : Reachable x s) {t : State L}
    {c : Account} (hlanes : t.world.lanes.length ≤ lanes)
    (hr : Reach (accountedStep x lanes) (s, .empty) (t, c)) :
    effort lanes t.world t.worker + c.spent ≤ effort lanes s.world s.worker + c.credited := by
  exact amortised (I := Payable x) (J := fun u => u.world.lanes.length ≤ lanes)
    (φ := fun u => effort lanes u.world u.worker) (fun u hu => payable hv (h.trans hu))
    (fun u v a hu hs hle => (lanes_length_mono hu.lanes (stepMove hs)).trans hle)
    (fun u v a hu hle _ hs => effort_step hu.limits hu.poll hu.lanes hle (stepMove hs)) hr hlanes

/-- The worker never spins. Between any two states of a generation it takes at
most as many steps as were paid for: by what it held, and by the pushes,
notifications, unprompted polls and retries in between. -/
theorem worker_never_spins (hv : x.config.validate = .ok ()) (h : Reachable x s) {t : State L}
    {c : Account} (hr : Reach (accountedStep x t.world.lanes.length) (s, .empty) (t, c)) :
    c.spent ≤ effort t.world.lanes.length s.world s.worker + c.credited := by
  have hrun := effort_run hv h (Nat.le_refl _) hr
  omega

/-- Whether one lane is registered, with this account. -/
def accountIs (c : Account) (p : State ℕ × Account) : Bool :=
  decide (p.1.world.lanes.length = 1 ∧ p.2 = c)

/-- One record, from its push to the next wait: the worker takes forty-one steps,
and the push, its notification and the polls are credited with ninety-two. -/
theorem worker_never_spins_idle : ∃ t : State ℕ,
    Reach (accountedStep sample 1) (State.init ℕ, .empty) (t, ⟨41, 92⟩) ∧
      t.world.lanes.length = 1 ∧ 41 ≤ effort 1 (World.new ℕ) (Worker.new ℕ) + 92 := by
  obtain ⟨⟨t, c⟩, hr, hp⟩ := exists_reach (accountedStep sample 1) (State.init ℕ, .empty) idleRun
    (accountIs ⟨41, 92⟩) (by decide +kernel)
  obtain ⟨hlanes, rfl⟩ := of_decide_eq_true hp
  have hbound := worker_never_spins (x := sample) (s := State.init ℕ) (t := t) (c := ⟨41, 92⟩)
    (by decide +kernel) ReachWhile.refl (by rw [hlanes]; exact hr)
  rw [hlanes] at hbound
  exact ⟨t, hr, hlanes, hbound⟩

end EdenLogger.WorkerEffort
