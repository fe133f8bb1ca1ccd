import EdenLogger.GenerationChanges

/-!
# Where dispatches end

A dispatch enters the generation whose callback it loaded, and that generation
counts its record once: as filtered, as accepted, or as refused for lack of
capacity. While an exporter is reconfigured a dispatch can be between the load
of the old callback and its look at the old generation's `accepting`, and if
that is cleared in between the record is counted as dropped. Without such a
dispatch nothing is dropped.
-/

namespace EdenLogger.RecordRouting

open MachineWord RunRules ExporterConfig ExporterLanes LogCollector GenerationState
open GenerationStep SinkRegistry ExporterProcess GenerationMoves GenerationFrames ListCells
open ProcessMoves HandleProgram
open GenerationChanges

variable {K L : Type} {x : Exporter L} {s s' : State L}

/-! ## What a generation counts -/

/-- Records that were filtered, accepted, or refused for lack of capacity. -/
def decided (w : World L) : ℕ :=
  w.metrics.filtered + w.nextTicket + w.metrics.droppedQueueFull + w.metrics.droppedQueueBytesFull

/-- Whether a thread is inside the callback with a record not counted yet. -/
def undecided : ProducerPc L → ℕ
  | .entered _ | .resolve _ | .claimBytes _ _ | .undoBytes _ _ | .claimDepth _ _
  | .undoDepth _ _ | .returnBytes _ _ | .takeTicket _ _ | .refused _ => 1
  | .idle | .push _ _ _ | .notify | .leaving | .closing | .closed | .gone => 0

/-- The records inside the callback that are not counted yet. -/
def waiting (threads : List (Producer L)) : ℕ := (threads.map fun p => undecided p.pc).sum

/-- Every record a generation got to see. -/
def seen (s : State L) : ℕ :=
  decided s.world + s.world.metrics.droppedStopped + waiting s.threads

@[simp] theorem undecided_refuse (r : Submission L) (failure : ClaimFailure) (q : QueueKind) :
    undecided (refuse r failure q) = 1 := by
  cases q with
  | normal =>
    simp only [refuse]
    split <;> rfl
  | reserved => rfl

/-- A thread counts its record once. -/
theorem producer_counts {i : ℕ} {w w' : World L} {p p' : Producer L}
    (hm : ProducerMove x i w p w' p') :
    decided w' + w'.metrics.droppedStopped + undecided p'.pc =
      decided w + w.metrics.droppedStopped + undecided p.pc := by
  unfold decided
  cases hm
  case takeTicket hn hpc =>
    rw [hpc]
    simp only [undecided]
    omega
  case push hj hl hpc =>
    rw [hpc]
    dsimp only
    split <;> rfl
  case refused failure hpc =>
    rw [hpc]
    cases failure <;> simp only [undecided, countRefused] <;> omega
  case bytesRefused hc hpc => rw [hpc, undecided_refuse]; rfl
  case undoBytes hpc => rw [hpc, undecided_refuse]; rfl
  case returnBytes hpc => rw [hpc, undecided_refuse]; rfl
  case stopped ha hpc =>
    rw [hpc]
    simp only [undecided]
    omega
  case filtered ha hf hpc =>
    rw [hpc]
    simp only [undecided]
    omega
  all_goals
    rename_i hpc
    rw [hpc]
    rfl

/-- A thread's record is one of those inside the callback. -/
theorem waiting_set {threads : List (Producer L)} {i : ℕ} {p : Producer L}
    (hi : threads[i]? = some p) (p' : Producer L) :
    waiting (threads.set i p') + undecided p.pc = waiting threads + undecided p'.pc := by
  obtain ⟨n, hn, hn'⟩ := sum_map_split (fun p => undecided p.pc) hi
  unfold waiting
  rw [hn, hn']
  omega

/-- The worker counts no dispatch. -/
theorem worker_counts {o : Oracle} {w w' : World L} {k k' : Worker L}
    (hm : WorkerMove x o w k w' k') :
    decided w' = decided w ∧ w'.metrics.droppedStopped = w.metrics.droppedStopped := by
  cases hm with
  | @pollReady wait c cells hr hpc => cases c <;> exact ⟨rfl, rfl⟩
  | @pollNext wait c cells hr hpc => cases c <;> exact ⟨rfl, rfl⟩
  | _ => exact ⟨rfl, rfl⟩

/-- Nor does the handle's command. -/
theorem control_counts (w : World L) (c : Control) (op : ControlOp) :
    decided (controlStep w c op).1 = decided w ∧
      (controlStep w c op).1.metrics.droppedStopped = w.metrics.droppedStopped := by
  cases op with
  | storeShuttingDown =>
    simp only [controlStep]
    split <;> exact ⟨rfl, rfl⟩
  | _ => exact ⟨rfl, rfl⟩

/-- A dispatch adds one record, and no other step adds or loses any. -/
theorem seen_of_move {a : GenerationStep.Action L} (hm : Move x s a s') :
    seen s' = seen s ∨ (∃ i log, a = .enter i log) ∧ seen s' = seen s + 1 := by
  cases hm with
  | spawn =>
    refine Or.inl ?_
    simp [seen, waiting, undecided]
  | @enter i log p hi hpc hr =>
    refine Or.inr ⟨⟨i, log, rfl⟩, ?_⟩
    have hw := waiting_set hi { p with pc := .entered log }
    rw [hpc] at hw
    simp only [undecided, Nat.add_zero] at hw
    simp only [seen, hw, Nat.add_assoc]
  | @producer i p p' w' hi hm =>
    have hw := waiting_set hi p'
    have hc := producer_counts hm
    simp only [seen]
    omega
  | @exit i p hi hpc =>
    have hw := waiting_set hi { p with pc := if p.lane.isSome then .closing else .gone }
    have hp : undecided (if p.lane.isSome then .closing else .gone : ProducerPc L) = 0 := by
      split <;> rfl
    rw [hpc, hp] at hw
    simp only [undecided, Nat.add_zero] at hw
    exact Or.inl (by simp only [seen, hw])
  | worker ha hm =>
    obtain ⟨hd, hs⟩ := worker_counts hm
    exact Or.inl (by simp only [seen, hd, hs])
  | flush hj hm =>
    rw [(flush_world hm).1]
    exact Or.inl rfl
  | @control op rest hp hr =>
    obtain ⟨hd, hs⟩ := control_counts s.world s.control op
    exact Or.inl (by simp only [seen, hd, hs])
  | _ => exact Or.inl rfl

/-! ## Generations that are only replaced -/

/-- No thread is between the load of the callback and the acceptance check. -/
def NoneEntered (threads : List (Producer L)) : Prop :=
  ∀ p ∈ threads, ∀ log, p.pc ≠ .entered log

/-- A generation with what it counted. -/
structure Routed (gen : Generation K L) : Prop where
  /-- Every dispatch that loaded the callback is counted once, sooner or later. -/
  count : seen gen.state = gen.dispatched
  /-- Nothing is dropped by a generation that no command has reached. -/
  running : gen.state.control.command = none → gen.state.control.program = [] ∧
    gen.state.world.accepting = true ∧ gen.state.world.metrics.droppedStopped = 0
  /-- Nor by one that was replaced. -/
  replaced : gen.state.control.command = some .reconfigure → gen.state.world.retired = true ∧
    gen.state.world.metrics.droppedStopped = 0 ∧
      (gen.state.world.accepting = true ∨ NoneEntered gen.state.threads)

/-- A dispatch is entered by the load of its callback only. -/
theorem not_entered {i : ℕ} {w w' : World L} {p p' : Producer L}
    (hm : ProducerMove x i w p w' p') (log : L) : p'.pc ≠ .entered log := by
  have hrefuse : ∀ (r : Submission L) (f : ClaimFailure) (q : QueueKind),
      refuse r f q ≠ .entered log := by
    intro r f q
    cases q with
    | normal =>
      simp only [refuse]
      split <;> exact fun hc => by cases hc
    | reserved => exact fun hc => by cases hc
  cases hm
  case push =>
    dsimp only
    split <;> exact fun hc => by cases hc
  case bytesRefused | undoBytes | returnBytes => exact hrefuse _ _ _
  all_goals exact fun hc => by cases hc

/-- Only a dispatch on a retired generation's `accepting` drops a record. -/
theorem producer_stopped {i : ℕ} {w w' : World L} {p p' : Producer L}
    (hm : ProducerMove x i w p w' p') :
    w'.metrics.droppedStopped = w.metrics.droppedStopped ∨
      w.accepting = false ∧ ∃ log, p.pc = .entered log := by
  cases hm
  case stopped ha hpc => exact Or.inr ⟨ha, _, hpc⟩
  case refused failure hpc => cases failure <;> exact Or.inl rfl
  all_goals exact Or.inl rfl

/-- Only `stop_acceptance` clears `accepting`. -/
theorem control_accepting (w : World L) (c : Control) {op : ControlOp} (h : op ≠ .storeAccepting) :
    (controlStep w c op).1.accepting = w.accepting := by
  cases op with
  | storeAccepting => exact absurd rfl h
  | storeShuttingDown =>
    simp only [controlStep]
    split <;> rfl
  | _ => rfl

/-- The steps of a generation's own keep what it counted, if `accepting` is not
cleared under a dispatch. -/
theorem Routed.move {gen : Generation K L} (h : Routed gen) {a : GenerationStep.Action L}
    (hm : Move gen.exporter gen.state a s) (he : ∀ i log, a ≠ .enter i log)
    (hc : ∀ c, a ≠ .command c)
    (hcareful : a = .control → gen.state.control.command = some .reconfigure →
      gen.state.control.program.head? = some .storeAccepting → NoneEntered gen.state.threads) :
    Routed (withState gen s) := by
  have hcount : seen s = gen.dispatched := by
    rcases seen_of_move hm with hs | ⟨⟨i, log, ha⟩, -⟩
    · exact hs.trans h.count
    · exact absurd ha (he i log)
  have hcommand := command_of_move hm hc
  cases hm with
  | spawn =>
    refine ⟨hcount, h.running, fun hr => ?_⟩
    obtain ⟨hret, hdrop, hor⟩ := h.replaced hr
    refine ⟨hret, hdrop, hor.imp id fun hnone p hp log => ?_⟩
    rcases List.mem_append.mp hp with hp | hp
    · exact hnone p hp log
    · rw [List.mem_singleton.mp hp]
      exact fun hpc => by cases hpc
  | @enter i log p hi hpc hr => exact absurd rfl (he i log)
  | @producer i p p' w' hi hm =>
    have hf := producer_frame hm
    refine ⟨hcount, fun hr => ?_, fun hr => ?_⟩
    · obtain ⟨hp, hacc, hdrop⟩ := h.running hr
      refine ⟨hp, hf.accepting.trans hacc, ?_⟩
      rcases producer_stopped hm with hsame | ⟨hacc', -⟩
      · exact hsame.trans hdrop
      · rw [hacc] at hacc'
        cases hacc'
    · obtain ⟨hret, hdrop, hor⟩ := h.replaced hr
      refine ⟨hf.retired.trans hret, ?_, hor.imp hf.accepting.trans fun hnone => ?_⟩
      · rcases producer_stopped hm with hsame | ⟨hacc', log, hpc⟩
        · exact hsame.trans hdrop
        · -- a closed generation has no thread before its acceptance check
          rcases hor with hacc | hnone
          · rw [hacc] at hacc'
            cases hacc'
          · exact absurd hpc (hnone p (List.mem_of_getElem? hi) log)
      · exact forall_mem_set hnone fun log => not_entered hm log
  | exit hi hpc =>
    refine ⟨hcount, h.running, fun hr => ?_⟩
    obtain ⟨hret, hdrop, hor⟩ := h.replaced hr
    refine ⟨hret, hdrop, hor.imp id fun hnone => forall_mem_set hnone fun log hpc' => ?_⟩
    dsimp only at hpc'
    split at hpc' <;> cases hpc'
  | worker ha hm =>
    have hf := worker_frame hm
    obtain ⟨-, hs⟩ := worker_counts hm
    refine ⟨hcount, fun hr => ?_, fun hr => ?_⟩
    · obtain ⟨hp, hacc, hdrop⟩ := h.running hr
      exact ⟨hp, hf.accepting.trans hacc, hs.trans hdrop⟩
    · obtain ⟨hret, hdrop, hor⟩ := h.replaced hr
      exact ⟨hf.retired.trans hret, hs.trans hdrop, hor.imp hf.accepting.trans id⟩
  | flush hj hm =>
    refine ⟨hcount, fun hr => ?_, fun hr => ?_⟩
    · rw [withState, (flush_world hm).1]
      exact h.running hr
    · rw [withState, (flush_world hm).1]
      exact h.replaced hr
  | @command c hcmd hf => exact absurd rfl (hc c)
  | @control op rest hp hr =>
    obtain ⟨-, hs⟩ := control_counts gen.state.world gen.state.control op
    have hf := controlStep_frame gen.state.world gen.state.control op
    refine ⟨hcount, fun hn => ?_, fun hn => ?_⟩
    · rw [(h.running (hcommand.symm.trans hn)).1] at hp
      cases hp
    · have hrep := hcommand.symm.trans hn
      obtain ⟨hret, hdrop, hor⟩ := h.replaced hrep
      refine ⟨hf.retired hret, hs.trans hdrop, ?_⟩
      by_cases hop : op = .storeAccepting
      · exact Or.inr (hcareful rfl hrep (by rw [hp, hop]; rfl))
      · exact hor.imp (control_accepting _ _ hop).trans id
  | @expireDeadline rest hp =>
    refine ⟨hcount, fun hn => ?_, h.replaced⟩
    rw [(h.running hn).1] at hp
    cases hp
  | _ => exact ⟨hcount, h.running, h.replaced⟩

/-! ## Runs of the process -/

section Process

variable [DecidableEq K] {p p' : Process K L}

/-- A replaced generation's `accepting` is not cleared while a dispatch stands
between the load of its callback and its look at `accepting`. -/
def Careful (p : Process K L) (a : Action K L) : Prop :=
  ∀ (g : ℕ) (gen : Generation K L), a = .run g .control → p.generations[g]? = some gen →
    gen.state.control.command = some .reconfigure →
    gen.state.control.program.head? = some .storeAccepting → NoneEntered gen.state.threads

/-- Generations with what they counted. -/
def Routing (p : Process K L) : Prop := ∀ gen ∈ p.generations, Routed gen

omit [DecidableEq K] in
/-- No record was dispatched to a generation that was just prepared. -/
theorem waiting_prepared (n : ℕ) : seen (preparedState n : State L) = 0 := by
  simp [seen, waiting, decided, preparedState, undecided, State.init, World.new,
    ExporterMetrics.new]

omit [DecidableEq K] in
/-- A generation whose callback just got into the slot. -/
theorem routed_prepared (p : Process K L) (key : K) (x : Exporter L) (callback : Option ℕ) :
    Routed (preparedGeneration p key x callback) where
  count := waiting_prepared _
  running := fun _ => ⟨rfl, rfl, rfl⟩
  replaced := fun hr => by cases hr

omit [DecidableEq K] in
/-- A generation that was given up. -/
theorem routed_abandoned (p : Process K L) (key : K) (x : Exporter L) (made : Bool)
    (ops : List ControlOp) : Routed (abandonedGeneration p key x made ops) where
  count := waiting_prepared p.threads.length
  running := fun hr => by cases hr
  replaced := fun hr => by cases hr

omit [DecidableEq K] in
/-- A generation that was current and is replaced. -/
theorem routed_reconfigured {gen : Generation K L} (h : Routed gen) {s s' : State L}
    (hs : Move gen.exporter gen.state (.command .reconfigure) s)
    (hs' : Move gen.exporter s .control s') : Routed (withState gen s') := by
  cases hs with
  | command hc hf =>
    obtain ⟨-, hacc, hdrop⟩ := h.running hc
    have hcount : seen s' = gen.dispatched := by
      rcases seen_of_move hs' with hsame | ⟨⟨i, log, ha⟩, -⟩
      · exact hsame.trans h.count
      · cases ha
    cases hs' with
    | control hp hr =>
      cases hp
      exact ⟨hcount, fun hn => (by cases hn), fun _ => ⟨rfl, hdrop, Or.inl hacc⟩⟩

omit [DecidableEq K] in
/-- A generation whose handle is taken down. -/
theorem routed_closed {gen : Generation K L} (h : Routed gen) {c : Command} {s : State L}
    (hc : c ≠ .reconfigure) (hs : Move gen.exporter gen.state (.command c) s) :
    Routed (withState gen s) := by
  cases hs with
  | command hn hf =>
    exact ⟨h.count, fun hn => (by cases hn), fun hn => absurd (Option.some.inj hn) hc⟩

omit [DecidableEq K] in
/-- A generation that a dispatch enters. -/
theorem routed_entered {gen : Generation K L} (h : Routed gen) {i : ℕ} {log : L} {s : State L}
    (hs : Move gen.exporter gen.state (.enter i log) s) :
    Routed { gen with state := s, dispatched := gen.dispatched + 1 } := by
  have hcount : seen s = gen.dispatched + 1 := by
    cases hs with
    | @enter _ _ producer hi hpc hr =>
      have hw := waiting_set hi { producer with pc := .entered log }
      rw [hpc] at hw
      have hseen := h.count
      simp only [undecided, Nat.add_zero] at hw
      simp only [seen] at hseen ⊢
      omega
  cases hs with
  | enter hi hpc hr =>
    refine ⟨hcount, h.running, fun hrep => ?_⟩
    rw [(h.replaced hrep).1] at hr
    cases hr

omit [DecidableEq K] in
/-- A generation in which a submission found its lane. -/
theorem routed_resolved {gen : Generation K L} (h : Routed gen) {i : ℕ} {producer : Producer L}
    {r : Submission L} (hi : gen.state.threads[i]? = some producer)
    (hpc : producer.pc = .resolve r) (lane : Option ℕ) {w : World L} (owners : List ℕ)
    (hw : decided w = decided gen.state.world ∧
      w.metrics.droppedStopped = gen.state.world.metrics.droppedStopped ∧
      w.accepting = gen.state.world.accepting ∧ w.retired = gen.state.world.retired) :
    Routed { gen with
      state := { gen.state with
        world := w
        threads := gen.state.threads.set i ⟨.claimBytes r .normal, lane⟩ }
      owners := owners } := by
  obtain ⟨hdec, hdrop, hacc, hret⟩ := hw
  refine ⟨?_, fun hn => ?_, fun hn => ?_⟩
  · have hset := waiting_set hi ⟨.claimBytes r .normal, lane⟩
    have hseen := h.count
    rw [hpc] at hset
    simp only [undecided, Nat.add_right_cancel_iff] at hset
    simp only [seen] at hseen ⊢
    rw [hset, hdec, hdrop]
    exact hseen
  · obtain ⟨hp, ha, hd⟩ := h.running hn
    exact ⟨hp, hacc.trans ha, hdrop.trans hd⟩
  · obtain ⟨hr, hd, hor⟩ := h.replaced hn
    exact ⟨hret.trans hr, hdrop.trans hd, hor.imp hacc.trans fun hnone =>
      forall_mem_set hnone fun log hc => by cases hc⟩

/-- Every step of a careful run keeps the counts. -/
theorem Routing.move (h : Routing p) {a : Action K L} (hm : ProcessMove p a p')
    (ha : Careful p a) : Routing p' := by
  cases hm with
  | spawn =>
    intro gen' hm
    obtain ⟨gen, hgen, rfl⟩ := List.mem_map.mp hm
    exact (h gen hgen).move .spawn (fun _ _ hc => by cases hc) (fun _ hc => by cases hc)
      fun hc => by cases hc
  | exit ht hidle => exact h
  | sinks hm hc hown => exact h
  | abandoned =>
    exact List.forall_mem_append.mpr
      ⟨h, fun gen hm => (List.mem_singleton.mp hm) ▸ routed_abandoned p _ _ _ _⟩
  | installed hg he hi =>
    exact List.forall_mem_append.mpr
      ⟨h, fun gen hm => (List.mem_singleton.mp hm) ▸ routed_prepared p _ _ _⟩
  | reconfigured hh hopen hr hi ha' hgen hs hs' =>
    refine List.forall_mem_append.mpr ⟨forall_mem_set h ?_,
      fun gen hm => (List.mem_singleton.mp hm) ▸ routed_prepared p _ _ _⟩
    exact routed_reconfigured (h _ (List.mem_of_getElem? hgen)) hs hs'
  | closed hh hopen hne hgen hs =>
    exact forall_mem_set h (routed_closed (h _ (List.mem_of_getElem? hgen)) hne hs)
  | unregistered hh hclosed hgen hop hsinks hs =>
    refine forall_mem_set h ((h _ (List.mem_of_getElem? hgen)).move hs (fun _ _ hc => by cases hc)
      (fun _ hc => by cases hc) fun _ _ hstore => ?_)
    rw [hop] at hstore
    cases hstore
  | entered ht hstay hm hgen hs =>
    exact forall_mem_set h (routed_entered (h _ (List.mem_of_getElem? hgen)) hs)
  | found hgen hi ht hpc hj =>
    exact forall_mem_set h
      (routed_resolved (h _ (List.mem_of_getElem? hgen)) hi hpc _ _ ⟨rfl, rfl, rfl, rfl⟩)
  | registered hgen hi ht hpc hj =>
    exact forall_mem_set h
      (routed_resolved (h _ (List.mem_of_getElem? hgen)) hi hpc _ _ ⟨rfl, rfl, rfl, rfl⟩)
  | @run g b gen s hgen hown hs =>
    have hgenerated := h _ (List.mem_of_getElem? hgen)
    refine forall_mem_set h (hgenerated.move hs ?_ ?_ fun hb hrep hstore => ?_)
    · rintro i log rfl
      cases hown
    · rintro c rfl
      cases hown
    · subst hb
      exact ha g gen rfl hgen hrep hstore
  | freed hgen hu =>
    have hr := h _ (List.mem_of_getElem? hgen)
    exact forall_mem_set h ⟨hr.count, hr.running, hr.replaced⟩

/-- Generations count what they got to see in every careful run. -/
theorem routing (h : ReachWhile ExporterProcess.step Careful (Process.init K L) p) :
    Routing p :=
  h.invariant_using (fun _ ht => handlesSound ht) (fun gen hm => by cases hm)
    fun _ _ _ hs _ ht ha hu => ht.move (processMove hs.consistent hu) ha

/-! ## Where a dispatch goes -/

/-- The callback of an open handle belongs to its generation. -/
theorem generationOf_callback (h : HandlesSound p) {g c : ℕ} {gen : Generation K L}
    (hgen : p.generations[g]? = some gen) (hc : gen.callback = some c) :
    ExporterProcess.generationOf p (some c) = some g := by
  rw [ExporterProcess.generationOf, Option.bind_some, List.findIdx?_eq_some_iff_getElem]
  obtain ⟨hlt, rfl⟩ := List.getElem?_eq_some_iff.mp hgen
  refine ⟨hlt, decide_eq_true hc, fun j hj hcj => ?_⟩
  have hgj := List.getElem?_eq_getElem (hj.trans hlt)
  exact hj.ne (h.injective hgj hgen (of_decide_eq_true hcj) hc)

/-- A dispatch of an open handle's type loads the callback of its generation. -/
theorem load_of_current (h : HandlesSound p) {c : ℕ} {handle : ExporterHandle K}
    {gen : Generation K L} (hcur : Current p handle gen) (hc : gen.callback = some c) {i : ℕ}
    (hi : i < p.sinks.caches.length) :
    ∃ sinks, loadCallback p.sinks i handle.key = some (some c, sinks) := by
  obtain ⟨-, slot, c', -, -, hget, ha, hc'⟩ := hcur.registration
  cases hc.symm.trans hc'
  have hcache := List.getElem?_eq_getElem hi
  have hcount : p.sinks.registry.activeSinks ≠ 0 := by
    have hpos := occupied_pos ha
    rw [h.consistent.count]
    omega
  refine ⟨{ p.sinks with
    caches := p.sinks.caches.set i
      (cachedSink p.sinks.registry p.sinks.caches[i] handle.key).2 }, ?_⟩
  rw [loadCallback, hcache, Option.map_some, if_neg hcount]
  dsimp only
  rw [h.consistent.toAgreed.cachedSink (List.mem_of_getElem? hcache), hget, Option.bind_some, ha]

/-- A dispatch enters a generation, and no other changes. -/
def Enters (p : Process K L) (i g : ℕ) (key : K) (log : L) : Prop :=
  ∃ gen s sinks, p.generations[g]? = some gen ∧
    GenerationStep.step gen.exporter gen.state (.enter i log) = some s ∧
    ExporterProcess.step p (.dispatch i key log) = some { p with
      sinks := sinks
      generations := p.generations.set g
        { gen with state := s, dispatched := gen.dispatched + 1 } }

/-- A thread outside an open handle's generation can dispatch into it. -/
theorem enters_of_live (h : HandlesSound p) (hsize : Sized p) {n : ℕ}
    {handle : ExporterHandle K} (hl : liveHandle p n = some handle) {i : ℕ} {t : Thread}
    (ht : p.threads[i]? = some t) (hstay : t.exiting = false)
    (hidle : ∀ gen, p.generations[handle.shared]? = some gen → idleIn i gen = true) (log : L) :
    Enters p i handle.shared handle.key log := by
  obtain ⟨gen, hcur⟩ := h.current hl
  obtain ⟨-, -, c, -, -, -, -, hc⟩ := hcur.registration
  have hlt := (List.getElem?_eq_some_iff.mp ht).1
  obtain ⟨sinks, hload⟩ := load_of_current h hcur hc (hsize.caches.symm ▸ hlt)
  have hcell : i < gen.state.threads.length := by
    rw [hsize.cells gen (List.mem_of_getElem? hcur.shared)]
    exact hlt
  have hi := List.getElem?_eq_getElem hcell
  have hpc : gen.state.threads[i].pc = .idle := by
    have hout := hidle gen hcur.shared
    rw [idleIn, hi, Option.all_some] at hout
    split at hout
    · assumption
    · cases hout
  have hs : GenerationStep.step gen.exporter gen.state (.enter i log) =
      some { gen.state with
        threads := gen.state.threads.set i { gen.state.threads[i] with pc := .entered log } } := by
    simp only [GenerationStep.step, hi, Option.bind_some, hpc, hcur.retired, Bool.false_eq_true,
      if_false]
  refine ⟨gen, _, sinks, hcur.shared, hs, ?_⟩
  simp only [ExporterProcess.step, dispatch, ht, Option.bind_some, hstay, Bool.false_eq_true,
    if_false, hload, generationOf_callback h hcur.shared hc, hcur.shared, hs, Option.map_some]

/-! ## No outage -/

/-- Reconfigurations lose no record. -/
structure NoOutage (p : Process K L) : Prop where
  /-- A generation that is current, or was replaced, drops nothing: what it got
  to see was filtered, accepted or refused for lack of capacity, or is inside. -/
  counted : ∀ gen ∈ p.generations, gen.state.control.command = none ∨
    gen.state.control.command = some .reconfigure →
      gen.state.world.metrics.droppedStopped = 0 ∧
        gen.dispatched = decided gen.state.world + waiting gen.state.threads
  /-- An open handle's generation takes every dispatch of its type. -/
  enters : ∀ (n : ℕ) (handle : ExporterHandle K), liveHandle p n = some handle →
    ∀ (i : ℕ) (t : Thread), p.threads[i]? = some t → t.exiting = false →
      (∀ gen, p.generations[handle.shared]? = some gen → idleIn i gen = true) →
        ∀ log, Enters p i handle.shared handle.key log

/-- A party of a generation takes its step. -/
theorem run_step {g : ℕ} {gen : Generation K L} {a : GenerationStep.Action L} {s : State L}
    (hgen : p.generations[g]? = some gen) (hown : ownStep p gen a = true)
    (hs : GenerationStep.step gen.exporter gen.state a = some s) :
    ExporterProcess.step p (.run g a) = some (setGeneration p g (withState gen s)) := by
  rw [ExporterProcess.step, hgen, Option.bind_some, if_pos hown, hs]
  rfl

omit [DecidableEq K] in
/-- A dispatch that finds `accepting` cleared drops its record. -/
theorem entered_drops {i : ℕ} {producer : Producer L} {log : L}
    (hi : s.threads[i]? = some producer) (hpc : producer.pc = .entered log)
    (ha : s.world.accepting = false) :
    ∃ s', GenerationStep.step x s (.producer i) = some s' ∧
      s'.world.metrics.droppedStopped = s.world.metrics.droppedStopped + 1 := by
  refine ⟨{ s with
    world := { s.world with metrics.droppedStopped := s.world.metrics.droppedStopped + 1 }
    threads := s.threads.set i { producer with pc := .leaving } }, ?_, rfl⟩
  simp only [GenerationStep.step, hi, Option.bind_some, producerStep, hpc, ha, if_true,
    Option.map_some]

/-- A thread that was between the load and the check drops its record. -/
theorem careless_drops {g i : ℕ} {gen : Generation K L} {producer : Producer L} {log : L}
    (hs : ExporterProcess.step p (.run g .control) = some p') (hgen : p.generations[g]? = some gen)
    (hstore : gen.state.control.program.head? = some .storeAccepting)
    (hi : gen.state.threads[i]? = some producer) (hpc : producer.pc = .entered log) :
    ∃ p'' gen'', ExporterProcess.step p' (.run g (.producer i)) = some p'' ∧
      p''.generations[g]? = some gen'' ∧
      gen''.state.world.metrics.droppedStopped =
        gen.state.world.metrics.droppedStopped + 1 := by
  obtain ⟨gen', hgen', hs⟩ := Option.bind_eq_some_iff.mp hs
  cases hgen.symm.trans hgen'
  split_ifs at hs with hown
  obtain ⟨s, hc, rfl⟩ := Option.map_eq_some_iff.mp hs
  have hlt := (List.getElem?_eq_some_iff.mp hgen).1
  have hcleared : s.threads = gen.state.threads ∧ s.world.accepting = false ∧
      s.world.metrics.droppedStopped = gen.state.world.metrics.droppedStopped := by
    cases stepMove hc with
    | @control op rest hp hr =>
      rw [hp] at hstore
      cases hstore
      exact ⟨rfl, rfl, rfl⟩
  obtain ⟨hthreads, hacc, hdrop⟩ := hcleared
  rw [← hthreads] at hi
  obtain ⟨s', hs', hdrop'⟩ := entered_drops (x := gen.exporter) hi hpc hacc
  have hcell : (p.generations.set g (withState gen s))[g]? = some (withState gen s) :=
    List.getElem?_set_self hlt
  have hstep := run_step (p := setGeneration p g (withState gen s)) hcell
    (by simp only [ownStep, withState, hi, Option.any_some, hpc]) hs'
  exact ⟨_, _, hstep, List.getElem?_set_self (hlt.trans_eq List.length_set.symm),
    hdrop'.trans (congrArg (· + 1) hdrop)⟩

/-- A run loses no record to a reconfiguration as long as no replaced
generation's `accepting` is cleared under a dispatch, and a step that does so
can be followed by one that drops the record. -/
theorem reconfigure_without_outage :
    (∀ p : Process K L, ReachWhile ExporterProcess.step Careful (Process.init K L) p →
      NoOutage p) ∧
    ∀ (p p' : Process K L) (a : Action K L), ExporterProcess.step p a = some p' →
      ¬ Careful p a → ∃ (g i : ℕ) (gen gen'' : Generation K L) (p'' : Process K L),
        p.generations[g]? = some gen ∧ gen.state.control.command = some .reconfigure ∧
        ExporterProcess.step p' (.run g (.producer i)) = some p'' ∧
        p''.generations[g]? = some gen'' ∧
        gen''.state.world.metrics.droppedStopped =
          gen.state.world.metrics.droppedStopped + 1 := by
  refine ⟨fun p h => ?_, fun p p' a hs hcareless => ?_⟩
  · have hsound := handlesSound h
    refine ⟨fun gen hm hc => ?_, fun n handle hl i t ht hstay hidle log =>
      enters_of_live hsound (sized h) hl ht hstay hidle log⟩
    have hr := routing h gen hm
    have hdrop : gen.state.world.metrics.droppedStopped = 0 := by
      rcases hc with hc | hc
      · exact (hr.running hc).2.2
      · exact (hr.replaced hc).2.1
    have hcount := hr.count
    rw [seen, hdrop, Nat.add_zero] at hcount
    exact ⟨hdrop, hcount.symm⟩
  · unfold Careful NoneEntered at hcareless
    push Not at hcareless
    obtain ⟨g, gen, rfl, hgen, hcmd, hstore, producer, hm, log, hpc⟩ := hcareless
    obtain ⟨i, hi⟩ := List.mem_iff_getElem?.mp hm
    obtain ⟨p'', gen'', hs', hgen'', hdrop⟩ := careless_drops hs hgen hstore hi hpc
    exact ⟨g, i, gen, gen'', p'', hgen, hcmd, hs', hgen'', hdrop⟩

/-- Whether a step is careful. -/
def isCareful (p : Process K L) : Action K L → Bool
  | .run g .control => (p.generations[g]?).all fun gen =>
    !(decide (gen.state.control.command = some .reconfigure) &&
      decide (gen.state.control.program.head? = some .storeAccepting)) ||
      gen.state.threads.all fun producer =>
        match producer.pc with
        | .entered _ => false
        | _ => true
  | _ => true

omit [DecidableEq K] in
/-- The check decides it. -/
theorem isCareful_iff (p : Process K L) (a : Action K L) : isCareful p a = true ↔ Careful p a := by
  constructor
  · rintro h g gen rfl hgen hcmd hstore producer hm log hpc
    simp only [isCareful, hgen, Option.all_some, hcmd, hstore, decide_true, Bool.and_self,
      Bool.not_true, Bool.false_or, List.all_eq_true] at h
    have hthread := h producer hm
    rw [hpc] at hthread
    cases hthread
  · intro h
    unfold isCareful
    split
    · rename_i g
      refine (Option.all_eq_true _ _).mpr fun gen hgen => ?_
      by_cases hcond : gen.state.control.command = some .reconfigure ∧
          gen.state.control.program.head? = some .storeAccepting
      · have hnone := h g gen rfl hgen hcond.1 hcond.2
        refine (Bool.or_eq_true _ _).mpr (Or.inr (List.all_eq_true.mpr fun producer hm => ?_))
        split
        · rename_i log hpc
          exact absurd hpc (hnone producer hm log)
        · rfl
      · rw [← Bool.decide_and, decide_eq_false hcond]
        rfl
    · rfl

end Process

/-- A record that passed the check before the exporter is reconfigured, and one
that is dispatched behind it. -/
def carefulRun : List (ExporterProcess.Action ℕ ℕ) :=
  [.spawn, .install 7 sampleRequest, .dispatch 0 7 3, .run 0 (.producer 0),
    .reconfigure 0 sampleRequest, .run 0 .control, .dispatch 0 7 4]

/-- Whether a dispatch passed each of two generations. -/
def bothDispatched (p : Process ℕ ℕ) : Bool :=
  decide (p.generations.map (fun gen => gen.dispatched) = [1, 1]) &&
  (p.generations[0]?).any fun gen =>
    decide (gen.state.control.command = some .reconfigure) && !gen.state.world.accepting

/-- A record that stands before the check while the exporter is reconfigured. -/
def carelessRun : List (ExporterProcess.Action ℕ ℕ) :=
  [.spawn, .install 7 sampleRequest, .dispatch 0 7 3, .reconfigure 0 sampleRequest]

/-- The rest of it, until the reconfiguration returns. -/
def drainedRun : List (ExporterProcess.Action ℕ ℕ) :=
  carelessRun ++ [.run 0 .control, .run 0 (.producer 0), .run 0 (.producer 0), .run 0 .fence,
    .run 0 .fence] ++ List.replicate 5 (.run 0 .control) ++
    (workerSteps 14 (.ok 1 0)).map (.run 0) ++ [.run 0 .control]

/-- Whether a reconfiguration has returned whose old generation dropped its record. -/
def droppedOne (p : Process ℕ ℕ) : Bool :=
  (liveHandle p 0).isSome && (p.generations[0]?).any fun gen =>
    decide (gen.state.control.command = some .reconfigure) &&
    decide (gen.state.control.program = []) && decide (gen.dispatched = 1) &&
    decide (gen.state.world.metrics.droppedStopped = 1)

/-- A reconfiguration that returned left a record dropped. -/
theorem reconfigure_drops_record : ∃ (p : Process ℕ ℕ) (gen : Generation ℕ ℕ),
    Reach ExporterProcess.step (Process.init ℕ ℕ) p ∧ (liveHandle p 0).isSome = true ∧
    p.generations[0]? = some gen ∧ gen.state.control.command = some .reconfigure ∧
    gen.state.control.program = [] ∧ gen.dispatched = 1 ∧
    gen.state.world.metrics.droppedStopped = 1 := by
  obtain ⟨p, hp, ht⟩ := exists_reach ExporterProcess.step (Process.init ℕ ℕ) drainedRun
    droppedOne (by decide +kernel)
  obtain ⟨hl, hg⟩ := (Bool.and_eq_true _ _).mp ht
  obtain ⟨gen, hgen, hg⟩ := (Option.any_eq_true _ _).mp hg
  obtain ⟨hg, hdrop⟩ := (Bool.and_eq_true _ _).mp hg
  obtain ⟨hg, hone⟩ := (Bool.and_eq_true _ _).mp hg
  obtain ⟨hcmd, hprog⟩ := (Bool.and_eq_true _ _).mp hg
  exact ⟨p, gen, hp, hl, hgen, of_decide_eq_true hcmd, of_decide_eq_true hprog,
    of_decide_eq_true hone, of_decide_eq_true hdrop⟩

/-- Whether the next step clears `accepting` under a dispatch. -/
def aboutToDrop (p : Process ℕ ℕ) : Bool :=
  !isCareful p (.run 0 .control) && (ExporterProcess.step p (.run 0 .control)).isSome

/-- Two records are counted around one reconfiguration, and one is dropped
under another. -/
theorem reconfigure_without_outage_sampled :
    (∃ p : Process ℕ ℕ, ReachWhile ExporterProcess.step Careful (Process.init ℕ ℕ) p ∧
      bothDispatched p = true ∧ NoOutage p) ∧
    ∃ (p p' p'' : Process ℕ ℕ) (g i : ℕ) (gen : Generation ℕ ℕ),
      ExporterProcess.step p (.run 0 .control) = some p' ∧
      ExporterProcess.step p' (.run g (.producer i)) = some p'' ∧
      p''.generations[g]? = some gen ∧ 1 ≤ gen.state.world.metrics.droppedStopped := by
  constructor
  · obtain ⟨p, hp, ht⟩ := exists_reach_of_replay ExporterProcess.step
      (fun p a => (isCareful_iff p a).mp) (Process.init ℕ ℕ) carefulRun bothDispatched
      (by decide +kernel)
    exact ⟨p, hp, ht, reconfigure_without_outage.1 p hp⟩
  · obtain ⟨p, hp, ht⟩ := exists_reach ExporterProcess.step (Process.init ℕ ℕ) carelessRun
      aboutToDrop (by decide +kernel)
    obtain ⟨hc, hs⟩ := (Bool.and_eq_true _ _).mp ht
    obtain ⟨p', hs⟩ := Option.isSome_iff_exists.mp hs
    have hcareless : ¬ Careful p (.run 0 .control) := fun hcareful => by
      rw [(isCareful_iff p _).mpr hcareful] at hc
      cases hc
    obtain ⟨g, i, gen, gen'', p'', -, -, hs', hgen'', hdrop⟩ :=
      reconfigure_without_outage.2 p p' _ hs hcareless
    exact ⟨p, p', p'', g, i, gen'', hs, hs', hgen'', by omega⟩

end EdenLogger.RecordRouting
