import EdenLogger.GaugeUnderflow
import EdenLogger.RetryDelay
import EdenLogger.OtlpMapper

/-!
# Panics of the worker

Every step of the worker comes with the operations it executes that panic on some
operands. A panic ends the worker, while submissions still find the sink and fill
its queues. All operands but those of one operation stay in range whatever the
records and the collector's answers are; the deadline of a batch is added to a
clock reading without a check, and its duration has no upper bound.
-/

namespace EdenLogger.WorkerPanics

open MachineWord RequestSizer ExporterConfig ExporterLanes LogCollector GenerationState
open GenerationStep GenerationMoves RunRules LaneTable RecordFlow FlushSoundness HandleProgram
open CapacityAccount QueueAccounting GaugeUnderflow RetryDelay
open LogRecord (Text)
open JsonEscape (asBytes)
open OtlpMapper (hexNibble)

variable {L : Type}

/-! ## Operations that may panic -/

/-- What the build and the platform decide. -/
structure Target where
  /-- Whether debug assertions are compiled in. -/
  debugAssertions : Bool
  /-- The latest instant of the clock. -/
  latest : ℕ

/-- Operations that panic on some operands. -/
inductive Operation where
  /-- An instant and a duration are added. -/
  | addInstant (reading delay : ℕ)
  /-- Two lengths are added. -/
  | add (a b : ℕ)
  /-- Two bytes are added. -/
  | addByte (a b : ℕ)
  /-- A length is subtracted from another. -/
  | sub (a b : ℕ)
  /-- A remainder or a quotient by a divisor. -/
  | divide (divisor : ℕ)
  /-- A word of some width is shifted. -/
  | shift (amount width : ℕ)
  /-- A list of some length is indexed. -/
  | index (i length : ℕ)
  /-- A list of some length is cut at a position. -/
  | cut (position length : ℕ)
  /-- A debug assertion. -/
  | assertion (holds : Bool)

/-- Whether an operation is defined on its operands. Lengths are words. -/
def Operation.isDefined (target : Target) : Operation → Bool
  | .addInstant reading delay => decide (reading + delay ≤ target.latest)
  | .add a b => decide (a + b ≤ wordMax)
  | .addByte a b => decide (a + b < 256)
  | .sub a b => decide (b ≤ a)
  | .divide divisor => decide (0 < divisor)
  | .shift amount width => decide (amount < width)
  | .index i length => decide (i < length)
  | .cut position length => decide (position ≤ length)
  | .assertion holds => !target.debugAssertions || holds

/-- Whether all of some operations are defined. -/
def allDefined (target : Target) (operations : List Operation) : Bool :=
  operations.all (Operation.isDefined target)

/-! ## Operations of the source's functions -/

/-- `varint_len`, with the fuel of its loop. -/
def varintLenOperations : ℕ → ℕ → ℕ → List Operation
  | 0, _, _ => []
  | fuel + 1, value, encodedLen =>
    if value ≥ 128 then
      .shift 7 64 :: .add encodedLen 1 :: varintLenOperations fuel (value / 128) (encodedLen + 1)
    else []

/-- `length_delimited_field_len`. -/
def fieldLenOperations (payloadLen : ℕ) : List Operation := varintLenOperations 10 payloadLen 1

/-- `ExportRequestSizer::new`. -/
def newSizerOperations (x : Exporter L) : List Operation :=
  fieldLenOperations x.resource.length ++
    fieldLenOperations (scopeMessage x.config.scopeName).length

/-- `ExportRequestSizer::encoded_len`. -/
def encodedLenOperations (sizer : ExportRequestSizer) (recordsEncodedLen : ℕ) : List Operation :=
  let scopeLogsLen := saturatingAdd sizer.scopeFieldLen recordsEncodedLen
  let resourceLogsLen :=
    saturatingAdd sizer.resourceFieldLen (lengthDelimitedFieldLen scopeLogsLen)
  fieldLenOperations scopeLogsLen ++ fieldLenOperations resourceLogsLen

/-- The locked section of `drain_into`. -/
def snapshotOperations (registry : LaneRegistry) (keep : ℕ → Bool) : List Operation :=
  let lanes := registry.lanes.filter keep
  let start := registry.cursor % lanes.length
  .sub registry.lanes.length lanes.length ::
    if lanes.length = 0 then []
    else
      .divide lanes.length ::
        ((List.range lanes.length).flatMap fun offset =>
            [.add start offset, .divide lanes.length,
              .index ((start + offset) % lanes.length) lanes.length]) ++
          [.add start 1, .divide lanes.length]

/-- One pass of `drain_batches`, with the records drained before. -/
def passOperations {α : Type*} : ℕ → List (List α) → List Operation
  | _, [] => []
  | drained, source :: rest =>
    let take := min drainQuantum source.length
    .add drained take :: .cut take source.length :: passOperations (drained + take) rest

/-- The loop of `drain_batches`, with its fuel. -/
def loopOperations {α : Type*} : ℕ → List (List α) → List Operation
  | 0, _ => []
  | fuel + 1, queues =>
    passOperations 0 queues ++
      if (RoundRobin.passTaken drainQuantum queues).length = 0 then []
      else loopOperations fuel (RoundRobin.passLeft drainQuantum queues)

/-- `drain_batches`. -/
def drainOperations (q : QueueKind) (batches : List (LaneQueues L)) : List Operation :=
  loopOperations (RoundRobin.held (kindQueues q batches) + 1) (kindQueues q batches)

/-- `drain_into` behind the locked section: both kinds are moved, and the pairs recycled. -/
def detachOperations (detached : List (ℕ × LaneQueues L)) (input : LaneQueues L) :
    List Operation :=
  let batches := detached.map Prod.snd
  drainOperations .reserved batches ++
    drainOperations .normal (drainBatches .reserved batches input.reserved).1 ++
      (emptied detached input).map fun p => .assertion p.2.isEmpty

/-- `retry_delay`. -/
def retryDelayOperations (failures : ℕ) : List Operation :=
  [.shift (exponent failures) 128, .divide 51, .divide 100]

/-- The answer to a request: a refused record is looked at alone, a refused part is split. -/
def answerOperations (e : Attempt) : Reply → List Operation
  | .invalidPayload =>
    if e.records.length = 1 then [.index 0 e.records.length]
    else [.divide 2, .cut (e.records.length / 2) e.records.length]
  | .retryable => retryDelayOperations (min (e.failures + 1) u32Max)
  | .ok _ _ | .fatal => []

/-- The sum of the retained lengths, with what was added before. -/
def retainedOperations : ℕ → List (List MappedLog) → List Operation
  | _, [] => []
  | total, part :: rest =>
    .add total part.length :: retainedOperations (total + part.length) rest

/-- The check of a record's size. -/
def sizeOperations (x : Exporter L) (r : MappedLog) : List Operation :=
  fieldLenOperations r.record.length ++ encodedLenOperations (requestSizer x) (recordFieldLen r)

/-- `hex_nibble`. -/
def hexNibbleOperations (value : UInt8) : List Operation :=
  if 0x30 ≤ value ∧ value ≤ 0x39 then [.sub value.toNat 0x30]
  else if 0x61 ≤ value ∧ value ≤ 0x66 then
    [.sub value.toNat 0x61, .addByte (value.toNat - 0x61) 10]
  else if 0x41 ≤ value ∧ value ≤ 0x46 then
    [.sub value.toNat 0x41, .addByte (value.toNat - 0x41) 10]
  else []

/-- The loop of `decode_hex_id`, from an index of its output on. It ends at the first character
that is no digit. -/
def decodePairsOperations (n : ℕ) : ℕ → List UInt8 → List Operation
  | index, high :: low :: rest =>
    .index 0 2 :: hexNibbleOperations high ++
      if (hexNibble high).isNone then []
      else
        .shift 4 8 :: .index 1 2 :: hexNibbleOperations low ++
          if (hexNibble low).isNone then []
          else .index index n :: decodePairsOperations n (index + 1) rest
  | _, _ => []

/-- `decode_hex_id`, which mapping a record calls for its ids. -/
def decodeHexIdOperations (n : ℕ) : Option Text → List Operation
  | none => []
  | some value =>
    if (asBytes value).length ≠ n * 2 then [] else decodePairsOperations n 0 (asBytes value)

/-- The operations of the worker's next step, the clock showing `reading`. Lengths saturate and
atomic counters wrap elsewhere. -/
def operations (x : Exporter L) (reading : ℕ) (o : Oracle) (w : World L) (k : Worker L) :
    List Operation :=
  match k.pc with
  | .drain _ => snapshotOperations w.registry (keepLane w o)
  | .take _ [] detached => detachOperations detached k.input
  | .pop _ =>
    match k.input.popFront with
    | none => []
    | some (log, _) => [.assertion (decide (0 < w.metrics.queueDepth.get log.queue))]
  | .release _ log => [.assertion (decide (log.bytes ≤ w.metrics.queueBytes.get log.queue))]
  | .first r =>
    sizeOperations x r ++
      if isOversize x r then [] else [.addInstant reading x.config.maxBatchDelay]
  | .offer a r =>
    sizeOperations x r ++
      if isOversize x r then []
      else encodedLenOperations (requestSizer x) (addRecord a r).recordsEncodedLen
  | .awaitReply e => answerOperations e o.reply
  | .terminalInflight retained => retainedOperations 0 retained
  | _ => []

/-! ## Operations that are always defined -/

variable {x : Exporter L} {s s' : State L} {target : Target}

@[simp] theorem allDefined_nil : allDefined target [] = true := rfl

@[simp] theorem allDefined_cons (operation : Operation) (rest : List Operation) :
    allDefined target (operation :: rest) =
      (operation.isDefined target && allDefined target rest) := rfl

@[simp] theorem allDefined_append (operations rest : List Operation) :
    allDefined target (operations ++ rest) =
      (allDefined target operations && allDefined target rest) := List.all_append

/-- The groups of a word are few. -/
theorem varintLen_defined {fuel encodedLen : ℕ} (h : encodedLen + fuel ≤ wordMax) (value : ℕ) :
    allDefined target (varintLenOperations fuel value encodedLen) = true := by
  induction fuel generalizing value encodedLen with
  | zero => rfl
  | succ fuel ih =>
    rw [varintLenOperations]
    split
    · have hadd : encodedLen + 1 ≤ wordMax := by omega
      have hrest : encodedLen + 1 + fuel ≤ wordMax := by omega
      simp only [allDefined_cons, Operation.isDefined, hadd, ih hrest, decide_true,
        show 7 < 64 by decide, Bool.and_self]
    · rfl

@[simp] theorem fieldLen_defined (payloadLen : ℕ) :
    allDefined target (fieldLenOperations payloadLen) = true :=
  varintLen_defined (by decide) payloadLen

@[simp] theorem newSizer_defined (x : Exporter L) :
    allDefined target (newSizerOperations x) = true := by
  simp [newSizerOperations]

@[simp] theorem encodedLen_defined (sizer : ExportRequestSizer) (recordsEncodedLen : ℕ) :
    allDefined target (encodedLenOperations sizer recordsEncodedLen) = true := by
  simp [encodedLenOperations]

@[simp] theorem size_defined (x : Exporter L) (r : MappedLog) :
    allDefined target (sizeOperations x r) = true := by
  simp [sizeOperations]

/-- The cursor is reduced by a count of lanes that is not zero, and no more lanes are kept than
there were. -/
theorem snapshot_defined {registry : LaneRegistry} (h : 2 * registry.lanes.length ≤ wordMax)
    (keep : ℕ → Bool) : allDefined target (snapshotOperations registry keep) = true := by
  have hkept : (registry.lanes.filter keep).length ≤ registry.lanes.length :=
    List.length_filter_le _ _
  unfold snapshotOperations
  dsimp only
  generalize (registry.lanes.filter keep).length = kept at hkept ⊢
  split
  · simp [Operation.isDefined, hkept]
  · rename_i hzero
    have hpos : 0 < kept := Nat.pos_of_ne_zero hzero
    have hstart : registry.cursor % kept < kept := Nat.mod_lt _ hpos
    have hoffsets : allDefined target ((List.range kept).flatMap fun offset =>
        [.add (registry.cursor % kept) offset, .divide kept,
          .index ((registry.cursor % kept + offset) % kept) kept]) = true := by
      simp only [allDefined, List.all_flatMap, List.all_eq_true, List.mem_range]
      intro offset hoffset
      have hadd : registry.cursor % kept + offset ≤ wordMax := by omega
      simp [Operation.isDefined, hadd, hpos, Nat.mod_lt _ hpos]
    have hnext : registry.cursor % kept + 1 ≤ wordMax := by omega
    simp only [allDefined_cons, allDefined_append, allDefined_nil, Operation.isDefined, hkept, hpos,
      hoffsets, hnext, decide_true, Bool.and_self]

/-- A pass takes no more from a queue than it holds, and no more altogether than all hold. -/
theorem pass_defined {α : Type*} {drained : ℕ} {queues : List (List α)}
    (h : drained + RoundRobin.held queues ≤ wordMax) :
    allDefined target (passOperations drained queues) = true := by
  induction queues generalizing drained with
  | nil => rfl
  | cons source rest ih =>
    have hheld : RoundRobin.held (source :: rest) = source.length + RoundRobin.held rest := by
      simp only [RoundRobin.held, List.map_cons, List.sum_cons]
    have hcut : min drainQuantum source.length ≤ source.length := Nat.min_le_right _ _
    have hadd : drained + min drainQuantum source.length ≤ wordMax := by omega
    have hrest := @ih (drained + min drainQuantum source.length) (by omega)
    simp only [passOperations, allDefined_cons, Operation.isDefined, hadd, hcut, hrest, decide_true,
      Bool.and_self]

/-- So do all passes. -/
theorem loop_defined {α : Type*} (fuel : ℕ) {queues : List (List α)}
    (h : RoundRobin.held queues ≤ wordMax) :
    allDefined target (loopOperations fuel queues) = true := by
  induction fuel generalizing queues with
  | zero => rfl
  | succ fuel ih =>
    have hpass := RoundRobin.held_pass drainQuantum queues
    have hleft := @ih (RoundRobin.passLeft drainQuantum queues) (by omega)
    have htaken : allDefined target (passOperations 0 queues) = true :=
      pass_defined (by omega)
    rw [loopOperations, allDefined_append, htaken]
    split
    · rfl
    · exact hleft

/-- The queues of one kind hold some of the detached records. -/
theorem held_kindQueues_le (q : QueueKind) (detached : List (ℕ × LaneQueues L)) :
    RoundRobin.held (kindQueues q (detached.map Prod.snd)) ≤ (detachedRecords detached).length := by
  have hlength := (kindQueues_perm (detached.map Prod.snd)).length_eq
  rw [List.length_append, List.length_flatten, List.length_flatten, List.flatMap_map] at hlength
  unfold RoundRobin.held detachedRecords
  cases q <;> omega

/-- Detached records are moved without a panic, and what is recycled is empty. -/
theorem detach_defined {detached : List (ℕ × LaneQueues L)}
    (h : (detachedRecords detached).length ≤ wordMax) (input : LaneQueues L) :
    allDefined target (detachOperations detached input) = true := by
  have hreserved := (held_kindQueues_le .reserved detached).trans h
  have hnormal := (held_kindQueues_le .normal detached).trans h
  rw [← drainBatches_other (q := .reserved) (by decide) (detached.map Prod.snd) input.reserved]
    at hnormal
  have hempty : allDefined target
      ((emptied detached input).map fun p => .assertion p.2.isEmpty) = true := by
    simp only [allDefined, List.all_map, List.all_eq_true, Function.comp, Operation.isDefined,
      Bool.or_eq_true]
    exact fun p hp => Or.inr ((LaneQueues.isEmpty_iff _).mpr (emptied_records detached input p hp))
  simp only [detachOperations, drainOperations, allDefined_append, loop_defined _ hreserved,
    loop_defined _ hnormal, hempty, Bool.and_self]

/-- The exponent of a backoff is below the width of its word. -/
theorem retryDelay_defined (failures : ℕ) :
    allDefined target (retryDelayOperations failures) = true := by
  have hexponent : exponent failures < 128 := by
    unfold exponent
    omega
  simp [retryDelayOperations, Operation.isDefined, hexponent]

/-- A refused record is the first of its part, and a part is cut inside. -/
theorem answer_defined (e : Attempt) (reply : Reply) :
    allDefined target (answerOperations e reply) = true := by
  cases reply with
  | ok | fatal => rfl
  | retryable => exact retryDelay_defined _
  | invalidPayload =>
    rw [answerOperations]
    by_cases halone : e.records.length = 1
    · simp [Operation.isDefined, halone]
    · have hhalf : e.records.length / 2 ≤ e.records.length := Nat.div_le_self _ _
      simp [Operation.isDefined, halone, hhalf]

/-- Digits are taken off their first one, and a letter adds ten to less than six. -/
theorem hexNibble_defined (value : UInt8) :
    allDefined target (hexNibbleOperations value) = true := by
  unfold hexNibbleOperations
  simp only [UInt8.le_iff_toNat_le, UInt8.reduceToNat]
  split_ifs <;> simp [Operation.isDefined] <;> omega

/-- A pair of digits has an index of the output. -/
theorem decodePairs_defined {n index : ℕ} {bytes : List UInt8}
    (h : 2 * index + bytes.length ≤ 2 * n) :
    allDefined target (decodePairsOperations n index bytes) = true := by
  fun_induction decodePairsOperations n index bytes with
  | case1 index high low rest ih =>
    simp only [List.length_cons] at h
    have hindex : index < n := by omega
    have hrest := ih (by omega)
    have hhigh : allDefined target (hexNibbleOperations high) = true := hexNibble_defined high
    have hlow : allDefined target (hexNibbleOperations low) = true := hexNibble_defined low
    split_ifs <;> simp [Operation.isDefined, hhigh, hlow, hindex, hrest]
  | case2 => rfl

/-- Whatever an id is, decoding it does not panic. -/
theorem decodeHexId_defined (n : ℕ) (id : Option Text) :
    allDefined target (decodeHexIdOperations n id) = true := by
  unfold decodeHexIdOperations
  split
  · rfl
  · split
    · rfl
    · exact decodePairs_defined (by omega)

/-- Retained records are counted without an overflow. -/
theorem retained_defined {total : ℕ} {retained : List (List MappedLog)}
    (h : total + retained.flatten.length ≤ wordMax) :
    allDefined target (retainedOperations total retained) = true := by
  induction retained generalizing total with
  | nil => rfl
  | cons part rest ih =>
    rw [List.flatten_cons, List.length_append] at h
    have hadd : total + part.length ≤ wordMax := by omega
    have hrest := @ih (total + part.length) (by omega)
    simp only [retainedOperations, allDefined_cons, Operation.isDefined, hadd, hrest, decide_true,
      Bool.and_self]

/-! ## The deadline of a batch -/

/-- Whether the worker's next step starts a batch. -/
def startsBatch (x : Exporter L) : WorkerPc L → Bool
  | .first r => !isOversize x r
  | _ => false

/-- What lies in memory has lengths that are words. -/
structure Addressable (s : State L) : Prop where
  lanes : 2 * s.world.registry.lanes.length ≤ wordMax
  queued : (queued s.world s.worker).length ≤ wordMax
  parts : (held s.worker.pc).parts.length ≤ wordMax

/-- A release gives back no more than the gauge has. -/
def Covers (s : State L) : Prop :=
  ∀ m q n, releases s.worker = some (m, q, n) → n ≤ gauge s.world m q

/-- The operations of a step are all defined exactly when the step starts no batch, or the
deadline of the batch is representable. -/
theorem allDefined_operations (h : Addressable s) (hc : target.debugAssertions = true → Covers s)
    (reading : ℕ) (o : Oracle) :
    allDefined target (operations x reading o s.world s.worker) =
      (!startsBatch x s.worker.pc ||
        decide (reading + x.config.maxBatchDelay ≤ target.latest)) := by
  have hassert : ∀ {m q n}, releases s.worker = some (m, q, n) →
      target.debugAssertions = false ∨ n ≤ gauge s.world m q := by
    intro m q n hn
    cases hd : target.debugAssertions with
    | false => exact Or.inl rfl
    | true => exact Or.inr (hc hd m q n hn)
  unfold operations
  cases hpc : s.worker.pc
  case drain d => simp [startsBatch, snapshot_defined h.lanes]
  case take d todo detached =>
    cases todo with
    | cons => rfl
    | nil =>
      have hqueued := h.queued
      rw [RecordFlow.queued, hpc] at hqueued
      simp only [List.length_append, held] at hqueued
      have hdetached : (detachedRecords detached).length ≤ wordMax := by omega
      exact detach_defined hdetached s.worker.input
  case pop site =>
    cases hi : s.worker.input.popFront with
    | none => rfl
    | some popped =>
      have hn : releases s.worker = some (.records, popped.1.queue, 1) := by
        simp only [releases, hpc, hi, Option.map_some]
      have hd : target.debugAssertions = false ∨
          0 < s.world.metrics.queueDepth.get popped.1.queue := hassert hn
      simpa [startsBatch, Operation.isDefined] using hd
  case release site log =>
    have hn : releases s.worker = some (.bytes, log.queue, log.bytes) := by
      simp only [releases, hpc]
    have hd : target.debugAssertions = false ∨
        log.bytes ≤ s.world.metrics.queueBytes.get log.queue := hassert hn
    simpa [startsBatch, Operation.isDefined] using hd
  case first r =>
    cases ho : isOversize x r <;> simp [startsBatch, Operation.isDefined, ho]
  case offer b r =>
    cases ho : isOversize x r <;> simp [startsBatch, ho]
  case awaitReply e => simp [startsBatch, answer_defined]
  case terminalInflight retained =>
    have hparts := h.parts
    rw [hpc] at hparts
    simp only [held] at hparts
    exact retained_defined (by omega)
  all_goals rfl

/-! ## Runs that end with a panic -/

/-- A step with the clock reading it finds. -/
def clockedStep (x : Exporter L) (s : State L) (a : Action L × ℕ) : Option (State L) := step x s a.1

/-- Whether a step is one of the worker that panics. -/
def panics (target : Target) (x : Exporter L) (s : State L) (a : Action L × ℕ) : Bool :=
  match a.1 with
  | .worker o => !allDefined target (operations x a.2 o s.world s.worker)
  | _ => false

/-- If the step starts a batch, the deadline of the batch is representable. -/
def DeadlineFits (target : Target) (x : Exporter L) (s : State L) (a : Action L × ℕ) : Prop :=
  ∀ o, a.1 = .worker o → startsBatch x s.worker.pc = true →
    a.2 + x.config.maxBatchDelay ≤ target.latest

/-- The condition on every step of a run. -/
structure Safe (target : Target) (x : Exporter L) (s : State L) (a : Action L × ℕ) : Prop where
  /-- The deadline of a batch is representable. -/
  deadline : DeadlineFits target x s a
  /-- The state is one a machine can hold. -/
  addressable : Addressable s
  /-- Where gauges are asserted, no addition wraps one. -/
  claims : target.debugAssertions = true → NoWrap x s a.1

/-- Where gauges are asserted, they cover what the worker gives back. -/
theorem covers_of_run {o : Oracle}
    (h : ReachWhile (clockedStep x) (Safe target x) (State.init L) s)
    (hs : step x s (.worker o) = some s') (hd : target.debugAssertions = true) : Covers s := by
  intro m q n hn
  have hrun : ReachWhile (step x) (NoWrap x) (State.init L) s :=
    h.forget (f := Prod.fst) fun _ _ ha => ha.claims hd
  have hreset := released_before_reset (handleLaw hrun) hs hn
  exact covered_before_reset (a := .worker o) hrun hreset hn

/-- Behind a run of safe steps a step panics exactly when it starts a batch whose deadline is not
representable. -/
theorem panics_iff {a : Action L × ℕ}
    (h : ReachWhile (clockedStep x) (Safe target x) (State.init L) s) (ha : Addressable s)
    (hs : clockedStep x s a = some s') :
    panics target x s a = true ↔ ¬ DeadlineFits target x s a := by
  obtain ⟨action, reading⟩ := a
  unfold panics DeadlineFits
  cases action with
  | worker o =>
    dsimp only
    rw [allDefined_operations ha fun hd => covers_of_run h hs hd]
    simp
  | _ => simp

/-- Instants whose seconds are a signed word. -/
def signedSeconds (debugAssertions : Bool) : Target where
  debugAssertions := debugAssertions
  latest := 9223372036854775807 * 1000000000 + 999999999

/-- Steps of the small exporter, one second after the clock's origin. -/
def atOneSecond (as : List (Action ℕ)) : List (Action ℕ × ℕ) := as.map fun a => (a, 1000000000)

/-- The small exporter with the longest batch delay. -/
def patient : Exporter ℕ :=
  { sample with config := { sampleConfig with maxBatchDelay := durationMax } }

/-- A check for safe steps of the small exporter. -/
def safeCheck (p : State ℕ × Bool) (a : Action ℕ × ℕ) : Bool :=
  decide (a.2 + sample.config.maxBatchDelay ≤ (signedSeconds true).latest) &&
    decide (2 * p.1.world.registry.lanes.length ≤ wordMax) &&
    decide ((queued p.1.world p.1.worker).length ≤ wordMax) &&
    decide ((held p.1.worker.pc).parts.length ≤ wordMax) && carefulCheck (p.1, Since.new) a.1

/-- Steps that pass it are safe. -/
theorem safe_of_check (p : State ℕ × Bool) (a : Action ℕ × ℕ) (h : safeCheck p a = true) :
    Safe (signedSeconds true) sample p.1 a := by
  simp only [safeCheck, Bool.and_eq_true, decide_eq_true_eq] at h
  obtain ⟨⟨⟨⟨hdeadline, hlanes⟩, hqueued⟩, hparts⟩, hclaims⟩ := h
  exact ⟨fun _ _ _ => hdeadline, ⟨hlanes, hqueued, hparts⟩,
    fun _ => (careful_of_check (p.1, Since.new) a.1 hclaims).1⟩

end EdenLogger.WorkerPanics
