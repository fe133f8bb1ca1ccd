import EdenLogger.CallHistory
import EdenLogger.ExporterConfig
import EdenLogger.RunRules

/-!
# The runtime level filter

The filter is a byte with one bit for each level. Zero allows every level, and
bit 7 alone allows none. A second atomic says whether the environment has been
read. Calls that change the byte load it and store it in separate steps, and
then mark the filter as initialized; the first check reads the environment.
-/

namespace EdenLogger.LevelFilter

open ExporterConfig CallHistory RunRules

/-! ## Masks -/

/-- `1 << (level as u8)`. -/
def levelBit (level : LogLevel) : UInt8 := 1 <<< UInt8.ofNat level.rank

/-- `trim`. -/
def trim (s : List Char) : List Char :=
  ((s.dropWhile isWhitespace).reverse.dropWhile isWhitespace).reverse

/-- The level a part names. No letter outside ASCII has a lower case that is made
of letters of these names, so the ASCII lower case decides. -/
def levelOfName (part : List Char) : Option LogLevel :=
  let name := (trim part).map Char.toLower
  if name = "trace".toList then some .trace
  else if name = "debug".toList then some .debug
  else if name = "info".toList then some .info
  else if name = "warn".toList then some .warn
  else if name = "error".toList then some .error
  else none

/-- The mask of a value. -/
def initMask (value : List Char) : UInt8 :=
  let trimmed := (trim value).map Char.toLower
  if trimmed = [] ∨ trimmed = "none".toList ∨ trimmed = "off".toList then 0x80
  else ((value.splitOn ';').filterMap levelOfName).foldl (fun mask l => mask ||| levelBit l) 0

/-- Whether a mask allows a level. -/
def allows (enabled : UInt8) (level : LogLevel) : Bool :=
  if enabled = 0x80 then false
  else if enabled = 0 then true
  else decide (enabled &&& levelBit level ≠ 0)

/-- The levels a mask allows. -/
def enabledLevels (enabled : UInt8) : List LogLevel :=
  [LogLevel.trace, .debug, .info, .warn, .error].filter (allows enabled)

/-! ## Calls -/

/-- A call. -/
inductive Op where
  | enableLevels (levels : List LogLevel)
  | disableLevels (levels : List LogLevel)
  | clearFilter
  | initFromValue (value : List Char)
  | shouldLog (level : LogLevel)

/-- Whether the call is a check. -/
def Op.isUse : Op → Bool
  | .shouldLog _ => true
  | _ => false

/-- Whether the call loads the mask that it changes. -/
def Op.loads : Op → Bool
  | .enableLevels _ | .disableLevels _ => true
  | _ => false

/-- The mask it stores. -/
def Op.apply : Op → UInt8 → UInt8
  | .enableLevels levels, mask => levels.foldl (fun mask l => mask ||| levelBit l) mask
  | .disableLevels levels, mask => levels.foldl (fun mask l => mask &&& ~~~levelBit l) mask
  | .clearFilter, _ => 0
  | .initFromValue value, _ => initMask value
  | .shouldLog _, mask => mask

/-- What it returns. -/
def Op.answer (enabled : UInt8) : Op → Option Bool
  | .shouldLog level => some (allows enabled level)
  | _ => none

/-- `FILTER_STATE`. -/
inductive FilterState where
  | uninitialized
  | initializing
  | initialized
  deriving DecidableEq

/-- The next atomic operation of a call. -/
inductive Pc where
  /-- Load the mask. -/
  | loadEnabled
  /-- Store the mask, which was loaded if the call loads it. -/
  | storeEnabled (loaded : UInt8)
  /-- Mark the filter as initialized. -/
  | storeState
  /-- Load the state. -/
  | loadState
  /-- Exchange the state, if it is uninitialized. -/
  | exchangeState
  /-- Load the state again. -/
  | spin
  /-- Store the mask of the environment. -/
  | storeEnv (mask : UInt8)
  /-- Mark the filter as initialized, behind the mask. -/
  | storeEnvState
  /-- Mark the filter as initialized, with or without a mask. -/
  | storeInitState
  /-- Load the mask to check a level. -/
  | readEnabled
  /-- Returned. -/
  | done (answer : Option Bool)
  deriving DecidableEq

/-- Whether a call has returned. -/
def Pc.isDone : Pc → Bool
  | .done _ => true
  | _ => false

/-- Where a call begins. -/
def Op.start : Op → Pc
  | .enableLevels _ | .disableLevels _ => .loadEnabled
  | .clearFilter | .initFromValue _ => .storeEnabled 0
  | .shouldLog _ => .loadState

/-! ## Runs -/

/-- The two atomics and the calls. -/
structure State where
  enabled : UInt8
  filterState : FilterState
  calls : List (Call Op Pc)

/-- A call begins, or takes a step. -/
inductive Action where
  | call (op : Op)
  | step (i : ℕ)

/-- Where a check goes on once it has loaded a state that it cannot exchange. -/
def afterLoad : FilterState → Pc
  | .initialized => .readEnabled
  | _ => .spin

/-- One atomic operation of a call, with the environment variable. -/
def advance (env : Option (List Char)) (s : State) (op : Op) : Pc →
    Option (UInt8 × FilterState × Pc)
  | .loadEnabled => some (s.enabled, s.filterState, .storeEnabled s.enabled)
  | .storeEnabled loaded => some (op.apply loaded, s.filterState, .storeState)
  | .storeState => some (s.enabled, .initialized, .done none)
  | .loadState => some (s.enabled, s.filterState,
      if s.filterState = .uninitialized then .exchangeState else afterLoad s.filterState)
  | .exchangeState =>
    if s.filterState = .uninitialized then
      some (s.enabled, .initializing,
        match env with
        | some value => .storeEnv (initMask value)
        | none => .storeInitState)
    else some (s.enabled, s.filterState, afterLoad s.filterState)
  | .spin => some (s.enabled, s.filterState, afterLoad s.filterState)
  | .storeEnv mask => some (mask, s.filterState, .storeEnvState)
  | .storeEnvState => some (s.enabled, .initialized, .storeInitState)
  | .storeInitState => some (s.enabled, .initialized, .readEnabled)
  | .readEnabled => some (s.enabled, s.filterState, .done (op.answer s.enabled))
  | .done _ => none

/-- Move a call. -/
def State.move (s : State) (i : ℕ) (c : Call Op Pc) (r : UInt8 × FilterState × Pc) : State :=
  ⟨r.1, r.2.1, s.calls.set i { c with pc := r.2.2 }⟩

/-- Begin a call. -/
def State.begin (s : State) (op : Op) : State :=
  { s with calls := s.calls ++ [⟨op, op.start, finished Pc.isDone s.calls⟩] }

/-- One action. -/
def step (env : Option (List Char)) (s : State) : Action → Option State
  | .call op => some (s.begin op)
  | .step i => s.calls[i]?.bind fun c => (advance env s c.op c.pc).map (s.move i c)

/-- No call has begun. -/
def init : State := ⟨0, .uninitialized, []⟩

/-- Every call has returned. -/
def State.allDone (s : State) : Bool := s.calls.all fun c => c.pc.isDone

/-! ## One call after the other -/

/-- A call on its own: a check reads the environment if nothing was called before. -/
def Op.execute (env : Option (List Char)) (s : UInt8 × Bool) (op : Op) : UInt8 × Bool :=
  if op.isUse then (if s.2 then s.1 else (env.map initMask).getD s.1, true)
  else (op.apply s.1, true)

/-- The mask after calls one after the other. -/
def sequential (env : Option (List Char)) (ops : List Op) : UInt8 × Bool :=
  ops.foldl (Op.execute env) (0, false)

/-- A check has begun under the number. -/
def UseAt (s : State) (i : ℕ) : Prop := ∃ c, s.calls[i]? = some c ∧ c.op.isUse = true

/-- The first check. -/
def FirstUse (s : State) (i : ℕ) : Prop := UseAt s i ∧ ∀ j < i, ¬ UseAt s j

/-- The environment is read before the calls that overlap or follow the first
use: a check comes first, unless another call had returned before the first use began. -/
def EnvFirst (s : State) (order : List ℕ) : Prop :=
  ∀ i, FirstUse s i → (∀ j ∈ afterOf s.calls i, UseAt s j) →
    ∃ k, order.head? = some k ∧ UseAt s k

/-- The enabled levels are those of the calls one after the other, in an order
that agrees with real time and reads the environment first. -/
def Linearizable (env : Option (List Char)) (s : State) : Prop :=
  ∃ order : List ℕ, order.Perm (List.range s.calls.length) ∧ RealTime s.calls order ∧
    EnvFirst s order ∧
    enabledLevels s.enabled = enabledLevels (sequential env (opsOf s.calls order)).1

/-! ## The condition -/

/-- A check has begun, and the environment that it has to read is not stored yet. -/
def envPending (env : Option (List Char)) (s : State) : Bool :=
  env.isSome && s.calls.any (fun c => c.op.isUse) && decide (s.filterState ≠ .initialized) &&
    !s.calls.any fun c => decide (c.pc = .storeEnvState)

/-- A call has stored its mask and not yet marked the filter as initialized. -/
def betweenStores (s : State) : Bool := s.calls.any fun c => decide (c.pc = .storeState)

/-- The condition of every step. A mask that was loaded is still there when the
changed one is stored; with an environment to read, no call stores its mask while
it is pending, and the first check does not begin while another call is between
its two stores and none has finished. -/
def careful (env : Option (List Char)) (s : State) : Action → Bool
  | .call op => !(env.isSome && op.isUse && !s.calls.any (fun c => c.op.isUse) &&
      decide (s.filterState ≠ .initialized) && betweenStores s)
  | .step i => s.calls[i]?.all fun c =>
      match c.pc with
      | .storeEnabled loaded => (!c.op.loads || loaded == s.enabled) && !envPending env s
      | _ => true

end EdenLogger.LevelFilter
