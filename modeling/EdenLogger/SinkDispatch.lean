import EdenLogger.SinkHolders

/-!
# Dispatches beside registry operations

A dispatch reads the active count, then its thread's cache or the registry,
then the slot, and runs the callback it finds. A writer holds the registry's
lock from before it looks at the slot until after it has changed the slot and
then the count. Every access of shared memory is a step of its own, and the
steps of all parties interleave freely.
-/

namespace EdenLogger.SinkDispatch

open MachineWord RunRules SinkRegistry

variable {K : Type}

/-- Where a dispatch stands. -/
inductive DispatchPc where
  /-- Before reading `ACTIVE_SINKS`. -/
  | loadCount
  /-- Before searching the thread's cache. -/
  | findCached
  /-- Before the lookup under the read lock. -/
  | readRegistry
  /-- Slot resolved, before loading its callback. -/
  | loadCallback (p : ℕ)
  /-- Callback loaded, before building the record. -/
  | build (c : ℕ)
  /-- Record built, before the call. -/
  | call (c : ℕ)
  | returned
  deriving DecidableEq

/-- A dispatch. -/
structure Dispatch (K : Type) where
  /-- The thread whose cache it uses. -/
  thread : ℕ
  /-- The record's type. -/
  key : K
  /-- Where it stands. -/
  pc : DispatchPc
  /-- How often it built its record, a history variable. -/
  builds : ℕ
  /-- The callbacks it invoked, a history variable. -/
  calls : List ℕ

/-- Operations under the write lock. -/
inductive WriterOp (K : Type) where
  /-- `register_sink`, or `install_sink`, which forgets its registration. -/
  | register (key : K) (fate : Fate)
  | replace (i : ℕ)
  /-- `disable`, or the destructor. -/
  | release (i : ℕ) (fate : Fate)
  deriving DecidableEq

/-- Where a writer stands. -/
inductive WriterPc where
  /-- Before acquiring the lock. -/
  | lock
  /-- Locked, before looking at the slot. -/
  | check
  /-- Before storing the slot's callback. -/
  | store (p : ℕ)
  /-- Stored, before changing the count. -/
  | count
  /-- Before releasing the lock. -/
  | unlock (ok : Bool)
  | returned (ok : Bool)
  deriving DecidableEq

/-- An operation in progress, with the registration it makes or works on. -/
structure Writer (K : Type) where
  /-- What it does. -/
  op : WriterOp K
  /-- Where it stands. -/
  pc : WriterPc
  /-- Its registration. -/
  holder : Option ℕ
  deriving DecidableEq

/-- Whether a writer has returned. -/
def WriterPc.isReturned : WriterPc → Bool
  | .returned _ => true
  | _ => false

/-- Whether a writer holds the lock. -/
def WriterPc.locked : WriterPc → Bool
  | .check | .store _ | .count | .unlock _ => true
  | .lock | .returned _ => false

/-- The process, as far as sinks are concerned. -/
structure State (K : Type) where
  /-- Registry, registrations and caches. -/
  sinks : Sinks K
  /-- The writer that holds the lock. -/
  lock : Option ℕ
  /-- Writers by number. -/
  writers : List (Writer K)
  /-- Dispatches by number. -/
  dispatches : List (Dispatch K)

/-- Process start. -/
def State.init (K : Type) : State K := ⟨.new K, none, [], []⟩

/-- Who moves. -/
inductive Action (K : Type) where
  /-- A thread appears. -/
  | spawn
  /-- An operation begins. -/
  | begin (op : WriterOp K)
  /-- A writer takes a step. -/
  | write (n : ℕ)
  /-- A dispatch begins. -/
  | dispatch (thread : ℕ) (key : K)
  /-- A dispatch takes a step. -/
  | advance (d : ℕ)

/-- Whether an operation in progress has the registration. -/
def busy (s : State K) (i : ℕ) : Bool :=
  s.writers.any fun w => !w.pc.isReturned && decide (w.holder = some i)

/-- A registration whose owner may begin an operation. -/
def available (s : State K) (i : ℕ) : Option SinkRegistration :=
  if busy s i then none else s.sinks.live i

/-- Replace one holder. -/
def setHolder (s : Sinks K) (i : ℕ) (r : SinkRegistration) (fate : Fate) : Sinks K :=
  { s with holders := s.holders.set i ⟨r, fate⟩ }

/-- The beginning of an operation. A registration without a callback is found
inactive before the lock. -/
def beginOp (s : State K) (op : WriterOp K) : Option (State K) :=
  match op with
  | .register _ fate =>
    if fate = .dropped then none else some { s with writers := s.writers ++ [⟨op, .lock, none⟩] }
  | .replace i => (available s i).map fun r =>
    { s with writers := s.writers ++
        [⟨op, if r.callback.isSome then .lock else .returned false, some i⟩] }
  | .release i fate => (available s i).map fun r =>
    if r.callback.isSome then { s with writers := s.writers ++ [⟨op, .lock, some i⟩] }
    else { s with
      sinks := setHolder s.sinks i r fate
      writers := s.writers ++ [⟨op, .returned false, some i⟩] }

/-- Store a new registration's callback. -/
def occupySlot (s : Sinks K) (p : ℕ) (fate : Fate) : Sinks K :=
  { s with
    registry := s.registry.swap p
    holders := s.holders ++ [⟨⟨p, some s.registry.nextCallback⟩, fate⟩] }

/-- Store a replacement. -/
def exchangeSlot (s : Sinks K) (i p : ℕ) : Sinks K :=
  { s with
    registry := s.registry.swap p
    holders := s.holders.set i ⟨⟨p, some s.registry.nextCallback⟩, .live⟩ }

/-- Store no callback. -/
def emptySlot (s : Sinks K) (i p : ℕ) (fate : Fate) : Sinks K :=
  { s with
    registry := s.registry.store p none
    holders := s.holders.set i ⟨⟨p, none⟩, fate⟩
    released := s.released ++ [i] }

variable [DecidableEq K]

/-- The look at the slot under the lock. -/
def checkSlot (s : Sinks K) : WriterOp K → Option (Sinks K × WriterPc)
  | .register key _ => (s.registry.entry key).map fun e =>
    ({ s with registry := e.2 },
      match e.2.downcast key e.1 with
      | none => .unlock false
      | some slot => if slot.callback.isSome then .unlock false else .store e.1)
  | .replace i => (s.holders[i]?).map fun h =>
    (s, if s.registry.active h.registration.slot = h.registration.callback then
        .store h.registration.slot
      else .unlock false)
  | .release i fate => (s.holders[i]?).map fun h =>
    if s.registry.active h.registration.slot = h.registration.callback then
      (s, .store h.registration.slot)
    else (setHolder s i { h.registration with callback := none } fate, .unlock false)

/-- The store of the slot's callback, with the registration's own copy. -/
def storeSlot (s : Sinks K) (p : ℕ) : WriterOp K → Sinks K × WriterPc × Option ℕ
  | .register _ fate => (occupySlot s p fate, .count, some s.holders.length)
  | .replace i => (exchangeSlot s i p, .unlock true, some i)
  | .release i fate => (emptySlot s i p fate, .count, some i)

/-- The change of the count. -/
def countSlot (s : Sinks K) : WriterOp K → Sinks K
  | .register _ _ =>
    { s with registry := s.registry.recount (wrappingAdd s.registry.activeSinks 1) }
  | .replace _ => s
  | .release _ _ =>
    { s with registry := s.registry.recount (wrappingSub s.registry.activeSinks 1) }

/-- One step of a writer. -/
def writerStep (s : State K) (n : ℕ) (w : Writer K) : Option (State K) :=
  match w.pc with
  | .lock =>
    if s.sinks.registry.poisoned then
      some { s with writers := s.writers.set n { w with pc := .returned false } }
    else if s.lock.isNone then
      some { s with lock := some n, writers := s.writers.set n { w with pc := .check } }
    else none
  | .check => (checkSlot s.sinks w.op).map fun e =>
    { s with sinks := e.1, writers := s.writers.set n { w with pc := e.2 } }
  | .store p =>
    let e := storeSlot s.sinks p w.op
    some { s with sinks := e.1, writers := s.writers.set n { w with pc := e.2.1, holder := e.2.2 } }
  | .count =>
    some { s with
      sinks := countSlot s.sinks w.op
      writers := s.writers.set n { w with pc := .unlock true } }
  | .unlock ok =>
    some { s with lock := none, writers := s.writers.set n { w with pc := .returned ok } }
  | .returned _ => none

/-- One step of a dispatch, with the caches after it. -/
def dispatchStep (s : State K) (d : Dispatch K) : Option (List (List (K × ℕ)) × Dispatch K) :=
  match d.pc with
  | .loadCount =>
    some (s.sinks.caches,
      { d with pc := if s.sinks.registry.activeSinks = 0 then .returned else .findCached })
  | .findCached => (s.sinks.caches[d.thread]?).map fun cache =>
    (s.sinks.caches,
      { d with pc := match cache.find? fun e => decide (e.1 = d.key) with
        | some e => .loadCallback e.2
        | none => .readRegistry })
  | .readRegistry =>
    if s.lock.isSome then none
    else (s.sinks.caches[d.thread]?).map fun cache =>
      let e := resolveSink s.sinks.registry cache d.key
      (s.sinks.caches.set d.thread e.2,
        { d with pc := match e.1 with
          | some p => .loadCallback p
          | none => .returned })
  | .loadCallback p =>
    some (s.sinks.caches,
      { d with pc := match s.sinks.registry.active p with
        | some c => .build c
        | none => .returned })
  | .build c => some (s.sinks.caches, { d with pc := .call c, builds := d.builds + 1 })
  | .call c => some (s.sinks.caches, { d with pc := .returned, calls := d.calls ++ [c] })
  | .returned => none

/-- One step of the process. -/
def step (s : State K) : Action K → Option (State K)
  | .spawn => some { s with sinks.caches := s.sinks.caches ++ [[]] }
  | .begin op => beginOp s op
  | .write n => (s.writers[n]?).bind (writerStep s n)
  | .dispatch thread key =>
    if thread < s.sinks.caches.length then
      some { s with dispatches := s.dispatches ++ [⟨thread, key, .loadCount, 0, []⟩] }
    else none
  | .advance i => (s.dispatches[i]?).bind fun d => (dispatchStep s d).map fun e =>
    { s with sinks.caches := e.1, dispatches := s.dispatches.set i e.2 }

end EdenLogger.SinkDispatch
