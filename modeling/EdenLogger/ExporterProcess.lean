import EdenLogger.GenerationStep
import EdenLogger.SinkRegistry

/-!
# A process with exporters

A process holds the sink registry, the generations that were ever prepared,
the handles of their exporters and the threads with their lane caches. What
happens inside a generation is a step of that generation. Installing,
reconfiguring, shutting down and dropping an exporter, dispatching a record
and looking up a thread's lane involve more than one of these.
-/

namespace EdenLogger.ExporterProcess

open MachineWord RunRules ExporterConfig GenerationState SinkRegistry

variable {K L : Type}

/-- Failures of a reconfiguration. -/
inductive ReconfigureError where
  /-- The replacement could not be prepared. -/
  | install (error : InstallError)
  /-- The registration was not active. -/
  | sink (message : String)
  deriving DecidableEq, Repr

/-- A generation that was prepared. -/
structure Generation (K L : Type) where
  /-- The record type it is for. -/
  key : K
  /-- What it was prepared from. -/
  exporter : Exporter L
  /-- Its callback, unless that never got into a slot. -/
  callback : Option ℕ
  /-- Its parties. -/
  state : State L
  /-- Whether its collector was freed. -/
  freed : Bool
  /-- Dispatches that loaded its callback, a history variable. -/
  dispatched : ℕ
  /-- The threads that registered its lanes, by lane, a history variable. -/
  owners : List ℕ

/-- An exporter's handle. Shared state, collector and worker are named by the
number of the generation they belong to. -/
structure ExporterHandle (K : Type) where
  /-- Its record type. -/
  key : K
  shared : ℕ
  collector : ℕ
  worker : Option ℕ
  /-- The number of its registration. -/
  registration : Option ℕ
  /-- Whether a shutdown or the destructor has begun. -/
  consumed : Bool

/-- A thread, across generations. -/
structure Thread where
  /-- `LOCAL_PRODUCERS`: collectors with the thread's lane. -/
  producers : List (ℕ × ℕ)
  /-- Whether its destructors run. -/
  exiting : Bool

/-- The process. -/
structure Process (K L : Type) where
  /-- Registry, registrations and sink caches. -/
  sinks : Sinks K
  /-- Generations by collector number. -/
  generations : List (Generation K L)
  /-- Handles by number. -/
  handles : List (ExporterHandle K)
  /-- Threads by number. -/
  threads : List Thread

/-- Process start. -/
def Process.init (K L : Type) : Process K L := ⟨.new K, [], [], []⟩

/-! ## Preparing a generation -/

/-- What an exporter is prepared from, with the outcome of making its client. -/
structure Preparation (L : Type) where
  exporter : Exporter L
  client : Except String Unit

/-- The fallible part of `prepare_generation`. -/
def prepareGeneration (r : Preparation L) : Except InstallError (Exporter L) :=
  match r.exporter.config.validate with
  | .error error => .error error
  | .ok () =>
    match r.client with
    | .error message => .error (.transport message)
    | .ok () => .ok r.exporter

/-- A generation that no thread has used. -/
def preparedState (n : ℕ) : State L :=
  { State.init L with threads := List.replicate n ⟨.idle, none⟩ }

/-- A generation whose callback got into the slot. -/
def preparedGeneration (p : Process K L) (key : K) (x : Exporter L) (callback : Option ℕ) :
    Generation K L :=
  ⟨key, x, callback, preparedState p.threads.length, false, 0, []⟩

/-- A generation that is given up before its callback got into a slot. A
callback that was made is dropped, and then its fence fires. -/
def abandonedGeneration (p : Process K L) (key : K) (x : Exporter L) (made : Bool)
    (program : List ControlOp) : Generation K L :=
  let s : State L := preparedState p.threads.length
  ⟨key, x, none,
    { s with
      world.retired := true
      fence := if made then .armed else .done
      control := ⟨some .drop, program, false, 0⟩ },
    false, 0, []⟩

/-! ## The handle -/

variable [DecidableEq K]

/-- `install_on`. -/
def installOn (p : Process K L) (key : K) (r : Preparation L) :
    Option (Except InstallError Unit × Process K L) :=
  match prepareGeneration r with
  | .error error => some (.error error, p)
  | .ok x => (registerSink p.sinks.registry key).map fun e =>
    match e.1 with
    | .ok registration =>
      (.ok (), { p with
        sinks := { p.sinks with
          registry := e.2
          holders := p.sinks.holders ++ [⟨registration, .live⟩] }
        generations := p.generations ++
          [preparedGeneration p key x registration.callback]
        handles := p.handles ++
          [⟨key, p.generations.length, p.generations.length, some p.generations.length,
            some p.sinks.holders.length, false⟩] })
    | .error _ =>
      (.error .sinkAlreadyInstalled, { p with
        sinks.registry := e.2
        generations := p.generations ++
          [abandonedGeneration p key x true (stopAcceptance ++ [.abortWorker])] })

/-- The handle of an exporter that is not being shut down or dropped. -/
def liveHandle (p : Process K L) (h : ℕ) : Option (ExporterHandle K) :=
  (p.handles[h]?).filter fun handle => !handle.consumed

/-- The beginning of the old generation's drain, behind the swap of callbacks. -/
def retireGeneration (gen : Generation K L) : Option (Generation K L) :=
  ((GenerationStep.step gen.exporter gen.state (.command .reconfigure)).bind fun s =>
    GenerationStep.step gen.exporter s .control).map fun s => { gen with state := s }

/-- The synchronous part of `reconfigure`, up to its wait for the old worker. -/
def reconfigure (p : Process K L) (h : ℕ) (r : Preparation L) :
    Option (Except ReconfigureError Unit × Process K L) :=
  (liveHandle p h).bind fun handle =>
    match prepareGeneration r with
    | .error error => some (.error (.install error), p)
    | .ok x =>
      match handle.registration with
      | none =>
        some (.error (.sink "eden_logger exporter registration is inactive"), { p with
          generations := p.generations ++
            [abandonedGeneration p handle.key x false [.abortWorker]] })
      | some i => (p.sinks.holders[i]?).bind fun holder =>
        let e := replace p.sinks.registry holder.registration
        let sinks := { p.sinks with
          registry := e.2.2
          holders := p.sinks.holders.set i { holder with registration := e.2.1 } }
        match e.1 with
        | .error error =>
          some (.error (.sink error.text), { p with
            sinks := sinks
            generations := p.generations ++
              [abandonedGeneration p handle.key x true [.abortWorker]] })
        | .ok () => ((p.generations[handle.shared]?).bind retireGeneration).map fun gen =>
          (.ok (), { p with
            sinks := sinks
            generations := p.generations.set handle.shared gen ++
              [preparedGeneration p handle.key x e.2.1.callback]
            handles := p.handles.set h { handle with
              shared := p.generations.length
              collector := p.generations.length
              worker := some p.generations.length } })

/-- The beginning of `shutdown` or of the destructor. -/
def closeHandle (p : Process K L) (h : ℕ) (c : Command) : Option (Process K L) :=
  (liveHandle p h).bind fun handle => (p.generations[handle.shared]?).bind fun gen =>
    (GenerationStep.step gen.exporter gen.state (.command c)).map fun s =>
      { p with
        generations := p.generations.set handle.shared { gen with state := s }
        handles := p.handles.set h { handle with consumed := true } }

/-- The release of a registration that is taken out of its handle. -/
def releaseRegistration (s : Sinks K) : Option ℕ → Option (Sinks K)
  | none => some s
  | some i => (s.holders[i]?).map fun holder => (putBack s i .dropped holder.registration).2

/-- Disabling the sink on the way through a shutdown or the destructor. -/
def unregister (p : Process K L) (h : ℕ) : Option (Process K L) :=
  (p.handles[h]?).bind fun handle => (p.generations[handle.shared]?).bind fun gen =>
    if handle.consumed && decide (gen.state.control.program.head? = some .unregister) then
      (releaseRegistration p.sinks handle.registration).bind fun sinks =>
        (GenerationStep.step gen.exporter gen.state .control).map fun s =>
          { p with
            sinks := sinks
            generations := p.generations.set handle.shared { gen with state := s }
            handles := p.handles.set h { handle with registration := none } }
    else none

/-! ## Dispatches and lanes -/

/-- The load of the active callback. -/
def loadCallback (s : Sinks K) (i : ℕ) (key : K) : Option (Option ℕ × Sinks K) :=
  (s.caches[i]?).map fun cache =>
    if s.registry.activeSinks = 0 then (none, s)
    else
      let e := cachedSink s.registry cache key
      (e.1.bind s.registry.active, { s with caches := s.caches.set i e.2 })

/-- The generation a callback belongs to. Other callbacks belong to none. -/
def generationOf (p : Process K L) (c : Option ℕ) : Option ℕ :=
  c.bind fun c => p.generations.findIdx? fun gen => decide (gen.callback = some c)

/-- A dispatch loads its callback and enters its generation. -/
def dispatch (p : Process K L) (i : ℕ) (key : K) (log : L) : Option (Process K L) :=
  (p.threads[i]?).bind fun t =>
    if t.exiting then none
    else (loadCallback p.sinks i key).bind fun e =>
      match generationOf p e.1 with
      | none => some { p with sinks := e.2 }
      | some g => (p.generations[g]?).bind fun gen =>
        (GenerationStep.step gen.exporter gen.state (.enter i log)).map fun s =>
          { p with
            sinks := e.2
            generations := p.generations.set g
              { gen with state := s, dispatched := gen.dispatched + 1 } }

omit [DecidableEq K] in
/-- The lanes a drain in progress still refers to. -/
def snapshot : WorkerPc L → List ℕ
  | .take _ todo detached => detached.map Prod.fst ++ todo
  | _ => []

/-- `is_alive`: somebody still refers to the lane. -/
def isAlive (p : Process K L) (e : ℕ × ℕ) : Bool :=
  (p.generations[e.1]?).any fun gen =>
    !gen.freed && (gen.state.world.registry.lanes.contains e.2 ||
      (snapshot gen.state.worker.pc).contains e.2)

/-- `submit` looks the thread's lane up, and registers one if it has none.
Entries that were seen alive stay although their lane may be gone by now. -/
def resolveLane (p : Process K L) (g i : ℕ) (seenAlive : List ℕ) : Option (Process K L) :=
  (p.generations[g]?).bind fun gen => (gen.state.threads[i]?).bind fun producer =>
    (p.threads[i]?).bind fun t =>
      match producer.pc with
      | .resolve r =>
        match t.producers.find? fun e => decide (e.1 = g) with
        | some e =>
          some { p with generations := p.generations.set g { gen with
            state := { gen.state with
              threads := gen.state.threads.set i ⟨.claimBytes r .normal, some e.2⟩ } } }
        | none =>
          let lane := gen.state.world.lanes.length
          some { p with
            generations := p.generations.set g { gen with
              state := { gen.state with
                world := GenerationStep.registerLane gen.state.world
                threads := gen.state.threads.set i ⟨.claimBytes r .normal, some lane⟩ }
              owners := gen.owners ++ [i] }
            threads := p.threads.set i { t with
              producers := (t.producers.filter fun e => seenAlive.contains e.1 || isAlive p e) ++
                [(g, lane)] } }
      | _ => none

/-! ## Steps -/

/-- Who moves, and how. -/
inductive Action (K L : Type) where
  /-- A thread appears. -/
  | spawn
  /-- A thread begins to exit. -/
  | exit (i : ℕ)
  /-- Other code uses the registry. -/
  | sink (op : SinkOp K)
  | install (key : K) (r : Preparation L)
  | reconfigure (h : ℕ) (r : Preparation L)
  /-- A shutdown or the destructor begins. -/
  | close (h : ℕ) (c : Command)
  /-- It disables the sink. -/
  | unregister (h : ℕ)
  /-- A dispatch loads its callback. -/
  | dispatch (i : ℕ) (key : K) (log : L)
  /-- A submission looks its lane up. -/
  | resolve (g i : ℕ) (seenAlive : List ℕ)
  /-- A party of a generation takes a step of its own. -/
  | run (g : ℕ) (a : GenerationStep.Action L)
  /-- The last reference to a collector goes away. -/
  | free (g : ℕ)

omit [DecidableEq K] in
/-- The steps that a generation takes by itself. -/
def ownStep (p : Process K L) (gen : Generation K L) : GenerationStep.Action L → Bool
  | .producer i => (gen.state.threads[i]?).any fun producer =>
      match producer.pc with
      | .resolve _ => false
      | _ => true
  | .exit i => (p.threads[i]?).any Thread.exiting
  | .control => decide (gen.state.control.program.head? ≠ some .unregister)
  | .fence | .worker _ | .cancelWorker | .beginFlush | .flush _ | .expireFlush _
  | .expireDeadline => true
  | .spawn | .enter _ _ | .command _ => false

omit [DecidableEq K] in
/-- A thread appears in a generation. -/
def spawnIn (gen : Generation K L) : Generation K L :=
  { gen with state.threads := gen.state.threads ++ [⟨.idle, none⟩] }

omit [DecidableEq K] in
/-- Whether a thread is idle in a generation, or was never inside. -/
def idleIn (i : ℕ) (gen : Generation K L) : Bool :=
  (gen.state.threads[i]?).all fun producer =>
    match producer.pc with
    | .idle => true
    | _ => false

omit [DecidableEq K] in
/-- Whether a registration belongs to an exporter. -/
def owned (p : Process K L) : SinkOp K → Bool
  | .replace i | .disable i | .drop i =>
    p.handles.any fun handle => decide (handle.registration = some i)
  | _ => false

omit [DecidableEq K] in
/-- Whether nobody has to refer to a collector any more: its callback is gone,
its worker has ended, and no handle has it. A drain may be cancelled while it
still waits, so it does not count. -/
def unreferenced (p : Process K L) (g : ℕ) (gen : Generation K L) : Bool :=
  decide (gen.state.fence = .done) && (gen.state.aborted || gen.state.worker.pc.isFinished) &&
    p.handles.all fun handle => handle.consumed || decide (handle.collector ≠ g)

/-- One step of the process. Collector numbers are words, so their counter's
last value is never passed. -/
def step (p : Process K L) : Action K L → Option (Process K L)
  | .spawn => some { p with
      sinks.caches := p.sinks.caches ++ [[]]
      generations := p.generations.map spawnIn
      threads := p.threads ++ [⟨[], false⟩] }
  | .exit i => (p.threads[i]?).bind fun t =>
    if p.generations.all (idleIn i) then
      some { p with threads := p.threads.set i { t with exiting := true } }
    else none
  | .sink op =>
    match op with
    | .spawn => none
    | op =>
      if owned p op then none
      else (SinkRegistry.step p.sinks op).map fun s => { p with sinks := s }
  | .install key r =>
    if p.generations.length < wordMax then (installOn p key r).map Prod.snd else none
  | .reconfigure h r =>
    if p.generations.length < wordMax then (reconfigure p h r).map Prod.snd else none
  | .close h c =>
    match c with
    | .reconfigure => none
    | c => closeHandle p h c
  | .unregister h => unregister p h
  | .dispatch i key log => dispatch p i key log
  | .resolve g i seenAlive => resolveLane p g i seenAlive
  | .run g a => (p.generations[g]?).bind fun gen =>
    if ownStep p gen a then
      (GenerationStep.step gen.exporter gen.state a).map fun s =>
        { p with generations := p.generations.set g { gen with state := s } }
    else none
  | .free g => (p.generations[g]?).bind fun gen =>
    if unreferenced p g gen then
      some { p with generations := p.generations.set g { gen with freed := true } }
    else none

end EdenLogger.ExporterProcess
