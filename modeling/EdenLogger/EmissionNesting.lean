import EdenLogger.ExporterConfig
import Mathlib.Logic.Function.Basic
import Mathlib.Data.List.Basic

/-!
# Calls inside calls

Formatting a line runs the caller's code, and so do the build of a sink's
record and the sink itself. That code may log again. Each of the two ways to
emit formats into one buffer of its thread, which it borrows while it formats,
so a call panics if it is made while a call of the same way formats on its
thread. A `Display` that fails panics where a string is made of its value: the
value of a pair in the build of a record, that of a request field in a display
line. Whatever happens, the buffers are given back.
-/

namespace EdenLogger.EmissionNesting

open ExporterConfig

/-- The two ways to emit, each with its own buffer. -/
inductive Path where
  /-- `EdenLog::emit` -/
  | record
  /-- `emit_direct` -/
  | direct
  deriving DecidableEq

/-- What a caller's code does, over names `ι` of calls and types `K` of request
fields. A call comes with what the caller's code does in it: while its line is
formatted, while its record is built, and in the sink. -/
inductive Code (ι K : Type) where
  | done
  | panic
  /-- The `Display` of a value returns an error, that of a request field or of a pair. -/
  | displayError (field : Bool) (rest : Code ι K)
  | log (id : ι) (path : Path) (level : LogLevel) (key : K) (format build sink rest : Code ι K)

/-- What does not change while a thread emits. -/
structure Setup (K : Type) where
  shouldLog : LogLevel → Bool
  /-- The target is not `StructuredSink`. -/
  text : Bool
  /-- The format is `Json`. -/
  json : Bool
  /-- A sink is installed for a type of request fields. -/
  sink : K → Bool

/-- A thread's buffers, and what it has emitted. -/
structure Thread (ι : Type) where
  /-- Whether `FMT_BUF` is borrowed. -/
  borrowed : Path → Bool
  lines : List ι
  records : List ι

/-- Why a thread panics. -/
inductive Panic where
  | alreadyBorrowed
  | caller
  /-- `to_string` of a value whose `Display` fails. -/
  | display
  deriving DecidableEq

variable {ι K : Type}

/-- `FMT_BUF.with` and `borrow_mut`. The buffer is given back by a panic too. -/
def withBuffer (path : Path) (body : EStateM Panic (Thread ι) Unit) :
    EStateM Panic (Thread ι) Unit := fun t =>
  if t.borrowed path then .error .alreadyBorrowed t
  else
    match body.run { t with borrowed := Function.update t.borrowed path true } with
    | .ok _ t => .ok () { t with borrowed := Function.update t.borrowed path false }
    | .error e t => .error e { t with borrowed := Function.update t.borrowed path false }

/-- `log_bytes` -/
def writeLine (id : ι) : EStateM Panic (Thread ι) Unit := fun t =>
  .ok () { t with lines := t.lines ++ [id] }

/-- The sink's callback takes a record. -/
def handOver (id : ι) : EStateM Panic (Thread ι) Unit := fun t =>
  .ok () { t with records := t.records ++ [id] }

/-- An action under a condition. -/
def runIf (c : Bool) (m : EStateM Panic (Thread ι) Unit) : EStateM Panic (Thread ι) Unit :=
  if c then m else pure ()

/-- `emit` and `emit_direct`, with what the caller's code does in them. -/
def emit (x : Setup K) (id : ι) (path : Path) (level : LogLevel) (key : K)
    (format build sink : EStateM Panic (Thread ι) Unit) : EStateM Panic (Thread ι) Unit :=
  runIf (x.shouldLog level) do
    runIf x.text <| withBuffer path do
      format
      writeLine id
    runIf (x.sink key) do
      build
      handOver id
      sink

/-- What a caller's code runs in. -/
inductive Mode where
  | displayLine
  | jsonLine
  | record
  /-- A sink, or no call at all. -/
  | plain
  deriving DecidableEq

/-- Where a string is made of a value by `to_string`: the display writer does so
with request fields, and `from_direct` with pairs. -/
def Mode.strict : Mode → Bool → Bool
  | .displayLine, field => field
  | .record, field => !field
  | _, _ => false

/-- A record's line is a display line always. -/
def lineMode (x : Setup K) : Path → Mode
  | .record => .displayLine
  | .direct => if x.json then .jsonLine else .displayLine

/-- A record is built from a call's arguments by `emit_direct`, and cloned by `emit`. -/
def buildMode : Path → Mode
  | .record => .plain
  | .direct => .record

/-- Run a caller's code. -/
def run (x : Setup K) : Mode → Code ι K → EStateM Panic (Thread ι) Unit
  | _, .done => pure ()
  | _, .panic => throw .caller
  | mode, .displayError field rest =>
    if mode.strict field then throw .display else run x mode rest
  | mode, .log id path level key format build sink rest => do
    emit x id path level key (run x (lineMode x path) format) (run x (buildMode path) build)
      (run x .plain sink)
    run x mode rest

/-! ## What code stands for -/

/-- A call in a caller's code. -/
structure Call (ι K : Type) where
  id : ι
  path : Path
  level : LogLevel
  key : K
  format : Code ι K
  build : Code ι K
  sink : Code ι K

/-- Where the caller's code runs in a call. -/
inductive Phase where
  | format
  | build
  | sink
  deriving DecidableEq

/-- The caller's code of a phase. -/
def Call.code (c : Call ι K) : Phase → Code ι K
  | .format => c.format
  | .build => c.build
  | .sink => c.sink

/-- What a phase runs in. -/
def Call.mode (x : Setup K) (c : Call ι K) : Phase → Mode
  | .format => lineMode x c.path
  | .build => buildMode c.path
  | .sink => .plain

/-- Whether a call gets to a phase. -/
def Call.runs (x : Setup K) (c : Call ι K) : Phase → Bool
  | .format => x.shouldLog c.level && x.text
  | _ => x.shouldLog c.level && x.sink c.key

/-- The calls that code makes itself. -/
def Code.calls : Code ι K → List (Call ι K)
  | .done => []
  | .panic => []
  | .displayError _ rest => rest.calls
  | .log id path level key format build sink rest =>
    ⟨id, path, level, key, format, build, sink⟩ :: rest.calls

/-- Code that panics by itself. -/
def Code.panics (mode : Mode) : Code ι K → Bool
  | .done => false
  | .panic => true
  | .displayError field rest => mode.strict field || rest.panics mode
  | .log _ _ _ _ _ _ _ rest => rest.panics mode

/-- Code that runs somewhere inside code, with the calls that it runs in. -/
inductive Inside (x : Setup K) : Mode → Code ι K → List (Call ι K × Phase) → Mode → Code ι K → Prop
  where
  | here {mode : Mode} {code : Code ι K} : Inside x mode code [] mode code
  | enter {mode mode' : Mode} {code code' : Code ι K} {c : Call ι K} {phase : Phase}
    {outer : List (Call ι K × Phase)} :
    c ∈ code.calls → c.runs x phase = true →
      Inside x (c.mode x phase) (c.code phase) outer mode' code' →
        Inside x mode code ((c, phase) :: outer) mode' code'

/-- A call of code inside other calls reenters a buffer: a call around it formats
in the same way, or the buffer was borrowed at the start. -/
def Reenters (x : Setup K) (held : Path → Bool) (outer : List (Call ι K × Phase))
    (c : Call ι K) : Prop :=
  c.runs x .format = true ∧
    (held c.path = true ∨ ∃ around, (around, Phase.format) ∈ outer ∧ around.path = c.path)

/-- Code that runs somewhere inside panics by itself, or makes a call that
reenters a buffer. -/
def Faulty (x : Setup K) (held : Path → Bool) (mode : Mode) (code : Code ι K) : Prop :=
  ∃ outer mode' code', Inside x mode code outer mode' code' ∧
    (code'.panics mode' = true ∨ ∃ c ∈ code'.calls, Reenters x held outer c)

/-- The lines of code that does not panic. The lines of what runs in the
formatting of a call stand before its own, those of its dispatch behind it. -/
def written (x : Setup K) : Code ι K → List ι
  | .done => []
  | .panic => []
  | .displayError _ rest => written x rest
  | .log id _ level key format build sink rest =>
    (if x.shouldLog level then
      (if x.text then written x format ++ [id] else []) ++
        if x.sink key then written x build ++ written x sink else []
      else []) ++ written x rest

/-- The records that it hands to sinks. -/
def handed (x : Setup K) : Code ι K → List ι
  | .done => []
  | .panic => []
  | .displayError _ rest => handed x rest
  | .log id _ level key format build sink rest =>
    (if x.shouldLog level then
      (if x.text then handed x format else []) ++
        if x.sink key then handed x build ++ [id] ++ handed x sink else []
      else []) ++ handed x rest

/-! ## Rules -/

/-- What an action does: on some states of the buffers it panics, and on the
others it emits. It gives every buffer back. -/
structure Behaves (m : EStateM Panic (Thread ι) Unit) (fails : (Path → Bool) → Prop)
    (lines records : List ι) : Prop where
  panics : ∀ t, fails t.borrowed → ∃ e t', m.run t = .error e t' ∧ t'.borrowed = t.borrowed
  returns : ∀ t, ¬ fails t.borrowed →
    m.run t = .ok () { t with lines := t.lines ++ lines, records := t.records ++ records }

theorem behaves_pure :
    Behaves (pure () : EStateM Panic (Thread ι) Unit) (fun _ => False) [] [] where
  panics _ h := h.elim
  returns t _ := by
    simp only [List.append_nil]
    rfl

theorem behaves_throw (e : Panic) :
    Behaves (throw e : EStateM Panic (Thread ι) Unit) (fun _ => True) [] [] where
  panics t _ := ⟨e, t, rfl, rfl⟩
  returns _ h := absurd trivial h

theorem behaves_writeLine (id : ι) : Behaves (writeLine id) (fun _ => False) [id] [] where
  panics _ h := h.elim
  returns t _ := by
    simp only [List.append_nil]
    rfl

theorem behaves_handOver (id : ι) : Behaves (handOver id) (fun _ => False) [] [id] where
  panics _ h := h.elim
  returns t _ := by
    simp only [List.append_nil]
    rfl

variable {m m' : EStateM Panic (Thread ι) Unit} {fails fails' : (Path → Bool) → Prop}
  {lines lines' records records' : List ι}

/-- Actions in a row panic if one of them does. -/
theorem Behaves.seq (h : Behaves m fails lines records) (h' : Behaves m' fails' lines' records') :
    Behaves (do m; m') (fun held => fails held ∨ fails' held) (lines ++ lines')
      (records ++ records') where
  panics t ht := by
    by_cases hm : fails t.borrowed
    · obtain ⟨e, t', hrun, hheld⟩ := h.panics t hm
      exact ⟨e, t', by rw [EStateM.run_bind, hrun], hheld⟩
    · obtain ⟨e, t', hrun, hheld⟩ := h'.panics
        { t with lines := t.lines ++ lines, records := t.records ++ records } (ht.resolve_left hm)
      exact ⟨e, t', by rw [EStateM.run_bind, h.returns t hm]; exact hrun, hheld⟩
  returns t ht := by
    rw [not_or] at ht
    have hnext := h'.returns
      { t with lines := t.lines ++ lines, records := t.records ++ records } ht.2
    rw [EStateM.run_bind, h.returns t ht.1]
    dsimp only at hnext ⊢
    rw [hnext, List.append_assoc, List.append_assoc]

/-- A condition that does not hold hides what an action does. -/
theorem Behaves.cond (h : Behaves m fails lines records) (c : Bool) :
    Behaves (runIf c m) (fun held => c = true ∧ fails held) (if c then lines else [])
      (if c then records else []) := by
  unfold runIf
  cases c with
  | true =>
    simp only [if_true, true_and]
    exact h
  | false =>
    simp only [Bool.false_eq_true, if_false, false_and]
    exact behaves_pure

/-- An action that needs a buffer panics too if it is borrowed. -/
theorem Behaves.withBuffer (h : Behaves m fails lines records) (path : Path) :
    Behaves (withBuffer path m)
      (fun held => held path = true ∨ fails (Function.update held path true)) lines records where
  panics t ht := by
    by_cases hp : t.borrowed path = true
    · exact ⟨_, t, if_pos hp, rfl⟩
    · obtain ⟨e, t', hrun, hheld⟩ := h.panics
        { t with borrowed := Function.update t.borrowed path true } (ht.resolve_left hp)
      refine ⟨e, { t' with borrowed := Function.update t'.borrowed path false },
        (if_neg hp).trans (by rw [hrun]), ?_⟩
      dsimp only at hheld ⊢
      rw [hheld, Function.update_idem, ← Bool.eq_false_iff.mpr hp, Function.update_eq_self]
  returns t ht := by
    rw [not_or] at ht
    refine (if_neg ht.1).trans ?_
    rw [h.returns _ ht.2]
    dsimp only
    rw [Function.update_idem, ← Bool.eq_false_iff.mpr ht.1, Function.update_eq_self]

/-- The same action under other names. -/
theorem Behaves.congr (h : Behaves m fails lines records) (hf : ∀ held, fails held ↔ fails' held)
    (hl : lines = lines') (hr : records = records') : Behaves m fails' lines' records' := by
  obtain rfl : fails = fails' := funext fun held => propext (hf held)
  exact hl ▸ hr ▸ h

/-- A call formats, writes, builds and dispatches, as far as it gets. -/
theorem behaves_emit (x : Setup K) (id : ι) (path : Path) (level : LogLevel) (key : K)
    {format build sink : EStateM Panic (Thread ι) Unit}
    {formatFails buildFails sinkFails : (Path → Bool) → Prop}
    {formatLines buildLines sinkLines formatRecords buildRecords sinkRecords : List ι}
    (hformat : Behaves format formatFails formatLines formatRecords)
    (hbuild : Behaves build buildFails buildLines buildRecords)
    (hsink : Behaves sink sinkFails sinkLines sinkRecords) :
    Behaves (emit x id path level key format build sink)
      (fun held => x.shouldLog level = true ∧
        (x.text = true ∧ (held path = true ∨ formatFails (Function.update held path true)) ∨
          x.sink key = true ∧ (buildFails held ∨ sinkFails held)))
      (if x.shouldLog level then
        (if x.text then formatLines ++ [id] else []) ++
          if x.sink key then buildLines ++ sinkLines else []
        else [])
      (if x.shouldLog level then
        (if x.text then formatRecords else []) ++
          if x.sink key then buildRecords ++ [id] ++ sinkRecords else []
        else []) := by
  have htext := ((hformat.seq (behaves_writeLine id)).withBuffer path).cond x.text
  have hdispatch := (hbuild.seq ((behaves_handOver id).seq hsink)).cond (x.sink key)
  refine ((htext.seq hdispatch).cond (x.shouldLog level)).congr (fun held => ?_) ?_ ?_
  · simp only [or_false, false_or]
  · simp only [List.nil_append]
  · simp only [List.append_nil, List.append_assoc]

/-! ## What code does -/

/-- When code panics, from what is borrowed where it starts. -/
def Fails (x : Setup K) : Mode → Code ι K → (Path → Bool) → Prop
  | _, .done, _ => False
  | _, .panic, _ => True
  | mode, .displayError field rest, held => mode.strict field = true ∨ Fails x mode rest held
  | mode, .log _ path level key format build sink rest, held =>
    x.shouldLog level = true ∧
        (x.text = true ∧ (held path = true ∨
            Fails x (lineMode x path) format (Function.update held path true)) ∨
          x.sink key = true ∧ (Fails x (buildMode path) build held ∨ Fails x .plain sink held)) ∨
      Fails x mode rest held

/-- Code does what it stands for. -/
theorem behaves_run (x : Setup K) (mode : Mode) (code : Code ι K) :
    Behaves (run x mode code) (Fails x mode code) (written x code) (handed x code) := by
  induction code generalizing mode with
  | done => exact behaves_pure
  | panic => exact behaves_throw .caller
  | displayError field rest ih =>
    unfold run
    cases hstrict : mode.strict field with
    | true => exact ⟨fun t _ => ⟨.display, t, rfl, rfl⟩, fun t ht => absurd (.inl hstrict) ht⟩
    | false =>
      refine (ih mode).congr (fun held => ?_) rfl rfl
      simp only [Fails, hstrict, Bool.false_eq_true, false_or]
  | log id path level key format build sink rest ihf ihb ihs ihr =>
    exact (behaves_emit x id path level key (ihf _) (ihb _) (ihs .plain)).seq (ihr mode)

/-! ## When code panics -/

/-- The buffers that are borrowed in a phase of a call. -/
def heldIn (held : Path → Bool) (c : Call ι K) : Phase → Path → Bool
  | .format => Function.update held c.path true
  | _ => held

/-- A phase of a call is one more call around. -/
theorem reenters_heldIn {x : Setup K} {held : Path → Bool} {outer : List (Call ι K × Phase)}
    {c around : Call ι K} {phase : Phase} :
    Reenters x (heldIn held around phase) outer c ↔
      Reenters x held ((around, phase) :: outer) c := by
  unfold Reenters
  refine and_congr_right fun _ => ?_
  simp only [List.mem_cons, or_and_right, exists_or, Prod.mk.injEq]
  cases phase with
  | format =>
    simp only [heldIn, Function.update_apply, and_true, exists_eq_left, ite_eq_left_iff]
    by_cases hpath : c.path = around.path
    · simp [hpath]
    · simp [hpath, Ne.symm hpath]
  | build => simp [heldIn]
  | sink => simp [heldIn]

/-- Code is faulty by itself, at one of its calls, or in a phase of one. -/
theorem faulty_iff (x : Setup K) (held : Path → Bool) (mode : Mode) (code : Code ι K) :
    Faulty x held mode code ↔ code.panics mode = true ∨ ∃ c ∈ code.calls,
      (c.runs x .format = true ∧ held c.path = true) ∨ ∃ phase, c.runs x phase = true ∧
        Faulty x (heldIn held c phase) (c.mode x phase) (c.code phase) := by
  constructor
  · rintro ⟨outer, mode', code', hinside, hfault⟩
    cases hinside with
    | here =>
      refine hfault.imp_right ?_
      rintro ⟨c, hc, hruns, hheld | ⟨_, hmem, -⟩⟩
      · exact ⟨c, hc, .inl ⟨hruns, hheld⟩⟩
      · exact absurd hmem List.not_mem_nil
    | @enter _ _ _ _ c phase outer hc hruns hinside =>
      refine .inr ⟨c, hc, .inr ⟨phase, hruns, outer, mode', code', hinside, ?_⟩⟩
      exact hfault.imp_right fun ⟨c', hc', hre⟩ => ⟨c', hc', reenters_heldIn.mpr hre⟩
  · rintro (hpanics |
      ⟨c, hc, ⟨hruns, hheld⟩ | ⟨phase, hruns, outer, mode', code', hinside, hfault⟩⟩)
    · exact ⟨[], mode, code, .here, .inl hpanics⟩
    · exact ⟨[], mode, code, .here, .inr ⟨c, hc, hruns, .inl hheld⟩⟩
    · refine ⟨(c, phase) :: outer, mode', code', .enter hc hruns hinside, ?_⟩
      exact hfault.imp_right fun ⟨c', hc', hre⟩ => ⟨c', hc', reenters_heldIn.mp hre⟩

theorem Phase.exists_iff {p : Phase → Prop} :
    (∃ phase, p phase) ↔ p .format ∨ p .build ∨ p .sink := by
  constructor
  · rintro ⟨phase, h⟩
    cases phase with
    | format => exact .inl h
    | build => exact .inr (.inl h)
    | sink => exact .inr (.inr h)
  · rintro (h | h | h)
    · exact ⟨_, h⟩
    · exact ⟨_, h⟩
    · exact ⟨_, h⟩

/-- Code that makes the same calls and one more is faulty there or as before. -/
theorem faulty_log {x : Setup K} {held : Path → Bool} {mode : Mode} {id : ι} {path : Path}
    {level : LogLevel} {key : K} {format build sink rest : Code ι K} :
    Faulty x held mode (.log id path level key format build sink rest) ↔
      x.shouldLog level = true ∧
          (x.text = true ∧ (held path = true ∨
              Faulty x (Function.update held path true) (lineMode x path) format) ∨
            x.sink key = true ∧
              (Faulty x held (buildMode path) build ∨ Faulty x held .plain sink)) ∨
        Faulty x held mode rest := by
  rw [faulty_iff, faulty_iff x held mode rest]
  simp only [Code.calls, Code.panics, List.mem_cons, exists_eq_or_imp, Phase.exists_iff,
    Call.runs, Call.code, Call.mode, heldIn, Bool.and_eq_true]
  constructor
  · rintro (hp | (⟨⟨hl, ht⟩, hh⟩ | ⟨⟨hl, ht⟩, hf⟩ | ⟨⟨hl, hs⟩, hb⟩ | ⟨⟨hl, hs⟩, hk⟩) | hr)
    · exact .inr (.inl hp)
    · exact .inl ⟨hl, .inl ⟨ht, .inl hh⟩⟩
    · exact .inl ⟨hl, .inl ⟨ht, .inr hf⟩⟩
    · exact .inl ⟨hl, .inr ⟨hs, .inl hb⟩⟩
    · exact .inl ⟨hl, .inr ⟨hs, .inr hk⟩⟩
    · exact .inr (.inr hr)
  · rintro (⟨hl, ⟨ht, hh | hf⟩ | ⟨hs, hb | hk⟩⟩ | hp | hr)
    · exact .inr (.inl (.inl ⟨⟨hl, ht⟩, hh⟩))
    · exact .inr (.inl (.inr (.inl ⟨⟨hl, ht⟩, hf⟩)))
    · exact .inr (.inl (.inr (.inr (.inl ⟨⟨hl, hs⟩, hb⟩))))
    · exact .inr (.inl (.inr (.inr (.inr ⟨⟨hl, hs⟩, hk⟩))))
    · exact .inl hp
    · exact .inr (.inr hr)

/-- Code panics if it is faulty. -/
theorem fails_iff_faulty (x : Setup K) (mode : Mode) (code : Code ι K) (held : Path → Bool) :
    Fails x mode code held ↔ Faulty x held mode code := by
  induction code generalizing mode held with
  | done =>
    rw [faulty_iff]
    simp [Fails, Code.panics, Code.calls]
  | panic =>
    rw [faulty_iff]
    simp [Fails, Code.panics]
  | displayError field rest ih =>
    rw [Fails, ih, faulty_iff, faulty_iff x held mode (.displayError field rest)]
    simp only [Code.panics, Code.calls, Bool.or_eq_true, or_assoc]
  | log id path level key format build sink rest ihf ihb ihs ihr =>
    rw [Fails, ihf, ihb, ihs, ihr, faulty_log]

/-- A thread panics exactly if code that runs somewhere panics by itself or
reenters a buffer. Otherwise it emits what the code stands for. It gives all
buffers back in both cases. -/
theorem emission_panics_iff (x : Setup K) (mode : Mode) (code : Code ι K) (t : Thread ι) :
    ((∃ e t', (run x mode code).run t = .error e t') ↔ Faulty x t.borrowed mode code) ∧
    (∀ e t', (run x mode code).run t = .error e t' → t'.borrowed = t.borrowed) ∧
    (∀ t', (run x mode code).run t = .ok () t' → t' = { t with
      lines := t.lines ++ written x code
      records := t.records ++ handed x code }) := by
  have hrun := behaves_run x mode code
  by_cases hfails : Fails x mode code t.borrowed
  · obtain ⟨e, t', herror, hheld⟩ := hrun.panics t hfails
    rw [herror]
    refine ⟨iff_of_true ⟨e, t', rfl⟩ ((fails_iff_faulty ..).mp hfails), ?_, ?_⟩
    · rintro e' t'' h
      cases h
      exact hheld
    · rintro t'' h
      cases h
  · rw [hrun.returns t hfails]
    refine ⟨iff_of_false ?_ fun h => hfails ((fails_iff_faulty ..).mpr h), ?_, ?_⟩
    · rintro ⟨e, t', h⟩
      cases h
    · rintro e t' h
      cases h
    · rintro t' h
      cases h
      rfl

/-- A terminal with display lines and a sink. -/
def terminal : Setup Unit := ⟨fun _ => true, true, false, fun _ => true⟩

/-- A thread that has emitted nothing. -/
def idle : Thread ℕ := ⟨fun _ => false, [], []⟩

/-- A call without a caller's code. -/
def bare (id : ℕ) (rest : Code ℕ Unit) : Code ℕ Unit :=
  .log id .direct .info () .done .done .done rest

-- A value that logs in its `Display` panics.
example : (match (run terminal .plain
      (.log 1 .direct .info () (bare 2 .done) .done .done .done)).run idle with
    | .error e _ => some e
    | .ok _ _ => none) = some .alreadyBorrowed := rfl

-- A sink may log.
example : written terminal (.log 1 .direct .info () .done (bare 2 .done) (bare 3 .done) .done) =
    [1, 2, 3] := rfl

end EdenLogger.EmissionNesting
