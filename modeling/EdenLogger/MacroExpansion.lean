import EdenLogger.LetBlocks
import EdenLogger.MacroGrammar
import EdenLogger.DisplayLine
import Std.Data.String.ToNat

/-!
# What the logging macros expand to

A call expands to a block that binds the audience, asks a table that is baked
in whether the audience is compiled in, and then binds the message and the
values of the pairs before it calls `emit_direct`. The names it binds are those
of the call site. A call whose expressions do not ask for them means what it
says: the audience is evaluated once, and behind it message, values and context
once each or not at all.
-/

namespace EdenLogger.MacroExpansion

open ExporterConfig JsonText LetBlocks MacroGrammar RightBias LogRecord DisplayLine

/-- The features that the macros are built with. -/
structure Features where
  /-- `log-trace` to `log-error`. -/
  level : LogLevel → Bool
  /-- `log-client` -/
  client : Bool
  /-- `log-internal` -/
  internal : Bool
  /-- `log-both` -/
  both : Bool
  /-- `source-location` -/
  sourceLocation : Bool

/-- `file!()` and `line!()` of a call. -/
structure Site where
  file : Text
  line : UInt32

/-- Expressions of an expansion. -/
inductive Code (E : Type) where
  /-- An expression of the caller. -/
  | source (e : E)
  /-- A variant of `::eden_logger::LogAudience`. -/
  | audience (a : LogAudience)
  | var (x : String)
  /-- `&e` -/
  | ref (e : Code E)
  /-- `e as &dyn ::core::fmt::Display` -/
  | asDisplay (e : Code E)
  /-- A `match` over the audience of a name. -/
  | matchAudience (x : String) (client internal both : Bool)

/-- A call of `::eden_logger::emit_direct`. -/
structure EmitCall (E : Type) where
  level : LogLevel
  message : Code E
  context : Code E
  audience : Code E
  additional : List (String × Code E)
  file : Option Text
  line : Option UInt32

/-- The name of a pair's value. -/
def kvName (i : ℕ) : String := "__kv" ++ i.repr

/-! ## Code generation -/

section Generation

variable {T I E : Type} (s : Syn T I E)

/-- `kv_bindings`, from an index on. -/
def kvBindings : ℕ → List (Kv T I E) → List (String × Code E)
  | _, [] => []
  | i, kv :: kvs => (kvName i, .asDisplay (.ref (.source kv.val))) :: kvBindings (i + 1) kvs

/-- `kv_entries`, from an index on. -/
def kvEntries : ℕ → List (Kv T I E) → List (String × Code E)
  | _, [] => []
  | i, kv :: kvs => (s.text kv.key, .var (kvName i)) :: kvEntries (i + 1) kvs

/-- `gen_body` -/
def genBody (f : Features) (site : Site) (level : LogLevel) (ctx msg : E) (audOpt : Option E)
    (kvs : List (Kv T I E)) : Block (Code E) (EmitCall E) :=
  let audExpr :=
    match audOpt with
    | some a => .source a
    | none => .audience .internal
  .letIn "__aud" audExpr <|
  .letIn "__enabled" (.matchAudience "__aud" f.client f.internal f.both) <|
  .ifThen (.var "__enabled")
    (.letIn "__msg" (.source msg) <|
      .lets (kvBindings 0 kvs) <|
      .call
        { level := level
          message := .ref (.var "__msg")
          context := .ref (.source ctx)
          audience := .var "__aud"
          additional := kvEntries s 0 kvs
          file := if f.sourceLocation then some site.file else none
          line := if f.sourceLocation then some site.line else none }
        .done)
    .done

/-- A logging macro. Arguments that do not parse do not compile. -/
def logMacro (f : Features) (site : Site) (level : LogLevel) (input : List T) :
    Option (Block (Code E) (EmitCall E)) :=
  (parseMacroInput s input).map fun args =>
    -- without the level's feature the call is an empty block
    if f.level level then
      let (ctx, msg, aud, kvs) := splitArgs args
      genBody s f site level ctx msg aud kvs
    else .done

/-- `log_trace!` -/
def logTrace (f : Features) (site : Site) := logMacro s f site .trace

/-- `log_debug!` -/
def logDebug (f : Features) (site : Site) := logMacro s f site .debug

/-- `log_info!` -/
def logInfo (f : Features) (site : Site) := logMacro s f site .info

/-- `log_warn!` -/
def logWarn (f : Features) (site : Site) := logMacro s f site .warn

/-- `log_error!` -/
def logError (f : Features) (site : Site) := logMacro s f site .error

end Generation

/-! ## Meaning of code -/

/-- Values of an expansion's names. -/
inductive Value (V : Type) where
  | audience (a : LogAudience)
  | bool (b : Bool)
  | source (v : V)

/-- How a block is left early. -/
inductive Exit (X : Type) where
  /-- By the caller's code: a panic, a `return` or a `?`. -/
  | source (x : X)
  /-- The compiler turns the code down. -/
  | illTyped

/-- What the macros do not define: the caller's expressions and `emit_direct`. -/
structure Host (E V W X : Type) where
  eval : E → Scope (Value V) → EStateM (Exit X) W (Value V)
  emitDirect : LogLevel → Value V → Value V → LogAudience → List (String × Value V) →
    Option Text → Option UInt32 → EStateM (Exit X) W Unit

section Meaning

variable {E V W X : Type}

/-- A value of the type `LogAudience`. -/
def toAudience : Value V → EStateM (Exit X) W LogAudience
  | .audience a => pure a
  | _ => throw .illTyped

/-- A value of the type `bool`. -/
def toBool : Value V → EStateM (Exit X) W Bool
  | .bool b => pure b
  | _ => throw .illTyped

/-- The value of a name. -/
def lookup (ρ : Scope (Value V)) (x : String) : EStateM (Exit X) W (Value V) :=
  match ρ x with
  | some v => pure v
  | none => throw .illTyped

/-- Whether an audience is compiled in. -/
def audienceOn (client internal both : Bool) : LogAudience → Bool
  | .client => client
  | .internal => internal
  | .both => both

/-- The value of an expression. A reference stands for what it refers to. -/
def evalCode (h : Host E V W X) : Code E → Scope (Value V) → EStateM (Exit X) W (Value V)
  | .source e, ρ => h.eval e ρ
  | .audience a, _ => pure (.audience a)
  | .var x, ρ => lookup ρ x
  | .ref e, ρ => evalCode h e ρ
  | .asDisplay e, ρ => evalCode h e ρ
  | .matchAudience x client internal both, ρ => do
    let v ← lookup ρ x
    let a ← toAudience v
    pure (.bool (audienceOn client internal both a))

/-- Arguments are evaluated from left to right. -/
def evalCall (h : Host E V W X) (c : EmitCall E) (ρ : Scope (Value V)) :
    EStateM (Exit X) W Unit := do
  let message ← evalCode h c.message ρ
  let context ← evalCode h c.context ρ
  let v ← evalCode h c.audience ρ
  let audience ← toAudience v
  let additional ← c.additional.mapM fun entry => do
    let v ← evalCode h entry.2 ρ
    pure (entry.1, v)
  h.emitDirect c.level message context audience additional c.file c.line

/-- The machine that runs expansions. -/
def machine (h : Host E V W X) : Machine (Code E) (EmitCall E) (Value V) W (Exit X) where
  eval := evalCode h
  test := toBool
  call := evalCall h

/-! ## Meaning of calls -/

variable {T I : Type} (s : Syn T I E)

/-- The pairs of a call. -/
def pairsOf (call : DocumentedCall T I E) : List (Kv T I E) :=
  (call.items.filter fun item => s.text item.kv.key ≠ "audience").map Item.kv

/-- The value of a call's audience, which is internal by default. -/
def audienceValue (h : Host E V W X) (aud : Option E) (ρ : Scope (Value V)) :
    EStateM (Exit X) W (Value V) :=
  match aud with
  | some e => h.eval e ρ
  | none => pure (.audience .internal)

/-- What a call says, of whose audiences the last one counts. -/
def runCall (h : Host E V W X) (f : Features) (site : Site) (level : LogLevel)
    (call : DocumentedCall T I E) (ρ : Scope (Value V)) : EStateM (Exit X) W Unit := do
  if f.level level then
    let v ← audienceValue h (lastSet (audienceOf s) call.items) ρ
    let audience ← toAudience v
    if audienceOn f.client f.internal f.both audience then
      let message ← h.eval call.msg ρ
      let values ← (pairsOf s call).mapM fun kv => h.eval kv.val ρ
      let context ← h.eval call.ctx ρ
      h.emitDirect level message context audience
        (((pairsOf s call).map fun kv => s.text kv.key).zip values)
        (if f.sourceLocation then some site.file else none)
        (if f.sourceLocation then some site.line else none)

/-- The names that an expansion binds. -/
def Reserved (x : String) : Prop :=
  x = "__aud" ∨ x = "__enabled" ∨ x = "__msg" ∨ ∃ i, x = kvName i

/-- An expression of the caller does not ask for these names. -/
def AvoidsReserved (h : Host E V W X) (e : E) : Prop := Avoids (machine h) Reserved (.source e)

/-- The expressions that are evaluated where these names are bound do not ask
for them. -/
structure Hygienic (h : Host E V W X) (call : DocumentedCall T I E) : Prop where
  msg : AvoidsReserved h call.msg
  pairs : ∀ kv ∈ pairsOf s call, AvoidsReserved h kv.val
  ctx : AvoidsReserved h call.ctx

end Meaning

/-! ## Names -/

/-- The names of values are different. -/
theorem kvName_injective {i j : ℕ} (h : kvName i = kvName j) : i = j :=
  Nat.repr_injective ((String.append_right_inj "__kv").mp h)

/-- The third character tells a value's name from the other names. -/
theorem kvName_ne {x : String} (hx : x.toList[2]? ≠ some 'k') (i : ℕ) : kvName i ≠ x := by
  rintro rfl
  refine hx ?_
  rw [kvName, String.toList_append]
  rfl

section Expansion

variable {T I E V W X : Type} (s : Syn T I E)

/-- The names bound are those of the indices. -/
theorem kvBindings_names (i : ℕ) (kvs : List (Kv T I E)) :
    (kvBindings i kvs).map Prod.fst = (List.range' i kvs.length).map kvName := by
  induction kvs generalizing i with
  | nil => rfl
  | cons kv kvs ih =>
    rw [kvBindings, List.map_cons, ih, List.length_cons, List.range'_succ, List.map_cons]

theorem length_kvBindings (i : ℕ) (kvs : List (Kv T I E)) :
    (kvBindings i kvs).length = kvs.length := by
  have hnames := congrArg List.length (kvBindings_names i kvs)
  rwa [List.length_map, List.length_map, List.length_range'] at hnames

theorem nodup_kvBindings (i : ℕ) (kvs : List (Kv T I E)) :
    ((kvBindings i kvs).map Prod.fst).Nodup := by
  rw [kvBindings_names]
  exact (List.nodup_range' ..).map fun _ _ => kvName_injective

/-- Another name is not bound with the values. -/
theorem notMem_kvBindings {x : String} (hx : x.toList[2]? ≠ some 'k') (i : ℕ)
    (kvs : List (Kv T I E)) : x ∉ (kvBindings i kvs).map Prod.fst := by
  rw [kvBindings_names, List.mem_map]
  rintro ⟨j, -, hj⟩
  exact kvName_ne hx j hj

theorem reserved_of_mem {i : ℕ} {kvs : List (Kv T I E)} {b : String × Code E}
    (hb : b ∈ kvBindings i kvs) : Reserved b.1 := by
  have hname : b.1 ∈ (kvBindings i kvs).map Prod.fst := List.mem_map_of_mem hb
  rw [kvBindings_names, List.mem_map] at hname
  obtain ⟨j, -, hj⟩ := hname
  exact .inr (.inr (.inr ⟨j, hj.symm⟩))

/-! ## The values of the pairs -/

variable (h : Host E V W X)

/-- What is bound are the pairs' values. -/
theorem mapM_kvBindings (i : ℕ) (kvs : List (Kv T I E)) (ρ : Scope (Value V)) :
    ((kvBindings i kvs).mapM fun b => (machine h).eval b.2 ρ) =
      kvs.mapM fun kv => h.eval kv.val ρ := by
  induction kvs generalizing i with
  | nil => rfl
  | cons kv kvs ih =>
    rw [kvBindings, List.mapM_cons, List.mapM_cons, ih]
    rfl

theorem avoids_kvBindings {i : ℕ} {kvs : List (Kv T I E)}
    (havoid : ∀ kv ∈ kvs, AvoidsReserved h kv.val) {b : String × Code E}
    (hb : b ∈ kvBindings i kvs) : Avoids (machine h) Reserved b.2 := by
  induction kvs generalizing i with
  | nil => exact absurd hb List.not_mem_nil
  | cons kv kvs ih =>
    obtain ⟨hkv, hkvs⟩ := List.forall_mem_cons.mp havoid
    rcases List.mem_cons.mp hb with rfl | hb
    · exact hkv
    · exact ih hkvs hb

/-- Where the names stand for values, the entries are the keys with these values. -/
theorem mapM_kvEntries {i : ℕ} {kvs : List (Kv T I E)} {vs : List (Value V)}
    {ρ : Scope (Value V)} (hlen : vs.length = kvs.length)
    (hρ : ∀ p ∈ ((kvBindings i kvs).map Prod.fst).zip vs, ρ p.1 = some p.2) :
    ((kvEntries s i kvs).mapM fun entry => do
        let v ← evalCode h entry.2 ρ
        pure (entry.1, v)) =
      (pure ((kvs.map fun kv => s.text kv.key).zip vs) : EStateM (Exit X) W _) := by
  induction kvs generalizing i vs with
  | nil => rfl
  | cons kv kvs ih =>
    cases vs with
    | nil => cases hlen
    | cons v vs =>
      rw [kvBindings, List.map_cons, List.zip_cons_cons, List.forall_mem_cons] at hρ
      have hvar : evalCode h (.var (kvName i)) ρ = pure v := by
        rw [evalCode, lookup, hρ.1]
      have hrest := ih (Nat.succ.inj hlen) hρ.2
      rw [kvEntries, List.mapM_cons, hrest, hvar]
      simp only [pure_bind, List.map_cons, List.zip_cons_cons]

/-! ## The expansion -/

/-- The scope behind the bindings of an expansion. -/
def innerScope (ρ : Scope (Value V)) (b : Bool) (a : LogAudience) (message : Value V)
    (named : List (String × Value V)) : Scope (Value V) :=
  ((((ρ.bind "__aud" (.audience a)).bind "__enabled" (.bool b)).bind "__msg" message).bindAll
    named)

variable {ρ : Scope (Value V)} {b : Bool} {a : LogAudience} {message : Value V}

/-- Only reserved names are bound there. -/
theorem agree_innerScope {kvs : List (Kv T I E)} {vs : List (Value V)} :
    AgreeOff Reserved (innerScope ρ b a message (((kvBindings 0 kvs).map Prod.fst).zip vs)) ρ := by
  have hbound : AgreeOff Reserved
      (((ρ.bind "__aud" (.audience a)).bind "__enabled" (.bool b)).bind "__msg" message) ρ :=
    (((AgreeOff.refl Reserved ρ).bind (.inl rfl) _).bind (.inr (.inl rfl)) _).bind
      (.inr (.inr (.inl rfl))) _
  refine hbound.bindAll fun p hp => ?_
  obtain ⟨b', hb', hname⟩ := List.mem_map.mp (List.of_mem_zip hp).1
  exact hname ▸ reserved_of_mem hb'

/-- The last call of an expansion. -/
theorem call_innerScope {kvs : List (Kv T I E)} {vs : List (Value V)} {ctx : E}
    (hlen : vs.length = kvs.length) (hctx : AvoidsReserved h ctx) (level : LogLevel)
    (file : Option Text) (line : Option UInt32) :
    evalCall h ⟨level, .ref (.var "__msg"), .ref (.source ctx), .var "__aud", kvEntries s 0 kvs,
        file, line⟩ (innerScope ρ b a message (((kvBindings 0 kvs).map Prod.fst).zip vs)) =
      h.eval ctx ρ >>= fun context => h.emitDirect level message context a
        ((kvs.map fun kv => s.text kv.key).zip vs) file line := by
  have hlen' : vs.length = ((kvBindings 0 kvs).map Prod.fst).length := by
    rw [List.length_map, length_kvBindings, hlen]
  have hfst : (((kvBindings 0 kvs).map Prod.fst).zip vs).map Prod.fst =
      (kvBindings 0 kvs).map Prod.fst := List.map_fst_zip hlen'.ge
  have hother : ∀ x : String, x.toList[2]? ≠ some 'k' →
      x ∉ (((kvBindings 0 kvs).map Prod.fst).zip vs).map Prod.fst := by
    intro x hx
    rw [hfst]
    exact notMem_kvBindings hx 0 kvs
  have hmsg : lookup (innerScope ρ b a message (((kvBindings 0 kvs).map Prod.fst).zip vs)) "__msg" =
      (pure message : EStateM (Exit X) W _) := by
    rw [lookup, innerScope, bindAll_of_notMem (hother "__msg" (by decide)), bind_self]
  have haud : lookup (innerScope ρ b a message (((kvBindings 0 kvs).map Prod.fst).zip vs)) "__aud" =
      (pure (.audience a) : EStateM (Exit X) W _) := by
    rw [lookup, innerScope, bindAll_of_notMem (hother "__aud" (by decide)),
      bind_of_ne (by decide), bind_of_ne (by decide), bind_self]
  have hcontext : h.eval ctx (innerScope ρ b a message
      (((kvBindings 0 kvs).map Prod.fst).zip vs)) = h.eval ctx ρ := hctx _ _ agree_innerScope
  have hnodup : ((((kvBindings 0 kvs).map Prod.fst).zip vs).map Prod.fst).Nodup := by
    rw [hfst]
    exact nodup_kvBindings 0 kvs
  have hentries := mapM_kvEntries (X := X) (W := W) s h hlen (i := 0)
    (ρ := innerScope ρ b a message (((kvBindings 0 kvs).map Prod.fst).zip vs))
    fun p hp => bindAll_of_mem hnodup hp _
  simp only [evalCall, evalCode, hmsg, haud, hcontext, pure_bind, toAudience]
  refine bind_congr fun context => ?_
  exact (congrArg (· >>= _) hentries).trans (pure_bind _ _)

/-- What an expansion does behind the audience. -/
theorem exec_enabled {ctx msg : E} {kvs : List (Kv T I E)} (hmsg : AvoidsReserved h msg)
    (hkvs : ∀ kv ∈ kvs, AvoidsReserved h kv.val) (hctx : AvoidsReserved h ctx) (level : LogLevel)
    (file : Option Text) (line : Option UInt32) :
    exec (machine h) (.letIn "__msg" (.source msg) <| .lets (kvBindings 0 kvs) <|
        .call ⟨level, .ref (.var "__msg"), .ref (.source ctx), .var "__aud", kvEntries s 0 kvs,
          file, line⟩ .done) ((ρ.bind "__aud" (.audience a)).bind "__enabled" (.bool b)) = (do
      let message ← h.eval msg ρ
      let values ← kvs.mapM fun kv => h.eval kv.val ρ
      let context ← h.eval ctx ρ
      h.emitDirect level message context a ((kvs.map fun kv => s.text kv.key).zip values)
        file line) := by
  have hagree : AgreeOff Reserved ((ρ.bind "__aud" (.audience a)).bind "__enabled" (.bool b)) ρ :=
    ((AgreeOff.refl Reserved ρ).bind (.inl rfl) _).bind (.inr (.inl rfl)) _
  have heval : (machine h).eval (.source msg)
      ((ρ.bind "__aud" (.audience a)).bind "__enabled" (.bool b)) = h.eval msg ρ := hmsg _ _ hagree
  rw [exec, heval]
  refine bind_congr fun message => ?_
  rw [exec_lets, ← mapM_kvBindings h 0 kvs ρ,
    ← evalLets_of_avoids (machine h) (fun _ hb => reserved_of_mem hb)
      (fun _ hb => avoids_kvBindings h hkvs hb)
      (hagree.bind (x := "__msg") (.inr (.inr (.inl rfl))) message)]
  refine evalLets_bind_congr (machine h) _ _ fun vs hvs => ?_
  rw [length_kvBindings] at hvs
  exact bind_pure_unit.trans (call_innerScope s h hvs hctx level file line)

/-- An expansion asks for the audience first. -/
theorem exec_genBody (f : Features) (site : Site) (level : LogLevel) {ctx msg : E}
    (aud : Option E) {kvs : List (Kv T I E)} (hmsg : AvoidsReserved h msg)
    (hkvs : ∀ kv ∈ kvs, AvoidsReserved h kv.val) (hctx : AvoidsReserved h ctx) :
    exec (machine h) (genBody s f site level ctx msg aud kvs) ρ = (do
      let v ← audienceValue h aud ρ
      let audience ← toAudience v
      if audienceOn f.client f.internal f.both audience then
        let message ← h.eval msg ρ
        let values ← kvs.mapM fun kv => h.eval kv.val ρ
        let context ← h.eval ctx ρ
        h.emitDirect level message context audience
          ((kvs.map fun kv => s.text kv.key).zip values)
          (if f.sourceLocation then some site.file else none)
          (if f.sourceLocation then some site.line else none)) := by
  have haud : (machine h).eval (match aud with
      | some a => .source a
      | none => .audience .internal) ρ = audienceValue h aud ρ := by
    cases aud <;> rfl
  unfold genBody
  rw [exec, haud]
  refine bind_congr fun v => ?_
  cases v with
  | audience a =>
    have htable : (machine h).eval (.matchAudience "__aud" f.client f.internal f.both)
        (ρ.bind "__aud" (.audience a)) =
          pure (.bool (audienceOn f.client f.internal f.both a)) := by
      simp only [machine, evalCode, lookup, bind_self, pure_bind, toAudience]
    have hvar : (machine h).eval (.var "__enabled") ((ρ.bind "__aud" (.audience a)).bind
        "__enabled" (.bool (audienceOn f.client f.internal f.both a))) =
          pure (.bool (audienceOn f.client f.internal f.both a)) := by
      simp only [machine, evalCode, lookup, bind_self]
    have htest : ∀ b, (machine h).test (.bool b) = pure b := fun _ => rfl
    rw [exec, htable, pure_bind, exec_ifThen, hvar, pure_bind, htest, pure_bind, toAudience,
      pure_bind, exec_enabled s h hmsg hkvs hctx]
    exact bind_pure_unit
  | bool b => rfl
  | source v => rfl

/-- A macro call without a trailing comma compiles and does what it says. -/
theorem expansion_preserves_meaning (f : Features) (site : Site) (level : LogLevel)
    {input : List T} {call : DocumentedCall T I E} (hcall : Documented s input call false)
    (hygienic : Hygienic s h call) :
    ∃ block, logMacro s f site level input = some block ∧
      ∀ ρ, exec (machine h) block ρ = runCall s h f site level call ρ := by
  have hparse := (parseMacroInput_eq_some s).mpr ⟨call, rfl, hcall⟩
  have hsplit : splitArgs (argsOf s call) =
      (call.ctx, call.msg, lastSet (audienceOf s) call.items, pairsOf s call) := by
    have hfold := foldl_splitStep s call.items (none, [])
    rw [Option.or_none, List.nil_append] at hfold
    rw [splitArgs, argsOf, hfold]
    rfl
  refine ⟨_, (congrArg (Option.map _) hparse).trans rfl, fun ρ => ?_⟩
  rw [runCall]
  dsimp only
  rw [hsplit]
  split
  · exact exec_genBody s h f site level _ hygienic.msg hygienic.pairs hygienic.ctx
  · rfl

end Expansion

/-! ## The logger as host -/

/-- What the logger takes from a caller. -/
inductive LoggerValue (R : Type) where
  | text (s : Text)
  | context (c : LogContext R)

section Logger

variable {E R X : Type} [RequestFields R]

/-- An entry of a call, formatted by its value's `Display`. -/
def shownEntry (entry : String × Value (LoggerValue R)) :
    EStateM (Exit X) (List (LogTarget × Text)) (Text × Shown) :=
  match entry.2 with
  | .source (.text s) => pure (entry.1.toList, [s])
  | _ => throw .illTyped

/-- The logger on a thread. The world is what it has written. -/
def loggerHost (eval : E → Scope (Value (LoggerValue R)) →
      EStateM (Exit X) (List (LogTarget × Text)) (Value (LoggerValue R)))
    (config : WriterConfig) (shouldLog : LogLevel → Bool) (t : LogThread) :
    Host E (LoggerValue R) (List (LogTarget × Text)) X where
  eval := eval
  emitDirect level message context audience additional file line :=
    match message, context with
    | .source (.text m), .source (.context c) => do
      let entries ← additional.mapM shownEntry
      let line := emitDirect config shouldLog t level m c audience entries file line
      modify fun written => written ++ line.toList
    | _, _ => throw .illTyped

/-- Expressions of the documentation's own call. -/
def plainEval : List Token → Scope (Value (LoggerValue R)) →
    EStateM (Exit X) (List (LogTarget × Text)) (Value (LoggerValue R))
  | [.literal text], _ => pure (.source (.text text.toList))
  | [.ident "LogAudience", .punct ':', .punct ':', .ident "Internal"], _ =>
    pure (.audience .internal)
  | [.ident x], ρ => lookup ρ x
  | [.ident x, .punct '.', .ident "clone", .parens], ρ => lookup ρ x
  | _, _ => throw .illTyped

end Logger

/-- A terminal's logger. -/
def plainHost : Host (List Token) (LoggerValue Unit) (List (LogTarget × Text)) Unit :=
  loggerHost plainEval ⟨.stderr, .display⟩ (fun _ => true) quietThread

/-- Every feature. -/
def allFeatures : Features := ⟨fun _ => true, true, true, true, true⟩

/-- The call asks for its context only. -/
theorem hygienic_slowQuery : Hygienic plainSyn plainHost slowQuery where
  msg _ _ _ := rfl
  pairs kv hkv := by
    have hliteral : ∀ kv ∈ pairsOf plainSyn slowQuery, ∃ text, kv.val = [.literal text] := by
      have hpairs : pairsOf plainSyn slowQuery =
          (slowQuery.items.drop 1).map Item.kv := rfl
      rw [hpairs]
      simp [slowQuery, plainItem]
    obtain ⟨text, hval⟩ := hliteral kv hkv
    intro _ _ _
    rw [hval]
    rfl
  ctx ρ ρ' hagree := by
    have hctx : ¬ Reserved "ctx" := by
      rintro (h | h | h | ⟨i, h⟩)
      · exact absurd h (by decide)
      · exact absurd h (by decide)
      · exact absurd h (by decide)
      · exact kvName_ne (by decide) i h.symm
    have hsame : (lookup ρ "ctx" : EStateM (Exit Unit) (List (LogTarget × Text)) _) =
        lookup ρ' "ctx" := by
      rw [lookup, lookup, hagree "ctx" hctx]
    exact hsame

/-- Without its trailing comma, the documentation's call means what it says. -/
theorem expansion_preserves_meaning_slowQuery :
    ∃ block, logWarn plainSyn allFeatures ⟨"src/main.rs".toList, 7⟩ (slowQueryTokens false) =
        some block ∧
      ∀ ρ, exec (machine plainHost) block ρ =
        runCall plainSyn plainHost allFeatures ⟨"src/main.rs".toList, 7⟩ .warn slowQuery ρ :=
  expansion_preserves_meaning plainSyn plainHost allFeatures _ .warn (slowQuery_documented false)
    hygienic_slowQuery

/-- A scope with a name that expansions bind. -/
def takenScope : Scope (Value (LoggerValue Unit)) :=
  (Scope.bind (fun _ => none) "ctx" (.source (.context .new))).bind "__enabled"
    (.source (.text "up".toList))

-- A message that asks for such a name gets what the expansion binds there.
example : exec (machine plainHost) (genBody (T := Token) plainSyn allFeatures ⟨[], 0⟩ .info
    [.ident "ctx"] [.ident "__enabled"] none []) takenScope [] = .error .illTyped [] := rfl

end EdenLogger.MacroExpansion
