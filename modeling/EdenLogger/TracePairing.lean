import EdenLogger.DisplayLine
import EdenLogger.RunRules

/-!
# Pairs of trace and span ids

Contexts are made from one another while spans come and go on the thread. Each
context carries, as a ghost, the span ids that were cleared in it and not set
again; the state records every pair that was read from a span. An emitted record
fills a missing span id from the span that is active then, whatever trace that
span belongs to.
-/

namespace EdenLogger.TracePairing

open ExporterConfig JsonText JsonEscape LogRecord JsonLine DisplayLine RunRules

variable {R : Type} [RequestFields R]

/-! ## Contexts and what happened to their span ids -/

/-- A builder that leaves the ids alone. -/
inductive Builder (R : Type) where
  | feature (v : Text)
  | function (v : Text)
  | errorCode (v : Text)
  | errorCategory (v : Text)
  | request (v : R)
  | mapRequest (f : R → R)
  | additional (key value : Text)

/-- The context it makes. -/
def Builder.apply (c : LogContext R) : Builder R → LogContext R
  | .feature v => c.withFeature v
  | .function v => c.withFunction v
  | .errorCode v => c.withErrorCode v
  | .errorCategory v => c.withErrorCategory v
  | .request v => c.withRequest v
  | .mapRequest f => c.mapRequest f
  | .additional key value => c.withAdditional key value

/-- A context. -/
structure Held (R : Type) where
  context : LogContext R
  /-- The span ids that were cleared and not set again. -/
  cleared : List Text

/-- Add the ids of the active span. -/
def Held.withTraceContext (t : ThreadSpans) (h : Held R) : Held R where
  context := h.context.withTraceContext t
  cleared := if (extractTraceContext t).2.isSome then [] else h.cleared

/-- Clear the span id. -/
def Held.withFreshSpan (h : Held R) : Held R where
  context := h.context.withFreshSpan
  cleared := h.context.spanId.toList ++ h.cleared

/-- Merge another context. -/
def Held.merge (h other : Held R) : Held R where
  context := h.context.merge other.context
  cleared := if other.context.spanId.isSome then other.cleared else h.cleared ++ other.cleared

/-- Any other builder. -/
def Held.build (b : Builder R) (h : Held R) : Held R := ⟨b.apply h.context, h.cleared⟩

/-! ## Emission -/

/-- A way to emit. -/
inductive EmitPath where
  | record
  | displayDirect
  | jsonDirect

/-- What is emitted. -/
inductive Output (R : Type) where
  | record (log : EdenLog R)
  | display (line : Text)
  | json (line : Text)

/-- The arguments of a call besides the context. -/
structure LogCall where
  level : LogLevel
  message : Text
  audience : LogAudience
  additional : List (Text × Shown)
  file : Option Text
  line : Option UInt32

/-- Emit a context. -/
def emitOutput (path : EmitPath) (t : LogThread) (call : LogCall) (c : LogContext R) : Output R :=
  match path with
  | .record => .record (EdenLog.new t call.level call.message c call.audience)
  | .displayDirect => .display (writeDisplayDirect t [] call.level call.message c call.audience
      call.additional call.file call.line)
  | .jsonDirect => .json (writeJsonDirect t [] call.level call.message c call.audience
      call.additional call.file call.line)

/-- An output with the call and the context it was emitted for, its ids, and the
span ids that were cleared in the context. -/
structure Emitted (R : Type) where
  output : Output R
  thread : LogThread
  call : LogCall
  context : LogContext R
  ids : IdPair
  cleared : List Text

/-- The output shows its ids: in a record's fields, behind the audience of the
call's display line, and in the members behind the audience of its JSON line.
Everything else is what the call and the context determine. -/
def Emitted.Shows (e : Emitted R) : Prop :=
  match e.output with
  | .record log => (log.traceId, log.spanId) = e.ids
  | .display line =>
    line = lineText e.thread.cached.formatted
      (headText e.ids e.call.level e.call.audience e.context.feature e.context.function
        e.context.request e.context.errorCode)
      ((e.context.additional.map e.thread.order.visit).getD [] ++ callPairs e.call.additional)
      (tailText e.call.message e.call.file e.call.line)
  | .json line =>
    parse line = some (.object (membersWith e.ids e.thread e.call.level e.call.message e.context
      e.call.audience e.call.additional e.call.file e.call.line))

/-! ## Runs -/

/-- A pair of a trace id and a span id. -/
def wholePair : IdPair → List (Text × Text)
  | (some trace, some span) => [(trace, span)]
  | _ => []

/-- Contexts, records, and the pairs that were read from spans. -/
structure State (R : Type) where
  thread : LogThread
  contexts : List (Held R)
  captured : List (Text × Text)
  emitted : List (Emitted R)

/-- What an application does. A context that was used stays, as its clone. -/
inductive Action (R : Type) where
  | activate (t : LogThread)
  | new
  | traceContext
  | withTraceContext (i : ℕ)
  | withFreshSpan (i : ℕ)
  | clone (i : ℕ)
  | build (b : Builder R) (i : ℕ)
  | merge (i j : ℕ)
  | emit (path : EmitPath) (call : LogCall) (i : ℕ)

/-- Keep a context. -/
def State.keep (s : State R) (h : Held R) : State R := { s with contexts := s.contexts ++ [h] }

/-- Read the active span. -/
def State.capture (s : State R) : State R :=
  { s with captured := s.captured ++ wholePair (extractTraceContext s.thread.spans) }

/-- A context as it is emitted. -/
def emission (path : EmitPath) (t : LogThread) (call : LogCall) (h : Held R) : Emitted R where
  output := emitOutput path t call h.context
  thread := t
  call := call
  context := h.context
  ids := effectiveTraceContext h.context t.spans
  cleared := h.cleared

/-- Emit a context. The active span is read if the context lacks an id. -/
def State.emit (s : State R) (path : EmitPath) (call : LogCall) (h : Held R) : State R :=
  let s' := if h.context.traceId.isSome && h.context.spanId.isSome then s else s.capture
  { s' with emitted := s'.emitted ++ [emission path s.thread call h] }

/-- One action. -/
def step (s : State R) : Action R → Option (State R)
  | .activate t => some { s with thread := t }
  | .new => some (s.keep ⟨LogContext.new, []⟩)
  | .traceContext => some (s.capture.keep ⟨traceContext s.thread.spans, []⟩)
  | .withTraceContext i =>
    s.contexts[i]?.map fun h => s.capture.keep (h.withTraceContext s.thread.spans)
  | .withFreshSpan i => s.contexts[i]?.map fun h => s.keep h.withFreshSpan
  | .clone i => s.contexts[i]?.map s.keep
  | .build b i => s.contexts[i]?.map fun h => s.keep (h.build b)
  | .merge i j => s.contexts[i]?.bind fun h => s.contexts[j]?.map fun o => s.keep (h.merge o)
  | .emit path call i => s.contexts[i]?.map (s.emit path call)

/-- No context yet. -/
def init (t : LogThread) : State R := ⟨t, [], [], []⟩

/-! ## The condition -/

/-- A context without a span id is merged into one with a span id only if it
brings no trace id, or the same one and another span was cleared in it. -/
def MergeOk (h other : Held R) : Prop :=
  other.context.spanId = none → ∀ span, h.context.spanId = some span →
    ∀ trace, other.context.traceId = some trace →
      h.context.traceId = some trace ∧ span ∉ other.cleared

/-- A context with a trace id and no span id is emitted only while no span is
active, or one of the same trace that was not cleared in the context. -/
def EmitOk (t : ThreadSpans) (h : Held R) : Prop :=
  h.context.spanId = none → ∀ trace, h.context.traceId = some trace →
    ∀ pair ∈ wholePair (extractTraceContext t), pair.1 = trace ∧ pair.2 ∉ h.cleared

/-- The condition of every step. -/
def Careful (s : State R) : Action R → Prop
  | .merge i j => ∀ h ∈ s.contexts[i]?, ∀ o ∈ s.contexts[j]?, MergeOk h o
  | .emit _ _ i => ∀ h ∈ s.contexts[i]?, EmitOk s.thread.spans h
  | _ => True

/-! ## What is read from a span -/

/-- A span has both ids or none. -/
theorem extract_pair (t : ThreadSpans) :
    extractTraceContext t = (none, none) ∨
      ∃ trace span, extractTraceContext t = (some trace, some span) := by
  have hfast : extractFromFastTelemetry t = (none, none) ∨
      ∃ trace span, extractFromFastTelemetry t = (some trace, some span) := by
    unfold extractFromFastTelemetry
    split
    · exact Or.inr ⟨_, _, rfl⟩
    · exact Or.inl rfl
  have hotel : extractFromOtel t = (none, none) ∨
      ∃ trace span, extractFromOtel t = (some trace, some span) := by
    unfold extractFromOtel
    split
    · exact Or.inr ⟨_, _, rfl⟩
    · exact Or.inl rfl
  unfold extractTraceContext
  split
  · split
    · exact hfast
    · exact Or.inl rfl
  · split
    · exact hotel
    · exact Or.inl rfl

/-- Every way to emit shows the ids of the context, filled in from the span. -/
theorem emission_shows (path : EmitPath) (t : LogThread) (call : LogCall) (h : Held R) :
    (emission path t call h).Shows := by
  cases path with
  | record => rfl
  | displayDirect =>
    exact writeDisplayDirect_parts t call.level call.message h.context call.audience
      call.additional call.file call.line
  | jsonDirect =>
    change parse (writeJsonDirect t [] call.level call.message h.context call.audience
      call.additional call.file call.line) = some (.object (lineMembers t call.level call.message
        h.context call.audience call.additional call.file call.line))
    rw [writeJsonDirect_eq, List.nil_append, parse_objectText, lineTexts_pair]

/-! ## The invariant -/

/-- A span id stands next to the trace id it was read with, and was not cleared;
span ids were cleared only behind a trace id. -/
structure Held.Paired (captured : List (Text × Text)) (h : Held R) : Prop where
  span : ∀ span, h.context.spanId = some span →
    ∃ trace, h.context.traceId = some trace ∧ (trace, span) ∈ captured ∧ span ∉ h.cleared
  cleared : h.context.traceId = none → h.cleared = []

/-- What a record must show. -/
def Emitted.Paired (captured : List (Text × Text)) (e : Emitted R) : Prop :=
  e.Shows ∧ ∀ pair ∈ wholePair e.ids, pair ∈ captured ∧ pair.2 ∉ e.cleared

/-- Contexts and records are paired. -/
structure Inv (s : State R) : Prop where
  contexts : ∀ h ∈ s.contexts, h.Paired s.captured
  emitted : ∀ e ∈ s.emitted, e.Paired s.captured

omit [RequestFields R] in
/-- More pairs do no harm. -/
theorem Held.Paired.mono {captured more : List (Text × Text)} {h : Held R}
    (hp : h.Paired captured) : h.Paired (captured ++ more) where
  span := by
    intro span hspan
    obtain ⟨trace, htrace, hmem, hnot⟩ := hp.span span hspan
    exact ⟨trace, htrace, List.mem_append_left more hmem, hnot⟩
  cleared := hp.cleared

omit [RequestFields R] in
/-- A span id has a trace id beside it. -/
theorem Held.Paired.spanId_none {captured : List (Text × Text)} {h : Held R}
    (hp : h.Paired captured) (hnone : h.context.traceId = none) : h.context.spanId = none := by
  cases hs : h.context.spanId with
  | none => rfl
  | some span =>
    obtain ⟨trace, htrace, -⟩ := hp.span span hs
    rw [hnone] at htrace
    cases htrace

/-- More pairs do no harm to a record. -/
theorem Emitted.Paired.mono {captured more : List (Text × Text)} {e : Emitted R}
    (hp : e.Paired captured) : e.Paired (captured ++ more) := by
  refine ⟨hp.1, fun pair hpair => ?_⟩
  obtain ⟨hmem, hnot⟩ := hp.2 pair hpair
  exact ⟨List.mem_append_left more hmem, hnot⟩

/-- Reading a span keeps the invariant. -/
theorem Inv.capture {s : State R} (h : Inv s) : Inv s.capture where
  contexts := fun c hc => (h.contexts c hc).mono
  emitted := fun e he => (h.emitted e he).mono

/-- A paired context can be kept. -/
theorem Inv.keep {s : State R} (h : Inv s) {c : Held R} (hc : c.Paired s.captured) :
    Inv (s.keep c) where
  contexts := by
    intro d hd
    rcases List.mem_append.mp hd with hd | hd
    · exact h.contexts d hd
    · exact List.mem_singleton.mp hd ▸ hc
  emitted := h.emitted

/-- A paired record can be written. -/
theorem Inv.write {s : State R} (h : Inv s) {e : Emitted R} (he : e.Paired s.captured) :
    Inv { s with emitted := s.emitted ++ [e] } where
  contexts := h.contexts
  emitted := by
    intro d hd
    rcases List.mem_append.mp hd with hd | hd
    · exact h.emitted d hd
    · exact List.mem_singleton.mp hd ▸ he

/-- A new context has no ids. -/
theorem paired_new (captured : List (Text × Text)) :
    (⟨LogContext.new, []⟩ : Held R).Paired captured where
  span := fun _ h => by cases h
  cleared := fun _ => rfl

omit [RequestFields R] in
/-- Both ids are read from one span. -/
theorem paired_withTraceContext {captured : List (Text × Text)} {h : Held R} (t : ThreadSpans)
    (hp : h.Paired captured) :
    (h.withTraceContext t).Paired (captured ++ wholePair (extractTraceContext t)) := by
  rcases extract_pair t with hnone | ⟨trace, span, hsome⟩
  · have hsame : h.withTraceContext t = h := by
      simp only [Held.withTraceContext, LogContext.withTraceContext, LogContext.withIds, hnone,
        Option.elim_none, Option.isSome_none, Bool.false_eq_true, if_false]
    rw [hsame]
    exact hp.mono
  · have hids : (h.withTraceContext t).context.traceId = some trace ∧
        (h.withTraceContext t).context.spanId = some span ∧
        (h.withTraceContext t).cleared = [] := by
      simp only [Held.withTraceContext, LogContext.withTraceContext, LogContext.withIds, hsome,
        Option.elim_some, LogContext.withTraceId, LogContext.withSpanId, Option.isSome_some,
        if_true, and_self]
    obtain ⟨htrace, hspan, hcleared⟩ := hids
    constructor
    · intro other hother
      obtain rfl := Option.some.inj (hspan.symm.trans hother)
      refine ⟨trace, htrace, ?_, by simp [hcleared]⟩
      rw [hsome]
      exact List.mem_append_right captured List.mem_cons_self
    · exact fun _ => hcleared

omit [RequestFields R] in
/-- A cleared span id is no span id. -/
theorem paired_withFreshSpan {captured : List (Text × Text)} {h : Held R}
    (hp : h.Paired captured) : h.withFreshSpan.Paired captured where
  span := fun _ hspan => by cases hspan
  cleared := by
    intro hnone
    have hnone' : h.context.traceId = none := hnone
    have hspan := hp.spanId_none hnone'
    change h.context.spanId.toList ++ h.cleared = []
    rw [hspan, hp.cleared hnone']
    rfl

omit [RequestFields R] in
/-- The other builders leave the ids alone. -/
theorem paired_build {captured : List (Text × Text)} {h : Held R} (b : Builder R)
    (hp : h.Paired captured) : (h.build b).Paired captured := by
  cases b <;> exact ⟨hp.span, hp.cleared⟩

/-- A merged context is paired on the condition. -/
theorem paired_merge {captured : List (Text × Text)} {h other : Held R} (hp : h.Paired captured)
    (ho : other.Paired captured) (hok : MergeOk h other) : (h.merge other).Paired captured := by
  cases hs : other.context.spanId with
  | some span =>
    obtain ⟨trace, htrace, hmem, hnot⟩ := ho.span span hs
    have hids : (h.merge other).context.traceId = some trace ∧
        (h.merge other).context.spanId = some span ∧ (h.merge other).cleared = other.cleared := by
      simp only [Held.merge, LogContext.merge, htrace, hs, Option.some_or, Option.isSome_some,
        if_true, and_self]
    obtain ⟨htrace', hspan', hcleared'⟩ := hids
    constructor
    · intro s' hs'
      obtain rfl := Option.some.inj (hspan'.symm.trans hs')
      exact ⟨trace, htrace', hmem, by rw [hcleared']; exact hnot⟩
    · intro hnone
      rw [htrace'] at hnone
      cases hnone
  | none =>
    have hids : (h.merge other).context.traceId = other.context.traceId.or h.context.traceId ∧
        (h.merge other).context.spanId = h.context.spanId ∧
        (h.merge other).cleared = h.cleared ++ other.cleared := by
      simp only [Held.merge, LogContext.merge, hs, Option.none_or, Option.isSome_none,
        Bool.false_eq_true, if_false, and_self]
    obtain ⟨htrace', hspan', hcleared'⟩ := hids
    constructor
    · intro span hspan
      rw [hspan'] at hspan
      obtain ⟨trace, htrace, hmem, hnot⟩ := hp.span span hspan
      rw [htrace', hcleared']
      cases ht : other.context.traceId with
      | none =>
        refine ⟨trace, htrace, hmem, ?_⟩
        rw [ho.cleared ht, List.append_nil]
        exact hnot
      | some brought =>
        obtain ⟨hsame, hother⟩ := hok hs span hspan brought ht
        obtain rfl := Option.some.inj (htrace.symm.trans hsame)
        exact ⟨trace, rfl, hmem, fun hin => (List.mem_append.mp hin).elim hnot hother⟩
    · intro hnone
      rw [htrace', Option.or_eq_none_iff] at hnone
      rw [hcleared', hp.cleared hnone.2, ho.cleared hnone.1]
      rfl

/-- A context with both ids shows its own pair. -/
theorem paired_own {captured : List (Text × Text)} (t : LogThread) (path : EmitPath)
    (call : LogCall) {h : Held R} (hp : h.Paired captured)
    (hboth : (h.context.traceId.isSome && h.context.spanId.isSome) = true) :
    (emission path t call h).Paired captured := by
  refine ⟨emission_shows path t call h, ?_⟩
  rw [emission, effectiveTraceContext, if_pos hboth]
  obtain ⟨-, hspan⟩ := (Bool.and_eq_true _ _).mp hboth
  obtain ⟨span, hspan⟩ := Option.isSome_iff_exists.mp hspan
  obtain ⟨trace, htrace, hmem, hnot⟩ := hp.span span hspan
  rw [htrace, hspan]
  exact List.forall_mem_singleton.mpr ⟨hmem, hnot⟩

/-- A context that lacks an id shows a pair of the active span on the condition. -/
theorem paired_filled {s : State R} (path : EmitPath) (call : LogCall) {h : Held R}
    (hp : h.Paired s.captured) (hok : EmitOk s.thread.spans h)
    (hlack : (h.context.traceId.isSome && h.context.spanId.isSome) = false) :
    (emission path s.thread call h).Paired s.capture.captured := by
  refine ⟨emission_shows path s.thread call h, ?_⟩
  rw [emission, effectiveTraceContext, hlack, if_neg Bool.false_ne_true]
  dsimp only
  have hspan : h.context.spanId = none := by
    rcases Bool.and_eq_false_iff.mp hlack with ht | hs
    · exact hp.spanId_none (Option.not_isSome_iff_eq_none.mp (Bool.eq_false_iff.mp ht))
    · exact Option.not_isSome_iff_eq_none.mp (Bool.eq_false_iff.mp hs)
  rw [hspan, Option.none_or]
  rcases extract_pair s.thread.spans with hnone | ⟨trace, span, hsome⟩
  · rw [hnone]
    cases h.context.traceId <;> exact fun _ hmem => absurd hmem List.not_mem_nil
  · have hcaptured : (trace, span) ∈ s.capture.captured := by
      refine List.mem_append_right s.captured ?_
      rw [hsome]
      exact List.mem_cons_self
    rw [hsome]
    cases ht : h.context.traceId with
    | none =>
      refine List.forall_mem_singleton.mpr ⟨hcaptured, ?_⟩
      rw [hp.cleared ht]
      exact List.not_mem_nil
    | some own =>
      have hpair := hok hspan own ht (trace, span) (by rw [hsome]; exact List.mem_cons_self)
      obtain ⟨hsame, hnot⟩ := hpair
      dsimp only at hsame hnot
      subst hsame
      exact List.forall_mem_singleton.mpr ⟨hcaptured, hnot⟩

/-- A record is paired on the condition. -/
theorem paired_emit {s : State R} (path : EmitPath) (call : LogCall) {h : Held R} (hi : Inv s)
    (hp : h.Paired s.captured) (hok : EmitOk s.thread.spans h) : Inv (s.emit path call h) := by
  unfold State.emit
  cases hboth : h.context.traceId.isSome && h.context.spanId.isSome with
  | true =>
    rw [if_pos rfl]
    exact hi.write (paired_own s.thread path call hp hboth)
  | false =>
    rw [if_neg Bool.false_ne_true]
    exact hi.capture.write (paired_filled path call hp hok hboth)

/-- Every action keeps the invariant on the condition. -/
theorem inv_step {s s' : State R} {a : Action R} (hi : Inv s) (hok : Careful s a)
    (h : step s a = some s') : Inv s' := by
  have hat : ∀ {i : ℕ} {c : Held R}, s.contexts[i]? = some c → c.Paired s.captured := fun hc =>
    hi.contexts _ (List.mem_of_getElem? hc)
  cases a with
  | activate t =>
    cases h
    exact ⟨hi.contexts, hi.emitted⟩
  | new =>
    cases h
    exact hi.keep (paired_new _)
  | traceContext =>
    cases h
    have hsame : (⟨traceContext s.thread.spans, []⟩ : Held R) =
        Held.withTraceContext s.thread.spans ⟨LogContext.new, []⟩ := by
      rw [Held.withTraceContext, ite_self]
      rfl
    rw [hsame]
    exact hi.capture.keep (paired_withTraceContext s.thread.spans (paired_new s.captured))
  | withTraceContext i =>
    obtain ⟨c, hc, rfl⟩ := Option.map_eq_some_iff.mp h
    exact hi.capture.keep (paired_withTraceContext _ (hat hc))
  | withFreshSpan i =>
    obtain ⟨c, hc, rfl⟩ := Option.map_eq_some_iff.mp h
    exact hi.keep (paired_withFreshSpan (hat hc))
  | clone i =>
    obtain ⟨c, hc, rfl⟩ := Option.map_eq_some_iff.mp h
    exact hi.keep (hat hc)
  | build b i =>
    obtain ⟨c, hc, rfl⟩ := Option.map_eq_some_iff.mp h
    exact hi.keep (paired_build b (hat hc))
  | merge i j =>
    obtain ⟨c, hc, h⟩ := Option.bind_eq_some_iff.mp h
    obtain ⟨o, ho, rfl⟩ := Option.map_eq_some_iff.mp h
    exact hi.keep (paired_merge (hat hc) (hat ho) (hok c hc o ho))
  | emit path call i =>
    obtain ⟨c, hc, rfl⟩ := Option.map_eq_some_iff.mp h
    exact paired_emit path call hi (hat hc) (hok c hc)

/-- Ids stay paired. On every run whose merges and emissions meet the condition,
each record shows ids that were read from one span, and no span id that was
cleared in its context. -/
theorem trace_ids_stay_paired {t : LogThread} {s : State R}
    (h : ReachWhile step Careful (init t) s) :
    ∀ e ∈ s.emitted, e.Shows ∧
      ∀ trace span, e.ids = (some trace, some span) →
        (trace, span) ∈ s.captured ∧ span ∉ e.cleared := by
  have h0 : Inv (init t : State R) :=
    ⟨fun _ hmem => absurd hmem List.not_mem_nil, fun _ hmem => absurd hmem List.not_mem_nil⟩
  have hinv : Inv s := h.invariant h0 fun _ _ _ hi hok hs => inv_step hi hok hs
  intro e he
  obtain ⟨hshows, hpair⟩ := hinv.emitted e he
  refine ⟨hshows, fun trace span hids => ?_⟩
  rw [hids] at hpair
  exact hpair (trace, span) List.mem_cons_self

/-- A thread in a span. -/
def inSpan (trace span : UInt8) : LogThread :=
  { quietThread with
    spans := ⟨.fastTelemetry, true, true, some (.replicate 16 trace), some (.replicate 8 span),
      .replicate 16 0, .replicate 8 0⟩ }

/-- A call. -/
def plainCall : LogCall := ⟨.info, ['u', 'p'], .internal, [], none, none⟩

/-- Emit only contexts with a span id, or outside of spans; merge only those with one. -/
def safeCheck (s : State Unit) : Action Unit → Bool
  | .merge _ j => s.contexts[j]?.any fun o => o.context.spanId.isSome
  | .emit _ _ i => s.contexts[i]?.any fun h =>
      h.context.spanId.isSome || (wholePair (extractTraceContext s.thread.spans)).isEmpty
  | _ => true

/-- What passes the check meets the condition. -/
theorem careful_of_safeCheck (s : State Unit) (a : Action Unit) (h : safeCheck s a = true) :
    Careful s a := by
  cases a with
  | merge i j =>
    intro c hc o ho hnone
    have hsome : (s.contexts[j]?.any fun o => o.context.spanId.isSome) = true := h
    rw [ho, Option.any_some, hnone] at hsome
    cases hsome
  | emit path call i =>
    intro c hc hnone trace htrace pair hpair
    have hsafe : (s.contexts[i]?.any fun h => h.context.spanId.isSome ||
        (wholePair (extractTraceContext s.thread.spans)).isEmpty) = true := h
    rw [hc, Option.any_some, hnone, Option.isSome_none, Bool.false_or, List.isEmpty_iff] at hsafe
    rw [hsafe] at hpair
    exact absurd hpair List.not_mem_nil
  | _ => trivial

/-- A trace id without a span id, and both. -/
def showsTraceAndPair (s : State Unit) : Bool :=
  (s.emitted.any fun e => e.ids.1.isSome && e.ids.2.isNone) &&
    s.emitted.any fun e => e.ids.1.isSome && e.ids.2.isSome

/-- Two contexts of one span, one of which is cleared and emitted outside of
spans, the other merged into it and emitted in a span of another trace. -/
theorem trace_ids_stay_paired_merged :
    ∃ s : State Unit, ReachWhile step Careful (init (inSpan 1 2)) s ∧ showsTraceAndPair s = true ∧
      ∀ e ∈ s.emitted, e.Shows ∧
        ∀ trace span, e.ids = (some trace, some span) →
          (trace, span) ∈ s.captured ∧ span ∉ e.cleared := by
  obtain ⟨s, hs, hshows⟩ := exists_reach_of_replay step careful_of_safeCheck (init (inSpan 1 2))
    [.traceContext, .clone 0, .withFreshSpan 1, .activate quietThread,
      .emit .displayDirect plainCall 2, .merge 2 0, .activate (inSpan 3 4),
      .emit .jsonDirect plainCall 3] showsTraceAndPair (by decide +kernel)
  exact ⟨s, hs, hshows, trace_ids_stay_paired hs⟩

/-- A context of one span is cleared, and emitted in another. -/
def freshRun (second : LogThread) : List (Action Unit) :=
  [.traceContext, .withFreshSpan 0, .activate second, .emit .record plainCall 1]

/-- A record shows ids that were not read together. -/
def mixedIds (s : State Unit) : Bool :=
  s.emitted.any fun e => (wholePair e.ids).any fun p => decide (p ∉ s.captured)

/-- A record shows an id that was cleared. -/
def clearedId (s : State Unit) : Bool :=
  s.emitted.any fun e => (wholePair e.ids).any fun p => decide (p.2 ∈ e.cleared)

/-- What the only pair is. -/
theorem ids_of_wholePair {ids : IdPair} {p : Text × Text} (h : p ∈ wholePair ids) :
    ids = (some p.1, some p.2) := by
  obtain ⟨trace, span⟩ := ids
  cases trace with
  | none => exact absurd h List.not_mem_nil
  | some trace =>
    cases span with
    | none => exact absurd h List.not_mem_nil
    | some span => rw [List.mem_singleton.mp h]

/-- In a span of another trace, a context whose span id was cleared shows that
span's id behind its own trace id; in its own span it shows the cleared id. -/
theorem fresh_span_mixes_ids :
    (¬ ∀ s : State Unit, Reach step (init (inSpan 1 2)) s → ∀ e ∈ s.emitted, ∀ trace span,
      e.ids = (some trace, some span) → (trace, span) ∈ s.captured) ∧
    ¬ ∀ s : State Unit, Reach step (init (inSpan 1 2)) s → ∀ e ∈ s.emitted, ∀ trace span,
      e.ids = (some trace, some span) → span ∉ e.cleared := by
  obtain ⟨s, hs, hmixed⟩ := exists_reach step (init (inSpan 1 2)) (freshRun (inSpan 3 4)) mixedIds
    (by decide +kernel)
  obtain ⟨s', hs', hcleared⟩ := exists_reach step (init (inSpan 1 2)) (freshRun (inSpan 1 2))
    clearedId (by decide +kernel)
  constructor
  · intro hall
    obtain ⟨e, he, hpairs⟩ := List.any_eq_true.mp hmixed
    obtain ⟨p, hp, hnot⟩ := List.any_eq_true.mp hpairs
    exact of_decide_eq_true hnot (hall s hs e he p.1 p.2 (ids_of_wholePair hp))
  · intro hall
    obtain ⟨e, he, hpairs⟩ := List.any_eq_true.mp hcleared
    obtain ⟨p, hp, hin⟩ := List.any_eq_true.mp hpairs
    exact hall s' hs' e he p.1 p.2 (ids_of_wholePair hp) (of_decide_eq_true hin)

end EdenLogger.TracePairing
