import EdenLogger.ExporterConfig
import EdenLogger.JsonEscape
import Mathlib.Data.List.AList

/-!
# Log records and their context

A context collects trace ids, names, the request block and further entries. A
record is made from a context, whose missing trace ids are filled in from the
span that is active on the thread. The request block is the application's: it
is known by the calls it makes on a field writer.
-/

namespace EdenLogger.LogRecord

open ExporterConfig JsonEscape JsonText

/-- A string. -/
abbrev Text := List Char

/-- A map from strings to strings. -/
abbrev Fields := AList fun _ : Text => Text

/-- The order in which maps are visited. -/
structure MapOrder where
  /-- The entries of a map, in that order. -/
  visit : Fields → List (Text × Text)
  /-- Each entry is visited once. -/
  visit_perm : ∀ m, (visit m).Perm (m.entries.map fun e => (e.1, e.2))

/-- The order of insertion, last first. -/
def MapOrder.entries : MapOrder := ⟨fun m => m.entries.map fun e => (e.1, e.2), fun _ => .refl _⟩

/-- `extend`: insert the entries of another map. -/
def Fields.extend (m other : Fields) : Fields := other.entries.foldl (fun m e => m.insert e.1 e.2) m

/-- A `Display` value, by the chunks it writes. -/
abbrev Shown := List Text

/-- `to_string`. -/
def Shown.text (v : Shown) : Text := v.flatten

/-- Log levels in upper case. -/
def levelStr : LogLevel → Text
  | .trace => "TRACE".toList
  | .debug => "DEBUG".toList
  | .info => "INFO".toList
  | .warn => "WARN".toList
  | .error => "ERROR".toList

/-- Log levels in ANSI colours. -/
def coloredStr : LogLevel → Text
  | .trace => "\x1b[35mTRACE\x1b[0m".toList
  | .debug => "\x1b[36mDEBUG\x1b[0m".toList
  | .info => "\x1b[32mINFO\x1b[0m".toList
  | .warn => "\x1b[33mWARN\x1b[0m".toList
  | .error => "\x1b[31mERROR\x1b[0m".toList

/-- Audiences in upper case. -/
def audienceStr : LogAudience → Text
  | .internal => "INTERNAL".toList
  | .client => "CLIENT".toList
  | .both => "BOTH".toList

/-! ## Request fields -/

/-- A call on a field writer. -/
inductive FieldCall where
  | str (key value : Text)
  | u64 (key : Text) (value : UInt64)
  | i64 (key : Text) (value : Int64)
  | bool (key : Text) (value : Bool)
  | display (key : Text) (value : Shown)

/-- The key that a call writes. -/
def callKey : FieldCall → Text
  | .str key _ | .u64 key _ | .i64 key _ | .bool key _ | .display key _ => key

/-- The request block of an application. -/
class RequestFields (R : Type) where
  /-- An empty block. -/
  default : R
  /-- Calls on the display writer. -/
  writeDisplay : R → List FieldCall
  /-- Calls on the JSON writer. -/
  writeJson : R → List FieldCall
  /-- Fields set in the second block override the first. -/
  merge : R → R → R

/-- No request fields. -/
instance : RequestFields Unit := ⟨(), fun _ => [], fun _ => [], fun _ _ => ()⟩

/-! ## Trace ids -/

/-- Lower-case hexadecimal digits of bytes. -/
def hexEncode (bytes : List UInt8) : Text :=
  bytes.flatMap fun b => [hexChar ⟨b.toNat / 16, high_lt b⟩, hexChar ⟨b.toNat % 16, low_lt b⟩]

/-- A trace id. -/
abbrev TraceId := Vector UInt8 16

/-- A span id. -/
abbrev SpanId := Vector UInt8 8

/-- `hex_encode_16`. -/
def hexEncode16 (bytes : TraceId) : Text := hexEncode bytes.toList

/-- `hex_encode_8`. -/
def hexEncode8 (bytes : SpanId) : Text := hexEncode bytes.toList

/-- A trace id and a span id, each of which may be missing. -/
abbrev IdPair := Option Text × Option Text

/-- `ids_from_bytes`. -/
def idsFromBytes (trace : TraceId) (span : SpanId) : IdPair :=
  (some (hexEncode16 trace), some (hexEncode8 span))

/-- Source of the ids. -/
inductive TraceSource where
  | fastTelemetry
  | otel
  deriving DecidableEq

/-- What a thread's span contexts hold, and which of them are compiled in. -/
structure ThreadSpans where
  /-- The selected source. -/
  source : TraceSource
  /-- Whether fast-telemetry is compiled in. -/
  fastTelemetryContext : Bool
  /-- Whether OpenTelemetry is compiled in. -/
  otelContext : Bool
  /-- The trace id of fast-telemetry. -/
  fastTrace : Option TraceId
  /-- The span id of fast-telemetry. -/
  fastSpan : Option SpanId
  /-- The trace id of the OpenTelemetry context. -/
  otelTrace : TraceId
  /-- The span id of the OpenTelemetry context. -/
  otelSpan : SpanId

/-- Whether the OpenTelemetry context is valid: neither id is zero. -/
def ThreadSpans.otelValid (t : ThreadSpans) : Bool :=
  t.otelTrace.toList.any (· != 0) && t.otelSpan.toList.any (· != 0)

/-- `extract_from_fast_telemetry`. -/
def extractFromFastTelemetry (t : ThreadSpans) : IdPair :=
  match t.fastTrace, t.fastSpan with
  | some trace, some span => idsFromBytes trace span
  | _, _ => (none, none)

/-- `extract_from_otel`. -/
def extractFromOtel (t : ThreadSpans) : IdPair :=
  if t.otelValid then idsFromBytes t.otelTrace t.otelSpan else (none, none)

/-- The ids of the span that is active on the thread. -/
def extractTraceContext (t : ThreadSpans) : IdPair :=
  match t.source with
  | .fastTelemetry => if t.fastTelemetryContext then extractFromFastTelemetry t else (none, none)
  | .otel => if t.otelContext then extractFromOtel t else (none, none)

/-! ## Contexts -/

variable {R : Type} [RequestFields R]

/-- Accumulated metadata. -/
structure LogContext (R : Type) where
  traceId : Option Text
  spanId : Option Text
  feature : Option Text
  function : Option Text
  errorCode : Option Text
  errorCategory : Option Text
  /-- Request block. -/
  request : R
  /-- Further entries. -/
  additional : Option Fields

/-- An empty context. -/
def LogContext.new : LogContext R :=
  ⟨none, none, none, none, none, none, RequestFields.default, none⟩

/-- Set the trace id. -/
def LogContext.withTraceId (c : LogContext R) (traceId : Text) : LogContext R :=
  { c with traceId := some traceId }

/-- Set the span id. -/
def LogContext.withSpanId (c : LogContext R) (spanId : Text) : LogContext R :=
  { c with spanId := some spanId }

/-- Set the feature. -/
def LogContext.withFeature (c : LogContext R) (feature : Text) : LogContext R :=
  { c with feature := some feature }

/-- Set the function. -/
def LogContext.withFunction (c : LogContext R) (function : Text) : LogContext R :=
  { c with function := some function }

/-- Set the error code. -/
def LogContext.withErrorCode (c : LogContext R) (code : Text) : LogContext R :=
  { c with errorCode := some code }

/-- Set the error category. -/
def LogContext.withErrorCategory (c : LogContext R) (category : Text) : LogContext R :=
  { c with errorCategory := some category }

/-- Replace the request block. -/
def LogContext.withRequest (c : LogContext R) (request : R) : LogContext R :=
  { c with request := request }

/-- Change the request block. -/
def LogContext.mapRequest (c : LogContext R) (f : R → R) : LogContext R :=
  { c with request := f c.request }

/-- Add an entry. -/
def LogContext.withAdditional (c : LogContext R) (key value : Text) : LogContext R :=
  { c with additional := some ((c.additional.getD ∅).insert key value) }

/-- Clear the span id, and keep the trace id. -/
def LogContext.withFreshSpan (c : LogContext R) : LogContext R := { c with spanId := none }

/-- Merge another context, whose fields override. -/
def LogContext.merge (c other : LogContext R) : LogContext R where
  traceId := other.traceId.or c.traceId
  spanId := other.spanId.or c.spanId
  feature := other.feature.or c.feature
  function := other.function.or c.function
  errorCode := other.errorCode.or c.errorCode
  errorCategory := other.errorCategory.or c.errorCategory
  request := RequestFields.merge c.request other.request
  additional :=
    match other.additional with
    | some m => some (Fields.extend (c.additional.getD ∅) m)
    | none => c.additional

/-- Set the ids that were extracted. -/
def LogContext.withIds (c : LogContext R) (ids : IdPair) : LogContext R :=
  let traced := ids.1.elim c c.withTraceId
  ids.2.elim traced traced.withSpanId

/-- A context with the ids of the active span. -/
def traceContext (t : ThreadSpans) : LogContext R := LogContext.new.withIds (extractTraceContext t)

/-- Add the ids of the active span. -/
def LogContext.withTraceContext (c : LogContext R) (t : ThreadSpans) : LogContext R :=
  c.withIds (extractTraceContext t)

/-- The ids of a record: those of its context, and the active span's where the
context has none. -/
def effectiveTraceContext (c : LogContext R) (t : ThreadSpans) : IdPair :=
  if c.traceId.isSome && c.spanId.isSome then (c.traceId, c.spanId)
  else (c.traceId.or (extractTraceContext t).1, c.spanId.or (extractTraceContext t).2)

/-! ## Timestamps -/

/-- Calendar fields of an instant. -/
structure Calendar where
  year : ℤ
  month : ℕ
  day : ℕ
  hour : ℕ
  minute : ℕ
  second : ℕ
  millis : ℕ

/-- Decimal digits of a signed number. -/
def itoa : ℤ → Text
  | .ofNat n => decimal n
  | .negSucc n => '-' :: decimal (n + 1)

/-- Number of digits, up to four. -/
def digitCount (n : ℕ) : ℕ := if n ≤ 9 then 1 else if n ≤ 99 then 2 else if n ≤ 999 then 3 else 4

/-- `as u64` of a signed number. -/
def asU64 (n : ℤ) : ℕ := (n % 18446744073709551616).toNat

/-- Two digits. -/
def twoDigits (n : ℕ) : Text := (if n < 10 then ['0'] else []) ++ decimal n

/-- `YYYY-MM-DDTHH:MM:SS.mmmZ`. -/
def writeTimestampRfc3339 (ts : Calendar) : Text :=
  (if ts.year < 1000 then List.replicate (4 - digitCount (asU64 ts.year)) '0' else []) ++
    itoa ts.year ++ ['-'] ++ twoDigits ts.month ++ ['-'] ++ twoDigits ts.day ++ ['T'] ++
    twoDigits ts.hour ++ [':'] ++ twoDigits ts.minute ++ [':'] ++ twoDigits ts.second ++ ['.'] ++
    (if ts.millis < 100 then ['0'] else []) ++ (if ts.millis < 10 then ['0'] else []) ++
    decimal ts.millis ++ ['Z']

/-- Digits need no escape. -/
theorem decimal_unescaped {n : ℕ} {c : Char} (h : c ∈ decimal n) : mustEscape c = false := by
  have hd := isDigit_decimal h
  simp only [Char.isDigit, Bool.and_eq_true, decide_eq_true_eq, ge_iff_le, UInt32.le_iff_toNat_le]
    at hd
  have hlo : 48 ≤ c.toNat := hd.1
  have hhi : c.toNat ≤ 57 := hd.2
  refine decide_eq_false ?_
  rw [← Char.toNat_inj, ← Char.toNat_inj]
  change ¬ (c.toNat = 34 ∨ c.toNat = 92 ∨ c.toNat < 32)
  omega

/-- Nor does a sign in front of them. -/
theorem itoa_unescaped (n : ℤ) : ∀ c ∈ itoa n, mustEscape c = false := by
  cases n with
  | ofNat n => exact fun c => decimal_unescaped
  | negSucc n => exact List.forall_mem_cons.mpr ⟨rfl, fun c => decimal_unescaped⟩

/-- A timestamp needs no escape. -/
theorem timestamp_unescaped (ts : Calendar) :
    ∀ c ∈ writeTimestampRfc3339 ts, mustEscape c = false := by
  have hdecimal : ∀ n, ∀ c ∈ decimal n, mustEscape c = false := fun _ _ => decimal_unescaped
  have hpad : ∀ n k : ℕ, ∀ c ∈ if n < k then ['0'] else [], mustEscape c = false := by
    intro n k
    split <;> simp [mustEscape]
  have htwo : ∀ n, ∀ c ∈ twoDigits n, mustEscape c = false := by
    intro n
    unfold twoDigits
    exact List.forall_mem_append.mpr ⟨hpad n 10, hdecimal n⟩
  have hzeros : ∀ k, ∀ c ∈ List.replicate k '0', mustEscape c = false := fun k c hc =>
    List.eq_of_mem_replicate hc ▸ rfl
  have hyear : ∀ c ∈ if ts.year < 1000 then
      List.replicate (4 - digitCount (asU64 ts.year)) '0' else [], mustEscape c = false := by
    split
    · exact hzeros _
    · simp
  unfold writeTimestampRfc3339
  simp only [List.forall_mem_append, List.forall_mem_singleton]
  and_intros
  all_goals
    first
      | exact hyear
      | exact itoa_unescaped _
      | exact htwo _
      | exact hpad _ _
      | exact hdecimal _
      | rfl

/-- The last timestamp text of a thread. -/
structure TimestampCache where
  /-- The millisecond it belongs to. -/
  lastMillis : ℤ
  /-- The text. -/
  formatted : Text
  /-- It needs no escape. -/
  unescaped : ∀ c ∈ formatted, mustEscape c = false

/-- An empty cache. -/
def TimestampCache.new : TimestampCache := ⟨-9223372036854775808, [], fun _ h => by cases h⟩

/-- An instant, in nanoseconds of Unix time. -/
abbrev Instant := ℤ

/-- Its milliseconds. -/
def timestampMillis (now : Instant) : ℤ := now / 1000000

/-- The cache behind `write_timestamp_rfc3339_now_cached`, whose text is written. -/
def writeTimestampNowCached (calendar : Instant → Calendar) (cache : TimestampCache)
    (now : Instant) : TimestampCache :=
  if cache.lastMillis ≠ timestampMillis now then
    ⟨timestampMillis now, writeTimestampRfc3339 (calendar now), timestamp_unescaped _⟩
  else cache

/-- What a call reads from its thread and the clock. -/
structure LogThread where
  /-- The span contexts. -/
  spans : ThreadSpans
  /-- The order of maps. -/
  order : MapOrder
  /-- The calendar. -/
  calendar : Instant → Calendar
  /-- The timestamp cache. -/
  cache : TimestampCache
  /-- The clock. -/
  now : Instant

/-- The timestamp cache behind a call. -/
def LogThread.cached (t : LogThread) : TimestampCache :=
  writeTimestampNowCached t.calendar t.cache t.now

/-! ## Records -/

/-- An owned log record. -/
structure EdenLog (R : Type) where
  timestamp : Instant
  level : LogLevel
  audience : LogAudience
  message : Text
  traceId : Option Text
  spanId : Option Text
  feature : Option Text
  function : Option Text
  file : Option Text
  line : Option UInt32
  /-- Request block. -/
  request : R
  errorCode : Option Text
  errorCategory : Option Text
  /-- Further entries. -/
  additional : Fields

/-- A record of a context. -/
def EdenLog.new (t : LogThread) (level : LogLevel) (message : Text)
    (context : LogContext R) (audience : LogAudience) : EdenLog R where
  timestamp := t.now
  level := level
  audience := audience
  message := message
  traceId := (effectiveTraceContext context t.spans).1
  spanId := (effectiveTraceContext context t.spans).2
  feature := context.feature
  function := context.function
  file := none
  line := none
  request := context.request
  errorCode := context.errorCode
  errorCategory := context.errorCategory
  additional := context.additional.getD ∅

/-- A record of a call's arguments. -/
def EdenLog.fromDirect (t : LogThread) (level : LogLevel) (message : Text)
    (context : LogContext R) (audience : LogAudience) (additional : List (Text × Shown))
    (file : Option Text) (line : Option UInt32) : EdenLog R :=
  let log := EdenLog.new t level message context audience
  { log with
    file := file
    line := line
    additional := additional.foldl (fun m e => m.insert e.1 e.2.text) log.additional }

end EdenLogger.LogRecord
