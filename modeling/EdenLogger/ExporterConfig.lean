import EdenLogger.MachineWord

/-!
# Exporter configuration

The direct exporter's configuration with its validation, and the severity and
audience policy the installed callback applies. Durations are nanoseconds.
Transport settings and resource attributes, with the builder methods that set
them, are not read by the parts modelled here and are left out.
-/

namespace EdenLogger.ExporterConfig

open MachineWord

/-- Log severity levels, in ascending order. -/
inductive LogLevel where
  | trace
  | debug
  | info
  | warn
  | error
  deriving DecidableEq, Repr

/-- The derived order: the declaration index. -/
def LogLevel.rank : LogLevel → ℕ
  | .trace => 0
  | .debug => 1
  | .info => 2
  | .warn => 3
  | .error => 4

/-- Internal and client-facing logs. -/
inductive LogAudience where
  | internal
  | client
  | both
  deriving DecidableEq, Repr

/-- Audience selection applied independently from the runtime filter. -/
structure AudienceFilter where
  /-- Accept records whose audience is internal. -/
  internal : Bool
  /-- Accept records whose audience is client-facing. -/
  client : Bool
  /-- Accept records explicitly marked for both audiences. -/
  both : Bool

/-- Accept every audience. -/
def AudienceFilter.all : AudienceFilter := ⟨true, true, true⟩

/-- Whether records of the audience pass. -/
def AudienceFilter.allows (filter : AudienceFilter) : LogAudience → Bool
  | .internal => filter.internal
  | .client => filter.client
  | .both => filter.both

/-- Direct exporter configuration. -/
structure Config where
  /-- OTLP `service.name` resource attribute. -/
  serviceName : String
  /-- OTLP instrumentation scope name. -/
  scopeName : String
  /-- Lowest severity accepted by the exporter. -/
  minLevel : LogLevel
  /-- Accepted audiences. -/
  audiences : AudienceFilter
  /-- Severity that may fall back to reserved queue capacity. -/
  priorityThreshold : LogLevel
  /-- Global capacity available to all accepted severities. -/
  normalQueueCapacity : ℕ
  /-- Additional capacity at or above `priorityThreshold`. -/
  reservedQueueCapacity : ℕ
  /-- Retained-byte budget of the normal queue. -/
  normalQueueBytes : ℕ
  /-- Retained-byte budget of the reserved queue. -/
  reservedQueueBytes : ℕ
  /-- Maximum records in one request. -/
  maxBatchRecords : ℕ
  /-- Maximum encoded bytes in one request. -/
  maxBatchBytes : ℕ
  /-- Maximum time to wait before flushing a non-empty batch. -/
  maxBatchDelay : ℕ
  /-- Initial transient retry delay before jitter. -/
  retryInitial : ℕ
  /-- Maximum transient retry delay before jitter. -/
  retryMax : ℕ
  /-- Minimum interval between emergency diagnostics. -/
  diagnosticInterval : ℕ

/-- Installation failures, with their messages. -/
inductive InstallError where
  /-- Installation outside a runtime. -/
  | noTokioRuntime
  /-- The configuration is invalid. -/
  | invalidConfig (message : String)
  /-- The OTLP client refused its endpoint, headers or TLS material. -/
  | transport (message : String)
  /-- A sink was already installed for the record type. -/
  | sinkAlreadyInstalled
  deriving DecidableEq, Repr

/-- Unicode `White_Space`, as `char::is_whitespace` tests it. -/
def isWhitespace (c : Char) : Bool :=
  let n := c.toNat
  (9 ≤ n && n ≤ 13) || n == 0x20 || n == 0x85 || n == 0xA0 || n == 0x1680 ||
    (0x2000 ≤ n && n ≤ 0x200A) || n == 0x2028 || n == 0x2029 || n == 0x202F ||
    n == 0x205F || n == 0x3000

/-- `text.trim().is_empty()`. -/
def isBlank (text : String) : Bool := text.toList.all isWhitespace

/-- The checks before any worker is spawned, in source order. -/
def Config.validate (c : Config) : Except InstallError Unit :=
  if isBlank c.serviceName then
    .error (.invalidConfig "service_name must not be empty")
  else if isBlank c.scopeName then
    .error (.invalidConfig "scope_name must not be empty")
  else if c.normalQueueCapacity = 0 ∨ c.reservedQueueCapacity = 0 ∨
      c.normalQueueBytes = 0 ∨ c.reservedQueueBytes = 0 then
    .error (.invalidConfig "queue record capacities and byte budgets must be greater than zero")
  else if c.maxBatchRecords = 0 ∨ c.maxBatchBytes = 0 ∨ c.maxBatchDelay = 0 then
    .error (.invalidConfig "batch limits and delay must be greater than zero")
  else if c.retryInitial = 0 ∨ c.retryMax = 0 ∨ c.retryInitial > c.retryMax then
    .error (.invalidConfig "retry durations must be non-zero and initial must not exceed maximum")
  else if c.diagnosticInterval = 0 then
    .error (.invalidConfig "diagnostic_interval must be greater than zero")
  else .ok ()

namespace Config

/-- What the checks ask of a configuration. -/
structure Valid (c : Config) : Prop where
  names : isBlank c.serviceName = false ∧ isBlank c.scopeName = false
  queues : 0 < c.normalQueueCapacity ∧ 0 < c.reservedQueueCapacity ∧
    0 < c.normalQueueBytes ∧ 0 < c.reservedQueueBytes
  batches : 0 < c.maxBatchRecords ∧ 0 < c.maxBatchBytes ∧ 0 < c.maxBatchDelay
  retries : 0 < c.retryInitial ∧ c.retryInitial ≤ c.retryMax
  diagnostics : 0 < c.diagnosticInterval

/-- The configurations that pass are exactly the valid ones. -/
theorem validate_eq_ok_iff (c : Config) : c.validate = .ok () ↔ c.Valid := by
  constructor
  · intro h
    unfold validate at h
    split_ifs at h with hs hn hq hb hr hd
    have hs' : isBlank c.serviceName = false := by simpa using hs
    have hn' : isBlank c.scopeName = false := by simpa using hn
    exact ⟨⟨hs', hn'⟩, by omega, by omega, by omega, by omega⟩
  · rintro ⟨⟨hs, hn⟩, hq, hb, hr, hd⟩
    have hq' : ¬ (c.normalQueueCapacity = 0 ∨ c.reservedQueueCapacity = 0 ∨
        c.normalQueueBytes = 0 ∨ c.reservedQueueBytes = 0) := by omega
    have hb' : ¬ (c.maxBatchRecords = 0 ∨ c.maxBatchBytes = 0 ∨ c.maxBatchDelay = 0) := by omega
    have hr' : ¬ (c.retryInitial = 0 ∨ c.retryMax = 0 ∨ c.retryInitial > c.retryMax) := by omega
    have hd' : c.diagnosticInterval ≠ 0 := by omega
    simp [validate, hs, hn, hq', hb', hr', hd']

/-- A validated configuration bounds every queue and every batch from below. -/
theorem validate_limits {c : Config} (h : c.validate = .ok ()) :
    0 < c.normalQueueCapacity ∧ 0 < c.reservedQueueCapacity ∧ 0 < c.normalQueueBytes ∧
      0 < c.reservedQueueBytes ∧ 0 < c.maxBatchRecords ∧ 0 < c.maxBatchBytes ∧
      0 < c.maxBatchDelay := by
  obtain ⟨hn, hr, hnb, hrb⟩ := ((validate_eq_ok_iff c).mp h).queues
  exact ⟨hn, hr, hnb, hrb, ((validate_eq_ok_iff c).mp h).batches⟩

/-- A validated configuration orders its retry durations. -/
theorem validate_retry {c : Config} (h : c.validate = .ok ()) : c.retryInitial ≤ c.retryMax :=
  ((validate_eq_ok_iff c).mp h).retries.2

/-- A configuration using production defaults. -/
def new (serviceName : String) : Config where
  serviceName := serviceName
  scopeName := "eden_logger"
  minLevel := .trace
  audiences := .all
  priorityThreshold := .warn
  normalQueueCapacity := 61440
  reservedQueueCapacity := 4096
  normalQueueBytes := 60 * 1024 * 1024
  reservedQueueBytes := 4 * 1024 * 1024
  maxBatchRecords := 512
  maxBatchBytes := 1024 * 1024
  maxBatchDelay := 200 * 1000000
  retryInitial := 250 * 1000000
  retryMax := 30 * 1000000000
  diagnosticInterval := 60 * 1000000000

/-- Override the OTLP instrumentation scope name. -/
def withScopeName (c : Config) (scopeName : String) : Config := { c with scopeName := scopeName }

/-- Set the lowest exported severity. -/
def withMinLevel (c : Config) (minLevel : LogLevel) : Config := { c with minLevel := minLevel }

/-- Select the audiences accepted by this exporter. -/
def withAudiences (c : Config) (audiences : AudienceFilter) : Config :=
  { c with audiences := audiences }

/-- Set both record capacities. -/
def withQueueCapacities (c : Config) (normal reserved : ℕ) : Config :=
  { c with normalQueueCapacity := normal, reservedQueueCapacity := reserved }

/-- Set both record capacities and both retained-byte budgets. -/
def withQueueLimits (c : Config) (normalRecords reservedRecords normalBytes reservedBytes : ℕ) :
    Config :=
  { c with
    normalQueueCapacity := normalRecords
    reservedQueueCapacity := reservedRecords
    normalQueueBytes := normalBytes
    reservedQueueBytes := reservedBytes }

/-- Set the record, encoded-byte and maximum-delay limits of a batch. -/
def withBatchLimits (c : Config) (records bytes delay : ℕ) : Config :=
  { c with maxBatchRecords := records, maxBatchBytes := bytes, maxBatchDelay := delay }

/-- Set the initial and maximum transient retry delays. -/
def withRetry (c : Config) (initial maximum : ℕ) : Config :=
  { c with retryInitial := initial, retryMax := maximum }

end Config

/-- A call of a builder method, with its arguments. -/
inductive Setting where
  | scopeName (name : String)
  | minLevel (level : LogLevel)
  | audiences (filter : AudienceFilter)
  | queueCapacities (normal reserved : ℕ)
  | queueLimits (normalRecords reservedRecords normalBytes reservedBytes : ℕ)
  | batchLimits (records bytes delay : ℕ)
  | retry (initial maximum : ℕ)

namespace Setting

/-- The configuration behind the call. -/
def apply (c : Config) : Setting → Config
  | scopeName name => c.withScopeName name
  | minLevel level => c.withMinLevel level
  | audiences filter => c.withAudiences filter
  | queueCapacities normal reserved => c.withQueueCapacities normal reserved
  | queueLimits n r nb rb => c.withQueueLimits n r nb rb
  | batchLimits records bytes delay => c.withBatchLimits records bytes delay
  | retry initial maximum => c.withRetry initial maximum

/-- The arguments would pass the checks on the fields they set. -/
def Ok : Setting → Prop
  | scopeName name => isBlank name = false
  | minLevel _ => True
  | audiences _ => True
  | queueCapacities normal reserved => 0 < normal ∧ 0 < reserved
  | queueLimits n r nb rb => 0 < n ∧ 0 < r ∧ 0 < nb ∧ 0 < rb
  | batchLimits records bytes delay => 0 < records ∧ 0 < bytes ∧ 0 < delay
  | retry initial maximum => 0 < initial ∧ initial ≤ maximum

end Setting

namespace Config

/-- The production defaults are valid for every service name that is not blank. -/
theorem valid_new {serviceName : String} (h : isBlank serviceName = false) :
    (new serviceName).Valid where
  names := ⟨h, (by decide : isBlank "eden_logger" = false)⟩
  queues := by simp [new]
  batches := by simp [new]
  retries := by simp [new]
  diagnostics := by simp [new]

/-- A builder call with sound arguments keeps a configuration valid. -/
theorem Valid.apply {c : Config} (h : c.Valid) (s : Setting) (hs : s.Ok) : (s.apply c).Valid := by
  cases s with
  | scopeName name => exact ⟨⟨h.names.1, hs⟩, h.queues, h.batches, h.retries, h.diagnostics⟩
  | minLevel level => exact ⟨h.names, h.queues, h.batches, h.retries, h.diagnostics⟩
  | audiences filter => exact ⟨h.names, h.queues, h.batches, h.retries, h.diagnostics⟩
  | queueCapacities normal reserved =>
    exact ⟨h.names, ⟨hs.1, hs.2, h.queues.2.2⟩, h.batches, h.retries, h.diagnostics⟩
  | queueLimits n r nb rb => exact ⟨h.names, hs, h.batches, h.retries, h.diagnostics⟩
  | batchLimits records bytes delay => exact ⟨h.names, h.queues, hs, h.retries, h.diagnostics⟩
  | retry initial maximum => exact ⟨h.names, h.queues, h.batches, hs, h.diagnostics⟩

/-- So does any sequence of such calls. -/
theorem Valid.applyAll {c : Config} (h : c.Valid) (settings : List Setting)
    (hs : ∀ s ∈ settings, s.Ok) : (settings.foldl Setting.apply c).Valid := by
  induction settings generalizing c with
  | nil => exact h
  | cons s rest ih =>
    have hc : (s.apply c).Valid := h.apply s (hs s List.mem_cons_self)
    exact ih hc fun t ht => hs t (List.mem_cons_of_mem _ ht)

/-- Every configuration built from the defaults by sound calls passes the checks. -/
theorem validate_built {serviceName : String} (h : isBlank serviceName = false)
    (settings : List Setting) (hs : ∀ s ∈ settings, s.Ok) :
    (settings.foldl Setting.apply (new serviceName)).validate = .ok () :=
  (validate_eq_ok_iff _).mpr ((valid_new h).applyAll settings hs)

end Config

end EdenLogger.ExporterConfig
