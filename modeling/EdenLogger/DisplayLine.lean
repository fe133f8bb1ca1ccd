import EdenLogger.JsonLine
import Mathlib.Algebra.BigOperators.Group.List.Basic

/-!
# The display line and the two ways to emit

`emit_direct` formats a call's arguments, in the format that is configured.
`EdenLog::emit` formats a record, always for display. A record holds its further
entries in one map, so an entry of the call replaces one of the context with the
same key, where `emit_direct` prints both.
-/

namespace EdenLogger.DisplayLine

open ExporterConfig JsonText JsonEscape LogRecord JsonLine

/-! ## The writers -/

/-- A value in brackets. -/
def bracket (s value : Text) : Text := s ++ ['['] ++ value ++ [']']

/-- An optional field. -/
def field (s label : Text) : Option Text → Text
  | some v => s ++ [' '] ++ label ++ ['='] ++ v
  | none => s

/-- An entry. -/
def writeEntry (s key value : Text) : Text := s ++ [' '] ++ key ++ ['='] ++ value

/-- The display field writer: every value is a string. -/
def displayFieldWriter (s : Text) : FieldCall → Text
  | .str key value => writeEntry s key value
  | .u64 key value => writeEntry s key (itoa value.toNat)
  | .i64 key value => writeEntry s key (itoa value.toInt)
  | .bool key value => writeEntry s key (if value then "true".toList else "false".toList)
  | .display key value => writeEntry s key value.text

/-- The source location. -/
def writeLocation (s : Text) (file : Option Text) (line : Option UInt32) : Text :=
  match file with
  | some file =>
    let s := s ++ ['\n'] ++ "   --> ".toList ++ file
    match line with
    | some line => s ++ [':'] ++ itoa line.toNat
    | none => s
  | none => s

variable {R : Type} [RequestFields R]

/-- The display line of a record. -/
def EdenLog.writeDisplay (order : MapOrder) (calendar : Instant → Calendar) (s : Text)
    (log : EdenLog R) : Text :=
  let s := s ++ ['['] ++ writeTimestampRfc3339 (calendar log.timestamp) ++ [']'] ++ [' ']
  let s := bracket s (coloredStr log.level) ++ [' ']
  let s := bracket s (audienceStr log.audience)
  let s := field s "trace_id".toList log.traceId
  let s := field s "span_id".toList log.spanId
  let s := field s "feature".toList log.feature
  let s := field s "fn".toList log.function
  let s := (RequestFields.writeDisplay log.request).foldl displayFieldWriter s
  let s := field s "error".toList log.errorCode
  let s := (order.visit log.additional).foldl (fun s e => writeEntry s e.1 e.2) s
  let s := s ++ [' '] ++ log.message
  writeLocation s log.file log.line

/-- The display line of a call. -/
def writeDisplayDirect (t : LogThread) (s : Text) (level : LogLevel) (message : Text)
    (context : LogContext R) (audience : LogAudience) (additional : List (Text × Shown))
    (file : Option Text) (line : Option UInt32) : Text :=
  let ids := effectiveTraceContext context t.spans
  let s := s ++ ['['] ++ t.cached.formatted ++ [']'] ++ [' ']
  let s := bracket s (coloredStr level) ++ [' ']
  let s := bracket s (audienceStr audience)
  let s := field s "trace_id".toList ids.1
  let s := field s "span_id".toList ids.2
  let s := field s "feature".toList context.feature
  let s := field s "fn".toList context.function
  let s := (RequestFields.writeDisplay context.request).foldl displayFieldWriter s
  let s := field s "error".toList context.errorCode
  let s :=
    match context.additional with
    | some m => (t.order.visit m).foldl (fun s e => writeEntry s e.1 e.2) s
    | none => s
  let s := additional.foldl (fun s e => writeEntry s e.1 e.2.text) s
  let s := s ++ [' '] ++ message
  writeLocation s file line

/-! ## Emitting -/

/-- Where lines go. -/
inductive LogTarget where
  | stderr
  | stdout
  | sink
  | structuredSink
  deriving DecidableEq

/-- Format of lines. -/
inductive LogFormat where
  | display
  | json
  deriving DecidableEq

/-- The writer's configuration. -/
structure WriterConfig where
  /-- Where lines go. -/
  target : LogTarget
  /-- Their format. -/
  format : LogFormat

/-- `log_bytes`: a line and where it is written, if it is. -/
def logBytes (config : WriterConfig) (line : Text) : Option (LogTarget × Text) :=
  if config.target = .structuredSink then none else some (config.target, line)

/-- `EdenLog::emit`, if the runtime filter passes the level. -/
def EdenLog.emit (config : WriterConfig) (shouldLog : LogLevel → Bool) (order : MapOrder)
    (calendar : Instant → Calendar) (log : EdenLog R) : Option (LogTarget × Text) :=
  if shouldLog log.level then
    if config.target ≠ .structuredSink then
      logBytes config (EdenLog.writeDisplay order calendar [] log ++ ['\n'])
    else none
  else none

/-- `emit_direct`, if the runtime filter passes the level. -/
def emitDirect (config : WriterConfig) (shouldLog : LogLevel → Bool) (t : LogThread)
    (level : LogLevel) (message : Text) (context : LogContext R) (audience : LogAudience)
    (additional : List (Text × Shown)) (file : Option Text) (line : Option UInt32) :
    Option (LogTarget × Text) :=
  if shouldLog level then
    if config.target ≠ .structuredSink then
      match config.format with
      | .json => logBytes config
          (writeJsonDirect t [] level message context audience additional file line ++ ['\n'])
      | .display => logBytes config
          (writeDisplayDirect t [] level message context audience additional file line ++ ['\n'])
    else none
  else none

/-! ## Entries in a map -/

/-- The text of entries. -/
def entriesText (es : List (Text × Text)) : Text :=
  es.flatMap fun e => [' '] ++ e.1 ++ ['='] ++ e.2

/-- Length of one. -/
def entryLength (e : Text × Text) : ℕ := e.1.length + e.2.length + 2

/-- Entries of a map. -/
def pairs (m : Fields) : List (Text × Text) := m.entries.map fun e => (e.1, e.2)

/-- Entries of a call. -/
def callPairs (additional : List (Text × Shown)) : List (Text × Text) :=
  additional.map fun e => (e.1, e.2.text)

/-- Insert a list of entries. -/
def insertAll (m : Fields) (es : List (Text × Text)) : Fields :=
  es.foldl (fun m e => m.insert e.1 e.2) m

/-- Length of a list of entries. -/
def totalLength (es : List (Text × Text)) : ℕ := (es.map entryLength).sum

theorem length_entriesText (es : List (Text × Text)) :
    (entriesText es).length = totalLength es := by
  unfold entriesText totalLength
  rw [List.length_flatMap]
  refine congrArg List.sum (List.map_congr_left fun e _ => ?_)
  simp only [List.length_append, List.length_singleton, entryLength]
  omega

/-- The order does not change the length. -/
theorem totalLength_perm {es es' : List (Text × Text)} (h : es.Perm es') :
    totalLength es = totalLength es' := (h.map entryLength).sum_eq

/-- An insertion loses what it replaces. -/
theorem totalLength_insert (m : Fields) (k v : Text) :
    (k ∉ m → totalLength (pairs (m.insert k v)) = totalLength (pairs m) + entryLength (k, v)) ∧
      (k ∈ m →
        totalLength (pairs (m.insert k v)) < totalLength (pairs m) + entryLength (k, v)) := by
  constructor
  · intro hk
    unfold pairs totalLength
    rw [AList.entries_insert_of_notMem hk]
    simp only [List.map_cons, List.sum_cons]
    omega
  · intro hk
    obtain ⟨b, l₁, l₂, -, hl, herase⟩ := List.exists_of_kerase (AList.mem_keys.mp hk)
    unfold pairs totalLength
    rw [AList.entries_insert, herase, hl]
    simp only [List.map_cons, List.map_append, List.sum_cons, List.sum_append, entryLength]
    omega

/-- Insertions keep the length exactly if no key is inserted twice or was there. -/
theorem totalLength_insertAll (m : Fields) (es : List (Text × Text)) :
    totalLength (pairs (insertAll m es)) ≤ totalLength (pairs m) + totalLength es ∧
      (totalLength (pairs (insertAll m es)) = totalLength (pairs m) + totalLength es →
        (es.map Prod.fst).Nodup ∧ ∀ e ∈ es, e.1 ∉ m) := by
  induction es generalizing m with
  | nil => exact ⟨Nat.le_refl _, fun _ => ⟨List.nodup_nil, fun e he => absurd he List.not_mem_nil⟩⟩
  | cons e es ih =>
    obtain ⟨k, v⟩ := e
    obtain ⟨hle, heq⟩ := ih (m.insert k v)
    obtain ⟨hfresh, hold⟩ := totalLength_insert m k v
    have hcons : totalLength ((k, v) :: es) = entryLength (k, v) + totalLength es := by
      simp only [totalLength, List.map_cons, List.sum_cons]
    have hstep : insertAll m ((k, v) :: es) = insertAll (m.insert k v) es := rfl
    rw [hstep, hcons]
    by_cases hk : k ∈ m
    · have hlt := hold hk
      exact ⟨by omega, fun h => by omega⟩
    · have hsame := hfresh hk
      refine ⟨by omega, fun h => ?_⟩
      obtain ⟨hnodup, hnew⟩ := heq (by omega)
      refine ⟨List.nodup_cons.mpr ⟨fun hmem => ?_, hnodup⟩, List.forall_mem_cons.mpr ⟨hk, ?_⟩⟩
      · obtain ⟨e', he', hkey⟩ := List.mem_map.mp hmem
        exact hnew e' he' (AList.mem_insert _ |>.mpr (Or.inl hkey))
      · exact fun e' he' hmem => hnew e' he' (AList.mem_insert _ |>.mpr (Or.inr hmem))

/-- Without such keys, the entries are all there. -/
theorem pairs_insertAll {m : Fields} {es : List (Text × Text)} (hn : (es.map Prod.fst).Nodup)
    (hm : ∀ e ∈ es, e.1 ∉ m) : (pairs (insertAll m es)).Perm (pairs m ++ es) := by
  induction es generalizing m with
  | nil => rw [List.append_nil]; exact .refl _
  | cons e es ih =>
    obtain ⟨hk, hnew⟩ := List.forall_mem_cons.mp hm
    obtain ⟨hfresh, hnodup⟩ := List.nodup_cons.mp hn
    have hnew' : ∀ e' ∈ es, e'.1 ∉ m.insert e.1 e.2 := by
      intro e' he' hmem
      rcases (AList.mem_insert _).mp hmem with hkey | hmem
      · exact hfresh (List.mem_map.mpr ⟨e', he', hkey⟩)
      · exact hnew e' he' hmem
    have hpairs : pairs (m.insert e.1 e.2) = e :: pairs m := by
      unfold pairs
      rw [AList.entries_insert_of_notMem hk, List.map_cons]
    have htail := ih hnodup hnew'
    rw [hpairs] at htail
    exact htail.trans List.perm_middle.symm

/-! ## The parts of a display line -/

theorem bracket_append (s b value : Text) : bracket (s ++ b) value = s ++ bracket b value := by
  simp only [bracket, List.append_assoc]

theorem field_append (s b label : Text) (v : Option Text) :
    field (s ++ b) label v = s ++ field b label v := by
  cases v <;> simp only [field, List.append_assoc]

theorem fields_append (s b : Text) (calls : List FieldCall) :
    calls.foldl displayFieldWriter (s ++ b) = s ++ calls.foldl displayFieldWriter b := by
  induction calls generalizing b with
  | nil => rfl
  | cons c calls ih =>
    have hstep : displayFieldWriter (s ++ b) c = s ++ displayFieldWriter b c := by
      cases c <;> simp only [displayFieldWriter, writeEntry, List.append_assoc]
    rw [List.foldl_cons, List.foldl_cons, hstep, ih]

theorem writeLocation_append (s b : Text) (file : Option Text) (line : Option UInt32) :
    writeLocation (s ++ b) file line = s ++ writeLocation b file line := by
  cases file with
  | none => rfl
  | some file => cases line <;> simp only [writeLocation, List.append_assoc]

/-- What stands between the timestamp and the entries. -/
def headText (ids : IdPair) (level : LogLevel) (audience : LogAudience)
    (feature function : Option Text) (request : R) (errorCode : Option Text) : Text :=
  field ((RequestFields.writeDisplay request).foldl displayFieldWriter
    (field (field (field (field (bracket (bracket [']', ' '] (coloredStr level) ++ [' '])
      (audienceStr audience)) "trace_id".toList ids.1) "span_id".toList ids.2)
        "feature".toList feature) "fn".toList function)) "error".toList errorCode

/-- What stands behind the entries. -/
def tailText (message : Text) (file : Option Text) (line : Option UInt32) : Text :=
  writeLocation ([' '] ++ message) file line

/-- A display line of its parts. -/
def lineText (ts head : Text) (es : List (Text × Text)) (tail : Text) : Text :=
  '[' :: ts ++ head ++ entriesText es ++ tail

/-- Entries are appended one behind the other. -/
theorem foldl_writeEntry {α : Type*} (f : α → Text × Text) (l : List α) (s : Text) :
    l.foldl (fun s e => writeEntry s (f e).1 (f e).2) s = s ++ entriesText (l.map f) := by
  have hentry : ∀ (s : Text) (e : α), writeEntry s (f e).1 (f e).2 =
      s ++ ([' '] ++ (f e).1 ++ ['='] ++ (f e).2) := by
    intro s e
    simp only [writeEntry, List.append_assoc]
  simp only [hentry, foldl_append, entriesText, List.flatMap_map]

/-- The opening bracket and the timestamp stand in front of the head. -/
theorem head_eq (ts : Text) (ids : IdPair) (level : LogLevel) (audience : LogAudience)
    (feature function : Option Text) (request : R) (errorCode : Option Text) :
    field ((RequestFields.writeDisplay request).foldl displayFieldWriter
      (field (field (field (field (bracket (bracket ([] ++ ['['] ++ ts ++ [']'] ++ [' '])
        (coloredStr level) ++ [' ']) (audienceStr audience)) "trace_id".toList ids.1)
          "span_id".toList ids.2) "feature".toList feature) "fn".toList function))
            "error".toList errorCode =
      '[' :: ts ++ headText ids level audience feature function request errorCode := by
  have hstart : [] ++ ['['] ++ ts ++ [']'] ++ [' '] = ('[' :: ts) ++ [']', ' '] := by
    simp only [List.nil_append, List.cons_append, List.append_assoc]
  rw [hstart, headText]
  simp only [bracket_append, field_append, fields_append, List.append_assoc]

/-- The display line of a record. -/
theorem writeDisplay_parts (order : MapOrder) (calendar : Instant → Calendar) (log : EdenLog R) :
    EdenLog.writeDisplay order calendar [] log =
      lineText (writeTimestampRfc3339 (calendar log.timestamp))
        (headText (log.traceId, log.spanId) log.level log.audience log.feature log.function
          log.request log.errorCode)
        (order.visit log.additional) (tailText log.message log.file log.line) := by
  have hentries := foldl_writeEntry (fun e : Text × Text => e) (order.visit log.additional)
  rw [List.map_id'] at hentries
  have hhead := head_eq (writeTimestampRfc3339 (calendar log.timestamp)) (log.traceId, log.spanId)
    log.level log.audience log.feature log.function log.request log.errorCode
  rw [EdenLog.writeDisplay, lineText, tailText]
  dsimp only at hhead ⊢
  rw [hhead, hentries, List.append_assoc _ [' '], writeLocation_append]

/-- The display line of a call. -/
theorem writeDisplayDirect_parts (t : LogThread) (level : LogLevel) (message : Text)
    (context : LogContext R) (audience : LogAudience) (additional : List (Text × Shown))
    (file : Option Text) (line : Option UInt32) :
    writeDisplayDirect t [] level message context audience additional file line =
      lineText t.cached.formatted
        (headText (effectiveTraceContext context t.spans) level audience context.feature
          context.function context.request context.errorCode)
        ((context.additional.map t.order.visit).getD [] ++ callPairs additional)
        (tailText message file line) := by
  have hcontext : ∀ s : Text, (match context.additional with
      | some m => (t.order.visit m).foldl (fun s e => writeEntry s e.1 e.2) s
      | none => s) = s ++ entriesText ((context.additional.map t.order.visit).getD []) := by
    intro s
    cases context.additional with
    | none => exact (List.append_nil s).symm
    | some m =>
      have hentries := foldl_writeEntry (fun e : Text × Text => e) (t.order.visit m) s
      rwa [List.map_id'] at hentries
  have hcall := foldl_writeEntry (fun e : Text × Shown => (e.1, e.2.text)) additional
  have hjoin : ∀ es es' : List (Text × Text),
      entriesText (es ++ es') = entriesText es ++ entriesText es' := fun _ _ => List.flatMap_append
  rw [writeDisplayDirect, lineText, tailText]
  dsimp only at hcall ⊢
  rw [head_eq, hcontext, hcall, List.append_assoc _ [' '], writeLocation_append, hjoin, callPairs,
    List.append_assoc _ (entriesText _) (entriesText _)]

/-! ## The two ways to emit -/

/-- The parts of a display line besides its timestamp. -/
structure LineParts where
  /-- What stands between the timestamp and the entries. -/
  head : Text
  /-- The entries. -/
  entries : List (Text × Text)
  /-- What stands behind the entries. -/
  tail : Text

/-- The parts of a call's line: its entries are those of the context and its own pairs. -/
def lineParts (t : LogThread) (level : LogLevel) (message : Text) (context : LogContext R)
    (audience : LogAudience) (additional : List (Text × Shown)) (file : Option Text)
    (line : Option UInt32) : LineParts where
  head := headText (effectiveTraceContext context t.spans) level audience context.feature
    context.function context.request context.errorCode
  entries := (context.additional.map t.order.visit).getD [] ++ callPairs additional
  tail := tailText message file line

/-- Two lines of these parts, with a timestamp each and the entries of the
second in any order. -/
def LineParts.SameLine (p : LineParts) (ts ts' l l' : Text) : Prop :=
  l = lineText ts p.head p.entries p.tail ++ ['\n'] ∧
    ∃ es, p.entries.Perm es ∧ l' = lineText ts' p.head es p.tail ++ ['\n']

/-- The entries of the second line have the length of the parts' entries. -/
theorem LineParts.SameLine.totalLength {p : LineParts} {ts ts' l : Text} {es : List (Text × Text)}
    (h : p.SameLine ts ts' l (lineText ts' p.head es p.tail ++ ['\n'])) :
    totalLength p.entries = DisplayLine.totalLength es := by
  obtain ⟨-, es', hperm, hl⟩ := h
  have hlen := congrArg List.length hl
  simp only [lineText, List.length_append, List.length_cons, length_entriesText] at hlen
  rw [totalLength_perm hperm]
  omega

/-- A JSON line is no display line. -/
theorem not_sameLine_json (t : LogThread) (p : LineParts) (ts ts' l' : Text) (level : LogLevel)
    (message : Text) (context : LogContext R) (audience : LogAudience)
    (additional : List (Text × Shown)) (file : Option Text) (line : Option UInt32) :
    ¬ p.SameLine ts ts'
      (writeJsonDirect t [] level message context audience additional file line ++ ['\n']) l' := by
  rintro ⟨hl, -⟩
  rw [writeJsonDirect_eq, objectText, lineText] at hl
  exact absurd (List.cons.inj hl).1 (by decide)

omit [RequestFields R] in
/-- The entries of the record of a call. -/
theorem fromDirect_additional (t : LogThread) (level : LogLevel) (message : Text)
    (context : LogContext R) (audience : LogAudience) (additional : List (Text × Shown))
    (file : Option Text) (line : Option UInt32) :
    (EdenLog.fromDirect t level message context audience additional file line).additional =
      insertAll (context.additional.getD ∅) (callPairs additional) := by
  rw [insertAll, callPairs, List.foldl_map]
  rfl

/-- The entries of a context, in the order in which they are visited. -/
theorem visited_perm (order : MapOrder) (m : Option Fields) :
    ((m.map order.visit).getD []).Perm (pairs (m.getD ∅)) := by
  cases m with
  | none => exact .refl _
  | some m => exact order.visit_perm m

/-- The keys of a call. -/
theorem callPairs_keys (additional : List (Text × Shown)) :
    (callPairs additional).map Prod.fst = additional.map Prod.fst := by
  rw [callPairs, List.map_map]
  rfl

/-- The two display lines are the same exactly if no key is given twice. -/
theorem sameLine_display_iff (t : LogThread) (order : MapOrder) (level : LogLevel) (message : Text)
    (context : LogContext R) (audience : LogAudience) (additional : List (Text × Shown))
    (file : Option Text) (line : Option UInt32) :
    (lineParts t level message context audience additional file line).SameLine
      t.cached.formatted (writeTimestampRfc3339 (t.calendar t.now))
      (writeDisplayDirect t [] level message context audience additional file line ++ ['\n'])
      (EdenLog.writeDisplay order t.calendar []
        (EdenLog.fromDirect t level message context audience additional file line) ++ ['\n']) ↔
      (additional.map Prod.fst).Nodup ∧ ∀ e ∈ additional, e.1 ∉ context.additional.getD ∅ := by
  rw [writeDisplayDirect_parts, writeDisplay_parts, fromDirect_additional]
  have hvisited := visited_perm t.order context.additional
  have hrecord := order.visit_perm (insertAll (context.additional.getD ∅) (callPairs additional))
  constructor
  · intro h
    have hlen : totalLength (_ ++ callPairs additional) = totalLength (order.visit _) :=
      LineParts.SameLine.totalLength h
    obtain ⟨-, heq⟩ := totalLength_insertAll (context.additional.getD ∅) (callPairs additional)
    rw [totalLength_perm hrecord, totalLength_perm (hvisited.append_right _)] at hlen
    have hsum : totalLength (pairs (context.additional.getD ∅) ++ callPairs additional) =
        totalLength (pairs (context.additional.getD ∅)) + totalLength (callPairs additional) := by
      simp only [totalLength, List.map_append, List.sum_append]
    obtain ⟨hnodup, hfresh⟩ := heq (hlen.symm.trans hsum)
    rw [callPairs_keys] at hnodup
    exact ⟨hnodup, fun e he => hfresh _ (List.mem_map_of_mem he)⟩
  · rintro ⟨hnodup, hfresh⟩
    have hkeys : ((callPairs additional).map Prod.fst).Nodup := by
      rw [callPairs_keys]
      exact hnodup
    have hinsert : (pairs (insertAll (context.additional.getD ∅) (callPairs additional))).Perm
        (pairs (context.additional.getD ∅) ++ callPairs additional) :=
      pairs_insertAll hkeys (List.forall_mem_map.mpr hfresh)
    exact ⟨rfl, _, (hvisited.append_right _).trans (hinsert.symm.trans hrecord.symm), rfl⟩

/-- `emit_direct` writes the line of the record of the same call, up to the
timestamp and the order of the further entries, exactly if no line is written at
all, or the format is for display and no key is given twice. -/
theorem emit_paths_agree (config : WriterConfig) (shouldLog : LogLevel → Bool) (t : LogThread)
    (order : MapOrder) (level : LogLevel) (message : Text) (context : LogContext R)
    (audience : LogAudience) (additional : List (Text × Shown)) (file : Option Text)
    (line : Option UInt32) :
    Option.Rel (fun p q => p.1 = q.1 ∧
        (lineParts t level message context audience additional file line).SameLine
          t.cached.formatted (writeTimestampRfc3339 (t.calendar t.now)) p.2 q.2)
      (emitDirect config shouldLog t level message context audience additional file line)
      (EdenLog.emit config shouldLog order t.calendar
        (EdenLog.fromDirect t level message context audience additional file line)) ↔
    shouldLog level = false ∨ config.target = .structuredSink ∨
      (config.format = .display ∧ (additional.map Prod.fst).Nodup ∧
        ∀ e ∈ additional, e.1 ∉ context.additional.getD ∅) := by
  have hlevel : (EdenLog.fromDirect t level message context audience additional file line).level =
      level := rfl
  rw [← sameLine_display_iff t order level message context audience additional file line]
  unfold emitDirect EdenLog.emit logBytes
  rw [hlevel]
  by_cases hlog : shouldLog level = true
  · by_cases htarget : config.target = .structuredSink
    · simp only [hlog, htarget, ne_eq, not_true_eq_false, if_false, if_true]
      exact iff_of_true .none (Or.inr (Or.inl trivial))
    · simp only [hlog, htarget, ne_eq, not_false_eq_true, if_true, if_false, Bool.true_eq_false,
        false_or]
      cases hformat : config.format with
      | json =>
        refine iff_of_false (fun h => ?_) (fun h => by cases h.1)
        cases h with
        | some h =>
          exact not_sameLine_json t _ _ _ _ level message context audience additional file line h.2
      | display =>
        refine ⟨fun h => ?_, fun h => .some ⟨rfl, h.2⟩⟩
        cases h with
        | some h => exact ⟨rfl, h.2⟩
  · simp only [hlog, Bool.false_eq_true, if_false]
    exact iff_of_true .none (Or.inl trivial)

/-- A thread without spans. -/
def quietThread : LogThread where
  spans := ⟨.fastTelemetry, true, true, none, none, .replicate 16 0, .replicate 8 0⟩
  order := .entries
  calendar := fun _ => ⟨1970, 1, 1, 0, 0, 0, 0⟩
  cache := .new
  now := 0

/-- A context with an entry. -/
def keyedContext : LogContext Unit := LogContext.new.withAdditional ['k'] ['1']

/-- The lines of a call and of its record. -/
def linesOf (format : LogFormat) (additional : List (Text × Shown)) :
    Option (LogTarget × Text) × Option (LogTarget × Text) :=
  (emitDirect ⟨.stderr, format⟩ (fun _ => true) quietThread .info ['u', 'p'] keyedContext .internal
      additional none none,
    EdenLog.emit ⟨.stderr, format⟩ (fun _ => true) .entries quietThread.calendar
      (EdenLog.fromDirect quietThread .info ['u', 'p'] keyedContext .internal additional none none))

/-- Whether the two lines agree up to the timestamp and the order of entries. -/
def LinesAgree (format : LogFormat) (additional : List (Text × Shown)) : Prop :=
  Option.Rel (fun p q => p.1 = q.1 ∧
      (lineParts quietThread .info ['u', 'p'] keyedContext .internal additional none none).SameLine
        quietThread.cached.formatted (writeTimestampRfc3339 (quietThread.calendar quietThread.now))
        p.2 q.2)
    (linesOf format additional).1 (linesOf format additional).2

/-- With JSON configured, a record is still written for display; and an entry of
a call hides the context's entry with its key in the record's line only. -/
theorem emit_paths_differ :
    ¬ LinesAgree .json [] ∧ ¬ LinesAgree .display [(['k'], [['2']])] := by
  constructor
  · intro h
    cases h with
    | some h => exact not_sameLine_json _ _ _ _ _ _ _ _ _ _ _ _ h.2
  · intro h
    cases h with
    | some h =>
      obtain ⟨-, hfresh⟩ := (sameLine_display_iff _ _ _ _ _ _ _ _ _).mp h.2
      exact hfresh (['k'], [['2']]) List.mem_cons_self (by decide +kernel)

end EdenLogger.DisplayLine
