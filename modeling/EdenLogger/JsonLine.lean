import EdenLogger.LogRecord

/-!
# The JSON line

The writer emits an object piece by piece: fixed members, the request block
through a field writer, and further entries, each with its own comma and quotes.
Whatever the strings are, the pieces are members of one object.
-/

namespace EdenLogger.JsonLine

open ExporterConfig JsonText JsonEscape LogRecord

/-! ## The writer -/

/-- A member whose value is a string. -/
def writeStr (buf key value : Text) : Text :=
  writeJsonEscaped (writeJsonEscaped (buf ++ ",\"".toList) key ++ "\":\"".toList) value ++ ['"']

/-- A member whose value is written without quotes. -/
def writeRaw (buf key value : Text) : Text :=
  writeJsonEscaped (buf ++ ",\"".toList) key ++ "\":".toList ++ value

/-- Chunks through the escaping adapter. -/
def writeChunks (buf : Text) (value : Shown) : Text := value.foldl writeJsonEscaped buf

/-- A member whose value is written in chunks. -/
def writeDisplay (buf key : Text) (value : Shown) : Text :=
  writeChunks (writeJsonEscaped (buf ++ ",\"".toList) key ++ "\":\"".toList) value ++ ['"']

/-- The JSON field writer. -/
def jsonFieldWriter (buf : Text) : FieldCall → Text
  | .str key value => writeStr buf key value
  | .u64 key value => writeRaw buf key (itoa value.toNat)
  | .i64 key value => writeRaw buf key (itoa value.toInt)
  | .bool key value => writeRaw buf key (if value then "true".toList else "false".toList)
  | .display key value => writeDisplay buf key value

/-- An optional member with a fixed name. -/
def jsonField (buf key : Text) : Option Text → Text
  | some v => writeJsonEscaped (buf ++ ",\"".toList ++ key ++ "\":\"".toList) v ++ ['"']
  | none => buf

variable {R : Type} [RequestFields R]

/-- The JSON line of a call, appended to a buffer. -/
def writeJsonDirect (t : LogThread) (s : Text) (level : LogLevel) (message : Text)
    (context : LogContext R) (audience : LogAudience) (additional : List (Text × Shown))
    (file : Option Text) (line : Option UInt32) : Text :=
  let ids := effectiveTraceContext context t.spans
  let s := s ++ "\x7b\"ts\":\"".toList ++ t.cached.formatted ++ "\",\"level\":\"".toList ++
    levelStr level ++ "\",\"audience\":\"".toList ++ audienceStr audience ++ ['"']
  let s := jsonField s "trace_id".toList ids.1
  let s := jsonField s "span_id".toList ids.2
  let s := jsonField s "feature".toList context.feature
  let s := jsonField s "fn".toList context.function
  let s := (RequestFields.writeJson context.request).foldl jsonFieldWriter s
  let s := jsonField s "error_code".toList context.errorCode
  let s := jsonField s "error_category".toList context.errorCategory
  let s :=
    match context.additional with
    | some m => (t.order.visit m).foldl (fun s e => writeStr s e.1 e.2) s
    | none => s
  let s := additional.foldl (fun s e => writeDisplay s e.1 e.2) s
  let s :=
    match file with
    | some f =>
      let s := writeJsonEscaped (s ++ ",\"file\":\"".toList) f ++ ['"']
      match line with
      | some l => s ++ ",\"line\":".toList ++ itoa l.toNat
      | none => s
    | none => s
  writeJsonEscaped (s ++ ",\"msg\":\"".toList) message ++ "\"\x7d".toList

/-! ## The members it stands for -/

/-- A chunked value, as a reader makes of it. -/
def shownChunks (value : Shown) : Text := value.flatMap shown

/-- The member of a field writer's call. -/
def fieldMember : FieldCall → Text × Json
  | .str key value => (shown key, .string (shown value))
  | .u64 key value => (shown key, .number (itoa value.toNat))
  | .i64 key value => (shown key, .number (itoa value.toInt))
  | .bool key value => (shown key, .bool value)
  | .display key value => (shown key, .string (shownChunks value))

/-- The member of an optional field. -/
def optionalMember (key : String) (v : Option Text) : List (Text × Json) :=
  (v.map fun v => (key.toList, Json.string (shown v))).toList

/-- The members of a line that shows these ids, in order. -/
def membersWith (ids : IdPair) (t : LogThread) (level : LogLevel) (message : Text)
    (context : LogContext R) (audience : LogAudience) (additional : List (Text × Shown))
    (file : Option Text) (line : Option UInt32) : List (Text × Json) :=
  [("ts".toList, .string t.cached.formatted), ("level".toList, .string (levelStr level)),
    ("audience".toList, .string (audienceStr audience))] ++
  optionalMember "trace_id" ids.1 ++
  optionalMember "span_id" ids.2 ++
  optionalMember "feature" context.feature ++
  optionalMember "fn" context.function ++
  (RequestFields.writeJson context.request).map fieldMember ++
  optionalMember "error_code" context.errorCode ++
  optionalMember "error_category" context.errorCategory ++
  ((context.additional.map t.order.visit).getD []).map
    (fun e => (shown e.1, Json.string (shown e.2))) ++
  additional.map (fun e => (shown e.1, Json.string (shownChunks e.2))) ++
  optionalMember "file" file ++
  (file.bind fun _ => line.map fun l => ("line".toList, Json.number (itoa l.toNat))).toList ++
  [("msg".toList, .string (shown message))]

/-- The members of a call's line. -/
def lineMembers (t : LogThread) (level : LogLevel) (message : Text) (context : LogContext R)
    (audience : LogAudience) (additional : List (Text × Shown)) (file : Option Text)
    (line : Option UInt32) : List (Text × Json) :=
  membersWith (effectiveTraceContext context t.spans) t level message context audience additional
    file line

/-! ## Members as they are written -/

/-- A string that needs no escape is written and shown as it is. -/
theorem escaped_of_unescaped {s : Text} (h : ∀ c ∈ s, mustEscape c = false) :
    escaped s = s ∧ shown s = s := by
  have hany : (asBytes s).any jsonEscapeTable = false := by
    rw [needsEscape_eq]
    exact List.any_eq_false.mpr fun c hc => Bool.eq_false_iff.mp (h c hc)
  unfold escaped writeJsonEscaped shown
  rw [hany]
  exact ⟨rfl, rfl⟩

/-- The name of a level needs no escape. -/
theorem levelStr_plain (level : LogLevel) :
    escaped (levelStr level) = levelStr level ∧ shown (levelStr level) = levelStr level := by
  cases level <;> decide +kernel

/-- The name of an audience needs no escape. -/
theorem audienceStr_plain (audience : LogAudience) :
    escaped (audienceStr audience) = audienceStr audience ∧
      shown (audienceStr audience) = audienceStr audience := by
  cases audience <;> decide +kernel

/-- A member whose value is a string. -/
def strMember (key value : Text) : Member where
  nameText := escaped key
  name := shown key
  valueText := '"' :: escaped value ++ ['"']
  value := .string (shown value)
  writes := writes_escaped key
  reads := .string (writes_escaped value)

/-- A member whose value is written in chunks. -/
def displayMember (key : Text) (value : Shown) : Member where
  nameText := escaped key
  name := shown key
  valueText := '"' :: value.flatMap escaped ++ ['"']
  value := .string (shownChunks value)
  writes := writes_escaped key
  reads := .string (Writes.flatMap fun s _ => writes_escaped s)

/-- A number. -/
theorem readsValue_itoa (n : ℤ) : ReadsValue (itoa n) (.number (itoa n)) := by
  cases n with
  | ofNat n => exact ReadsValue.decimal n
  | negSucc n => exact ReadsValue.negative (n + 1)

/-- A member whose value is a number. -/
def numberMember (key : Text) (n : ℤ) : Member where
  nameText := escaped key
  name := shown key
  valueText := itoa n
  value := .number (itoa n)
  writes := writes_escaped key
  reads := readsValue_itoa n

/-- A member whose value is a literal. -/
def boolMember (key : Text) (b : Bool) : Member where
  nameText := escaped key
  name := shown key
  valueText := if b then ['t', 'r', 'u', 'e'] else ['f', 'a', 'l', 's', 'e']
  value := .bool b
  writes := writes_escaped key
  reads := ReadsValue.bool b

/-- The member that a field writer's call writes. -/
def callMember : FieldCall → Member
  | .str key value => strMember key value
  | .u64 key value => numberMember key value.toNat
  | .i64 key value => numberMember key value.toInt
  | .bool key value => boolMember key value
  | .display key value => displayMember key value

theorem writeStr_eq (s key value : Text) :
    writeStr s key value = s ++ ',' :: (strMember key value).text := by
  simp [writeStr, writeJsonEscaped_eq, strMember, Member.text]

theorem writeRaw_eq (s key value : Text) :
    writeRaw s key value = s ++ ',' :: '"' :: escaped key ++ '"' :: ':' :: value := by
  simp [writeRaw, writeJsonEscaped_eq]

theorem writeDisplay_eq (s key : Text) (value : Shown) :
    writeDisplay s key value = s ++ ',' :: (displayMember key value).text := by
  have hchunks : ∀ buf : Text, writeChunks buf value = buf ++ value.flatMap escaped := by
    intro buf
    rw [writeChunks, ← foldl_append]
    exact congrArg (fun f => value.foldl f buf) (funext₂ writeJsonEscaped_eq)
  simp [writeDisplay, hchunks, writeJsonEscaped_eq, displayMember, Member.text]

/-- Every call of the field writer appends one member. -/
theorem jsonFieldWriter_eq (s : Text) (c : FieldCall) :
    jsonFieldWriter s c = s ++ ',' :: (callMember c).text := by
  cases c with
  | str key value => exact writeStr_eq s key value
  | u64 key value => simp [jsonFieldWriter, writeRaw_eq, callMember, numberMember, Member.text]
  | i64 key value => simp [jsonFieldWriter, writeRaw_eq, callMember, numberMember, Member.text]
  | bool key value =>
    cases value <;> simp [jsonFieldWriter, writeRaw_eq, callMember, boolMember, Member.text]
  | display key value => exact writeDisplay_eq s key value

/-- A loop that appends members. -/
theorem foldl_members {α : Type*} {w : Text → α → Text} {f : α → Member}
    (h : ∀ s a, w s a = s ++ ',' :: (f a).text) (l : List α) (s : Text) :
    l.foldl w s = s ++ moreMembers (l.map f) := by
  rw [moreMembers, List.flatMap_map, ← foldl_append]
  exact congrArg (fun w => l.foldl w s) (funext₂ h)

/-- An optional member with a name that needs no escape. -/
def optionalText (key : Text) (v : Option Text) : List Member := (v.map (strMember key)).toList

theorem jsonField_eq {key : Text} (h : escaped key = key) (s : Text) (v : Option Text) :
    jsonField s key v = s ++ moreMembers (optionalText key v) := by
  cases v with
  | none => simp [jsonField, optionalText, moreMembers]
  | some v =>
    simp [jsonField, optionalText, moreMembers, writeJsonEscaped_eq, strMember, Member.text, h]

/-- The members behind the timestamp, as they are written. -/
def lineTexts (t : LogThread) (level : LogLevel) (message : Text) (context : LogContext R)
    (audience : LogAudience) (additional : List (Text × Shown)) (file : Option Text)
    (line : Option UInt32) : List Member :=
  [strMember "level".toList (levelStr level), strMember "audience".toList (audienceStr audience)] ++
  optionalText "trace_id".toList (effectiveTraceContext context t.spans).1 ++
  optionalText "span_id".toList (effectiveTraceContext context t.spans).2 ++
  optionalText "feature".toList context.feature ++
  optionalText "fn".toList context.function ++
  (RequestFields.writeJson context.request).map callMember ++
  optionalText "error_code".toList context.errorCode ++
  optionalText "error_category".toList context.errorCategory ++
  ((context.additional.map t.order.visit).getD []).map (fun e => strMember e.1 e.2) ++
  additional.map (fun e => displayMember e.1 e.2) ++
  optionalText "file".toList file ++
  (file.bind fun _ => line.map fun l => numberMember "line".toList l.toNat).toList ++
  [strMember "msg".toList message]

/-- Members are appended one list behind the other. -/
theorem moreMembers_append (ms ms' : List Member) :
    moreMembers (ms ++ ms') = moreMembers ms ++ moreMembers ms' := List.flatMap_append

/-- The fixed members in front. -/
theorem writeHead_eq (s ts : Text) (h : ∀ c ∈ ts, mustEscape c = false) (level : LogLevel)
    (audience : LogAudience) :
    s ++ "\x7b\"ts\":\"".toList ++ ts ++ "\",\"level\":\"".toList ++ levelStr level ++
        "\",\"audience\":\"".toList ++ audienceStr audience ++ ['"'] =
      s ++ '{' :: (strMember "ts".toList ts).text ++
        moreMembers [strMember "level".toList (levelStr level),
          strMember "audience".toList (audienceStr audience)] := by
  have hkey : escaped ['t', 's'] = ['t', 's'] ∧
      escaped ['l', 'e', 'v', 'e', 'l'] = ['l', 'e', 'v', 'e', 'l'] ∧
      escaped ['a', 'u', 'd', 'i', 'e', 'n', 'c', 'e'] =
        ['a', 'u', 'd', 'i', 'e', 'n', 'c', 'e'] := by decide +kernel
  simp [moreMembers, strMember, Member.text, (escaped_of_unescaped h).1, (levelStr_plain level).1,
    (audienceStr_plain audience).1, hkey.1, hkey.2.1, hkey.2.2]

/-- The entries of a context. -/
theorem writeEntries_eq (order : MapOrder) (s : Text) (additional : Option Fields) :
    (match additional with
      | some m => (order.visit m).foldl (fun s e => writeStr s e.1 e.2) s
      | none => s) =
      s ++ moreMembers (((additional.map order.visit).getD []).map fun e => strMember e.1 e.2) := by
  cases additional with
  | none => simp [moreMembers]
  | some m => exact foldl_members (fun s e => writeStr_eq s e.1 e.2) _ s

/-- The source location. -/
theorem writeLocation_eq (s : Text) (file : Option Text) (line : Option UInt32) :
    (match file with
      | some f =>
        match line with
        | some l =>
          writeJsonEscaped (s ++ ",\"file\":\"".toList) f ++ ['"'] ++ ",\"line\":".toList ++
            itoa l.toNat
        | none => writeJsonEscaped (s ++ ",\"file\":\"".toList) f ++ ['"']
      | none => s) =
      s ++ moreMembers (optionalText "file".toList file ++
        (file.bind fun _ => line.map fun l => numberMember "line".toList l.toNat).toList) := by
  have hkey : escaped ['f', 'i', 'l', 'e'] = ['f', 'i', 'l', 'e'] ∧
      escaped ['l', 'i', 'n', 'e'] = ['l', 'i', 'n', 'e'] := by decide +kernel
  cases file with
  | none => simp [optionalText, moreMembers]
  | some f =>
    cases line <;>
      simp [optionalText, moreMembers, writeJsonEscaped_eq, strMember, numberMember, Member.text,
        hkey.1, hkey.2]

/-- The message. -/
theorem writeMessage_eq (s message : Text) :
    writeJsonEscaped (s ++ ",\"msg\":\"".toList) message ++ "\"\x7d".toList =
      s ++ moreMembers [strMember "msg".toList message] ++ ['}'] := by
  have hkey : escaped ['m', 's', 'g'] = ['m', 's', 'g'] := by decide +kernel
  simp [moreMembers, writeJsonEscaped_eq, strMember, Member.text, hkey]

/-- The line is an object of these members. -/
theorem writeJsonDirect_eq (t : LogThread) (s : Text) (level : LogLevel) (message : Text)
    (context : LogContext R) (audience : LogAudience) (additional : List (Text × Shown))
    (file : Option Text) (line : Option UInt32) :
    writeJsonDirect t s level message context audience additional file line =
      s ++ objectText (strMember "ts".toList t.cached.formatted)
        (lineTexts t level message context audience additional file line) := by
  have hkeys : escaped "trace_id".toList = "trace_id".toList ∧
      escaped "span_id".toList = "span_id".toList ∧
      escaped "feature".toList = "feature".toList ∧ escaped "fn".toList = "fn".toList ∧
      escaped "error_code".toList = "error_code".toList ∧
      escaped "error_category".toList = "error_category".toList := by decide +kernel
  obtain ⟨htrace, hspan, hfeature, hfn, hcode, hcategory⟩ := hkeys
  unfold writeJsonDirect
  simp only [writeHead_eq _ _ t.cached.unescaped, jsonField_eq htrace, jsonField_eq hspan,
    jsonField_eq hfeature, jsonField_eq hfn, jsonField_eq hcode, jsonField_eq hcategory,
    foldl_members jsonFieldWriter_eq, writeEntries_eq,
    foldl_members (fun s (e : Text × Shown) => writeDisplay_eq s e.1 e.2), writeLocation_eq,
    writeMessage_eq]
  rw [objectText, lineTexts]
  simp only [moreMembers_append]
  simp only [List.append_assoc, List.cons_append]

/-- Their names and values. -/
theorem lineTexts_pair (t : LogThread) (level : LogLevel) (message : Text)
    (context : LogContext R) (audience : LogAudience) (additional : List (Text × Shown))
    (file : Option Text) (line : Option UInt32) :
    (strMember "ts".toList t.cached.formatted ::
        lineTexts t level message context audience additional file line).map Member.pair =
      lineMembers t level message context audience additional file line := by
  have hcall : Member.pair ∘ callMember = fieldMember := by
    funext c
    cases c <;> rfl
  have hoptional : ∀ (key : String) (v : Option Text), shown key.toList = key.toList →
      (optionalText key.toList v).map Member.pair = optionalMember key v := by
    intro key v hkey
    cases v with
    | none => rfl
    | some v => simp only [optionalText, optionalMember, Option.map_some, Option.toList_some,
        List.map_singleton, Member.pair, strMember, hkey]
  have hfixed : shown "ts".toList = "ts".toList ∧ shown "level".toList = "level".toList ∧
      shown "audience".toList = "audience".toList ∧ shown "line".toList = "line".toList ∧
      shown "msg".toList = "msg".toList := by decide +kernel
  have hts : shown t.cached.formatted = t.cached.formatted :=
    (escaped_of_unescaped t.cached.unescaped).2
  have hnames : shown "trace_id".toList = "trace_id".toList ∧
      shown "span_id".toList = "span_id".toList ∧ shown "feature".toList = "feature".toList ∧
      shown "fn".toList = "fn".toList ∧ shown "error_code".toList = "error_code".toList ∧
      shown "error_category".toList = "error_category".toList ∧
      shown "file".toList = "file".toList := by decide +kernel
  obtain ⟨htrace, hspan, hfeature, hfn, hcode, hcategory, hfile⟩ := hnames
  have hline : ((file.bind fun _ => line.map fun l =>
      numberMember "line".toList l.toNat).toList).map Member.pair =
        (file.bind fun _ =>
          line.map fun l => ("line".toList, Json.number (itoa l.toNat))).toList := by
    cases file with
    | none => rfl
    | some f =>
      cases line with
      | none => rfl
      | some l => simp only [Option.bind_some, Option.map_some, Option.toList_some,
          List.map_singleton, Member.pair, numberMember, hfixed.2.2.2.1]
  rw [lineTexts, lineMembers, membersWith]
  simp only [List.map_cons, List.map_append, List.map_nil, List.map_map, hcall, hline,
    hoptional _ _ htrace, hoptional _ _ hspan, hoptional _ _ hfeature, hoptional _ _ hfn,
    hoptional _ _ hcode, hoptional _ _ hcategory, hoptional _ _ hfile, Member.pair, strMember,
    hfixed.1, hfixed.2.1, hfixed.2.2.1, hfixed.2.2.2.2, hts, (levelStr_plain level).2,
    (audienceStr_plain audience).2]
  rfl

/-- A character that needs no escape is no control character. -/
theorem plain_of_unescaped {c : Char} (h : mustEscape c = false) : 0x20 ≤ c.toNat := by
  simp only [mustEscape, decide_eq_false_iff_not, not_or] at h
  omega

/-- A member holds no control character if its texts hold none. -/
theorem Member.plain {m : Member} (h : ∀ c ∈ m.nameText, 0x20 ≤ c.toNat)
    (h' : ∀ c ∈ m.valueText, 0x20 ≤ c.toNat) : ∀ c ∈ m.text, 0x20 ≤ c.toNat := by
  unfold Member.text
  simp only [List.forall_mem_append, List.forall_mem_cons]
  exact ⟨⟨by decide, h⟩, by decide, by decide, h'⟩

/-- Quotes add no control character. -/
theorem quoted_plain {s : Text} (h : ∀ c ∈ s, 0x20 ≤ c.toNat) :
    ∀ c ∈ '"' :: s ++ ['"'], 0x20 ≤ c.toNat :=
  List.forall_mem_append.mpr ⟨List.forall_mem_cons.mpr ⟨by decide, h⟩, by simp⟩

/-- A string member holds no control character. -/
theorem strMember_plain (key value : Text) : ∀ c ∈ (strMember key value).text, 0x20 ≤ c.toNat :=
  Member.plain (escaped_plain key) (quoted_plain (escaped_plain value))

/-- None of them holds a control character. -/
theorem lineTexts_plain (t : LogThread) (level : LogLevel) (message : Text)
    (context : LogContext R) (audience : LogAudience) (additional : List (Text × Shown))
    (file : Option Text) (line : Option UInt32) :
    ∀ m ∈ lineTexts t level message context audience additional file line,
      ∀ c ∈ m.text, 0x20 ≤ c.toNat := by
  have hstr := strMember_plain
  have hdisplay : ∀ key value, ∀ c ∈ (displayMember key value).text, 0x20 ≤ c.toNat := by
    intro key value
    refine Member.plain (escaped_plain key) (quoted_plain fun c hc => ?_)
    obtain ⟨s, -, hs⟩ := List.mem_flatMap.mp hc
    exact escaped_plain s c hs
  have hnumber : ∀ key n, ∀ c ∈ (numberMember key n).text, 0x20 ≤ c.toNat := fun key n =>
    Member.plain (escaped_plain key) fun c hc => plain_of_unescaped (itoa_unescaped n c hc)
  have hliteral : ∀ b : Bool, ∀ c ∈ if b then ['t', 'r', 'u', 'e'] else ['f', 'a', 'l', 's', 'e'],
      0x20 ≤ c.toNat := by
    intro b
    cases b <;> simp
  have hcall : ∀ call, ∀ c ∈ (callMember call).text, 0x20 ≤ c.toNat := by
    intro call
    cases call with
    | str key value => exact hstr key value
    | u64 key value => exact hnumber key _
    | i64 key value => exact hnumber key _
    | bool key value => exact Member.plain (escaped_plain key) (hliteral value)
    | display key value => exact hdisplay key value
  have hoptional : ∀ key v, ∀ m ∈ optionalText key v, ∀ c ∈ m.text, 0x20 ≤ c.toNat := by
    intro key v m hm
    obtain ⟨v, -, rfl⟩ := Option.map_eq_some_iff.mp (Option.mem_toList.mp hm)
    exact hstr key v
  have hline : ∀ m ∈ (file.bind fun _ => line.map fun l =>
      numberMember "line".toList l.toNat).toList, ∀ c ∈ m.text, 0x20 ≤ c.toNat := by
    intro m hm
    obtain ⟨f, -, hm⟩ := Option.bind_eq_some_iff.mp (Option.mem_toList.mp hm)
    obtain ⟨l, -, rfl⟩ := Option.map_eq_some_iff.mp hm
    exact hnumber _ _
  unfold lineTexts
  simp only [List.forall_mem_append, List.forall_mem_cons, List.forall_mem_map]
  and_intros
  all_goals
    first
      | exact hstr _ _
      | exact hoptional _ _
      | exact fun _ _ => hcall _
      | exact fun _ _ => hstr _ _
      | exact fun _ _ => hdisplay _ _
      | exact hline
      | exact fun _ hm => absurd hm List.not_mem_nil

/-- Whatever its strings are, the line is one JSON object without control
characters, and its members are those of the call, in order. -/
theorem write_json_direct_members (t : LogThread) (s : Text) (level : LogLevel) (message : Text)
    (context : LogContext R) (audience : LogAudience) (additional : List (Text × Shown))
    (file : Option Text) (line : Option UInt32) :
    ∃ text, writeJsonDirect t s level message context audience additional file line = s ++ text ∧
      (∀ c ∈ text, 0x20 ≤ c.toNat) ∧
      parse text =
        some (.object (lineMembers t level message context audience additional file line)) := by
  refine ⟨_, writeJsonDirect_eq t s level message context audience additional file line, ?_, ?_⟩
  · have hts := strMember_plain "ts".toList t.cached.formatted
    have hmore := lineTexts_plain t level message context audience additional file line
    unfold objectText moreMembers
    simp only [List.forall_mem_append, List.forall_mem_cons, List.mem_flatMap]
    refine ⟨⟨⟨by decide, hts⟩, ?_⟩, by decide, by simp⟩
    rintro c ⟨m, hm, hc⟩
    rcases List.mem_cons.mp hc with rfl | hc
    · decide
    · exact hmore m hm c hc
  · rw [parse_objectText, lineTexts_pair]

end EdenLogger.JsonLine
