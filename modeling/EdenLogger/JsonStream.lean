import EdenLogger.LockedWriters
import EdenLogger.DisplayLine

/-!
# The stream of JSON lines

Threads that emit at once share the terminal's lock, and the stream may take
the bytes of a line in pieces or refuse the rest of them, also inside a
character. No JSON line holds the byte of a line break, so a reader who splits
the stream at these bytes and decodes what is between gets the calls back: all
of them if nothing was refused, and otherwise each one whose own line and the
one before it went out whole.
-/

namespace EdenLogger.JsonStream

open RunRules LockedWriters ExporterConfig JsonText LogRecord JsonEscape JsonLine DisplayLine

variable {R : Type} [RequestFields R]

/-- A call of `emit_direct` on a thread. -/
structure Emission (R : Type) where
  /-- The thread's state at the call. -/
  thread : LogThread
  level : LogLevel
  message : Text
  context : LogContext R
  audience : LogAudience
  additional : List (Text × Shown)
  file : Option Text
  line : Option UInt32

/-- What a call writes and where. -/
def Emission.emitted (config : WriterConfig) (shouldLog : LogLevel → Bool) (e : Emission R) :
    Option (LogTarget × Text) :=
  emitDirect config shouldLog e.thread e.level e.message e.context e.audience e.additional e.file
    e.line

/-- The text that a call writes. -/
def Emission.text (config : WriterConfig) (shouldLog : LogLevel → Bool) (e : Emission R) : Text :=
  ((e.emitted config shouldLog).map Prod.snd).getD []

/-- The bytes that the stream gets. -/
def Emission.bytes (config : WriterConfig) (shouldLog : LogLevel → Bool) (e : Emission R) :
    List UInt8 :=
  asBytes (e.text config shouldLog)

/-- The members of a call's line. -/
def Emission.members (e : Emission R) : List (Text × Json) :=
  lineMembers e.thread e.level e.message e.context e.audience e.additional e.file e.line

/-- The calls of a thread's program that write. -/
def writing (config : WriterConfig) (shouldLog : LogLevel → Bool) (program : List (Emission R)) :
    List (Emission R) :=
  program.filter fun e => (e.emitted config shouldLog).isSome

/-! ## Bytes of a line -/

/-- The byte of a line break. -/
def newline : UInt8 := 10

/-- What a reader makes of a line's bytes. -/
def readLine (bytes : List UInt8) : Option Json :=
  bytes.toByteArray.utf8Decode?.bind fun text => parse text.toList

/-- The bytes of a text are read as the text. -/
theorem readLine_asBytes (text : Text) : readLine (asBytes text) = parse text := by
  have hdecode : (asBytes text).toByteArray.utf8Decode? = some text.toArray :=
    List.utf8Decode?_utf8Encode
  rw [readLine, hdecode, Option.bind_some, List.toList_toArray]

/-- The byte of a line break comes from a line break only. -/
theorem newline_notMem {text : Text} (h : '\n' ∉ text) : newline ∉ asBytes text := by
  intro hmem
  obtain ⟨c, hc, hbyte⟩ := List.mem_flatMap.mp hmem
  have hnl : newline.toNat = 10 := rfl
  by_cases hascii : c.toNat < 0x80
  · rw [encode_ascii hascii, List.mem_singleton, ← UInt8.toNat_inj, UInt8.toNat_ofNat',
      hnl] at hbyte
    have hcode : c.toNat = 10 := by omega
    exact h ((Char.toNat_inj.mp hcode : c = '\n') ▸ hc)
  · have hlarge := (encode_multibyte (Nat.le_of_not_lt hascii)).2 newline hbyte
    omega

/-! ## One line -/

variable {config : WriterConfig} {shouldLog : LogLevel → Bool}

/-- With JSON configured, a call that writes writes its JSON line. -/
theorem text_of_emitted (hjson : config.format = .json) {e : Emission R}
    (h : (e.emitted config shouldLog).isSome = true) :
    e.text config shouldLog = writeJsonDirect e.thread [] e.level e.message e.context e.audience
      e.additional e.file e.line ++ ['\n'] := by
  unfold Emission.text
  unfold Emission.emitted emitDirect at h ⊢
  rw [hjson] at h ⊢
  unfold logBytes at h ⊢
  split at h
  · rename_i hlog
    split at h
    · rename_i htarget
      rw [if_pos hlog, if_pos htarget, if_neg htarget]
      rfl
    · cases h
  · cases h

/-- A JSON line holds no line break, and stands for its members. -/
theorem json_line (e : Emission R) :
    '\n' ∉ writeJsonDirect e.thread [] e.level e.message e.context e.audience e.additional e.file
        e.line ∧
      parse (writeJsonDirect e.thread [] e.level e.message e.context e.audience e.additional e.file
        e.line) = some (.object e.members) := by
  rw [writeJsonDirect_eq, List.nil_append]
  constructor
  · have hplain : ∀ m ∈ lineTexts e.thread e.level e.message e.context e.audience e.additional
        e.file e.line, '\n' ∉ m.text := fun m hm hmem =>
      absurd (lineTexts_plain _ _ _ _ _ _ _ _ m hm _ hmem) (by decide)
    have hts : '\n' ∉ (strMember "ts".toList e.thread.cached.formatted).text := fun hmem =>
      absurd (strMember_plain _ _ _ hmem) (by decide)
    unfold objectText moreMembers
    simp only [List.mem_append, List.mem_cons, List.mem_flatMap, not_or, not_exists, not_and]
    refine ⟨⟨⟨by decide, hts⟩, fun m hm => ⟨by decide, hplain m hm⟩⟩, by decide, List.not_mem_nil⟩
  · rw [parse_objectText, lineTexts_pair]
    rfl

/-- Its bytes are those of the line, and the byte of a line break. -/
theorem bytes_of_emitted (hjson : config.format = .json) {e : Emission R}
    (h : (e.emitted config shouldLog).isSome = true) :
    e.bytes config shouldLog = asBytes (writeJsonDirect e.thread [] e.level e.message e.context
      e.audience e.additional e.file e.line) ++ [newline] := by
  rw [Emission.bytes, text_of_emitted hjson h, asBytes, List.flatMap_append]
  rfl

/-- What a call writes is a line. -/
theorem isLine_bytes (hjson : config.format = .json) {e : Emission R}
    (h : (e.emitted config shouldLog).isSome = true) :
    IsLine newline (e.bytes config shouldLog) :=
  ⟨_, newline_notMem (json_line e).1, bytes_of_emitted hjson h⟩

/-- A line that went out whole is read back. -/
theorem read_whole {ι : Type*} (hjson : config.format = .json) {e : Entry ι (Emission R) UInt8}
    (h : (e.item.emitted config shouldLog).isSome = true)
    (hsplit : e.written ++ e.left = e.item.bytes config shouldLog) (hwhole : e.left = []) :
    readLine e.written.dropLast = some (.object e.item.members) := by
  rw [hwhole, List.append_nil] at hsplit
  rw [hsplit, bytes_of_emitted hjson h, List.dropLast_concat, readLine_asBytes]
  exact (json_line e.item).2

/-! ## The stream -/

variable {ι : Type*} [DecidableEq ι] {programs : ι → List (Emission R)}
  {s : State ι (Emission R) UInt8} {log : List (Entry ι (Emission R) UInt8)}
  {current : Option (Entry ι (Emission R) UInt8)}

/-- Everything that is logged writes. -/
theorem emitted_of_logged (h : Ledger (Emission.bytes config shouldLog)
      (fun i => writing config shouldLog (programs i)) s log current)
    {e : Entry ι (Emission R) UInt8} (he : e ∈ log ++ current.toList) :
    (e.item.emitted config shouldLog).isSome = true :=
  (List.mem_filter.mp (h.mem_programs he)).2

/-- A reader finds the frames of the log. -/
theorem splitOn_out (hjson : config.format = .json)
    (h : Ledger (Emission.bytes config shouldLog) (fun i => writing config shouldLog (programs i)) s
      log current) : s.out.splitOn newline = frames [] (log ++ current.toList) := by
  rw [h.out]
  exact splitOn_written List.not_mem_nil
    (fun e he => isLine_bytes hjson (emitted_of_logged h he)) h.split

/-- However threads interleave and whatever the stream refuses: a call whose
line went out whole behind a whole one is read back, at the place that the
whole lines before it give. -/
theorem json_stream_survives_cuts (hjson : config.format = .json)
    (h : Reach (step (Emission.bytes config shouldLog))
      (start fun i => writing config shouldLog (programs i)) s) :
    ∃ log current, Ledger (Emission.bytes config shouldLog)
        (fun i => writing config shouldLog (programs i)) s log current ∧
      ∀ before e behind, log = before ++ e :: behind → e.left = [] →
        (∀ p ∈ before.getLast?, p.left = []) →
        ((s.out.splitOn newline)[before.countP fun p => p.left = []]?).bind readLine =
          some (.object e.item.members) := by
  obtain ⟨log, current, hl⟩ := exists_ledger h
  refine ⟨log, current, hl, fun before e behind hlog he hlast => ?_⟩
  have hmem : e ∈ log ++ current.toList := by
    rw [hlog, List.append_assoc]
    exact List.mem_append_right _ List.mem_cons_self
  have hframe := getElem_frames (behind ++ current.toList) he (fun _ => rfl) hlast
  rw [splitOn_out hjson hl, hlog, List.append_assoc, List.cons_append, hframe, Option.bind_some]
  exact read_whole hjson (emitted_of_logged hl hmem) (hl.split e hmem) he

/-- A call. -/
def upCall : Emission Unit :=
  ⟨quietThread, .info, "up".toList, keyedContext, .internal, [(['n'], [['1'], ['\n']])], none, none⟩

/-- A terminal with JSON lines. -/
def jsonConfig : WriterConfig := ⟨.stderr, .json⟩

/-- The bytes of a call there. -/
def upBytes : Emission Unit → List UInt8 := Emission.bytes jsonConfig fun _ => true

/-- Two threads with a call each. -/
def upStart : State Bool (Emission Unit) UInt8 :=
  start fun _ => writing jsonConfig (fun _ => true) [upCall]

/-- The first line is cut, and the second one goes out behind it. -/
def cutRun : List (Action Bool) :=
  [.lock false, .write 3, .fail, .lock true, .write (upBytes upCall).length, .unlock]

/-- In that run what can be read back is read back. -/
theorem json_stream_survives_cuts_up :
    ∃ log current, Ledger upBytes (fun _ => writing jsonConfig (fun _ => true) [upCall])
        ((replay (step upBytes) noCheck upStart cutRun).getD upStart) log current ∧
      ∀ before e behind, log = before ++ e :: behind → e.left = [] →
        (∀ p ∈ before.getLast?, p.left = []) →
        (((((replay (step upBytes) noCheck upStart cutRun).getD upStart).out.splitOn
          newline)[before.countP fun p => p.left = []]?).bind readLine =
            some (.object e.item.members)) :=
  json_stream_survives_cuts rfl
    (reach_getD (by decide +kernel))

/-- As long as nothing is refused, a reader gets back what was emitted: between
two lines the stream is the calls of the threads, each thread's in its order. -/
theorem json_stream_reads_back (hjson : config.format = .json)
    (h : ReachWhile (step (Emission.bytes config shouldLog)) Accepted
      (start fun i => writing config shouldLog (programs i)) s) (hfree : s.holder = none) :
    ∃ calls : List (ι × Emission R),
      (∀ i, ((calls.filter fun c => c.1 = i).map Prod.snd) ++ s.pending i =
        writing config shouldLog (programs i)) ∧
      (s.out.splitOn newline).map readLine =
        calls.map (fun c => some (.object c.2.members)) ++ [none] := by
  obtain ⟨log, current, hl, hwhole⟩ := exists_ledger_whole h
  have hnone : current = none := by
    cases current with
    | none => rfl
    | some e => cases hfree.symm.trans hl.held
  subst hnone
  have horder := hl.order
  have hframes := splitOn_out hjson hl
  rw [Option.toList_none, List.append_nil] at hframes
  simp only [Option.toList_none, List.append_nil] at horder
  refine ⟨log.map fun e => (e.writer, e.item), fun i => ?_, ?_⟩
  · rw [← horder i, List.filter_map, List.map_map]
    rfl
  · rw [hframes, frames_whole hwhole, List.map_append, List.map_map, List.map_map]
    refine congrArg₂ _ (List.map_congr_left fun e he => ?_) (by rfl)
    have hmem : e ∈ log ++ Option.toList none := List.mem_append_left _ he
    exact read_whole hjson (emitted_of_logged hl hmem) (hl.split e hmem) (hwhole e he)

/-- Both lines go out, the first one in two pieces. -/
def wholeRun : List (Action Bool) :=
  [.lock false, .write 3, .write ((upBytes upCall).length - 3), .unlock,
    .lock true, .write (upBytes upCall).length, .unlock]

/-- Whether no piece fails at a step. -/
def accepts (_ : State Bool (Emission Unit) UInt8) : Action Bool → Bool
  | .fail => false
  | _ => true

theorem accepted_of_accepts (s : State Bool (Emission Unit) UInt8) (a : Action Bool)
    (h : accepts s a = true) : Accepted s a := by
  rintro rfl
  cases h

/-- In that run both calls are read back. -/
theorem json_stream_reads_back_up :
    ∃ s : State Bool (Emission Unit) UInt8, s.pending false = [] ∧ s.pending true = [] ∧
      ∃ calls : List (Bool × Emission Unit),
        (∀ i, ((calls.filter fun c => c.1 = i).map Prod.snd) ++ s.pending i =
          writing jsonConfig (fun _ => true) [upCall]) ∧
        (s.out.splitOn newline).map readLine =
          calls.map (fun c => some (.object c.2.members)) ++ [none] := by
  obtain ⟨s, hreach, htest⟩ := exists_reach_of_replay (step upBytes) accepted_of_accepts upStart
    wholeRun (fun s => (s.pending false).isEmpty && (s.pending true).isEmpty && s.holder.isNone)
    (by decide +kernel)
  simp only [Bool.and_eq_true, List.isEmpty_iff, Option.isNone_iff_eq_none] at htest
  exact ⟨s, htest.1.1, htest.1.2,
    json_stream_reads_back rfl hreach htest.2⟩

end EdenLogger.JsonStream
