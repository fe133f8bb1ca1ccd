import EdenLogger.JsonLine

/-!
# Escaping in chunks

A `Display` value writes its text in chunks, and the adapter escapes each chunk on
its own. A chunk that needs no escape is copied even if another one of the same
text sends the whole text through the slow path, and the slow path is longer on
every character outside ASCII.
-/

namespace EdenLogger.EscapeChunks

open JsonText JsonEscape JsonLine LogRecord

/-! ## The adapter -/

/-- A write of a `Display` value. -/
inductive Chunk where
  | str (s : Text)
  | char (c : Char)

/-- The text of a write. -/
def Chunk.text : Chunk → Text
  | .str s => s
  | .char c => [c]

/-- `JsonEscapingWriter`: a character is encoded and escaped like a string. -/
def jsonEscapingWriter (out : Text) : Chunk → Text
  | .str s => writeJsonEscaped out s
  | .char c => writeJsonEscaped out [c]

/-- The adapter writes the texts of the chunks. -/
theorem foldl_jsonEscapingWriter (out : Text) (chunks : List Chunk) :
    chunks.foldl jsonEscapingWriter out = writeChunks out (chunks.map Chunk.text) := by
  unfold writeChunks
  rw [List.foldl_map]
  refine congrArg (fun f => chunks.foldl f out) (funext₂ fun out chunk => ?_)
  cases chunk <;> rfl

/-! ## The slow path -/

/-- What the slow path appends. -/
def slow (s : Text) : Text := (asBytes s).flatMap escapeByte

/-- What is appended, by the path that is taken. -/
theorem escaped_eq (s : Text) : escaped s = if s.any mustEscape then slow s else s := by
  unfold escaped writeJsonEscaped slow
  rw [needsEscape_eq, foldl_append, List.nil_append, List.nil_append]

/-- The slow path goes chunk by chunk. -/
theorem slow_flatten (chunks : List Text) : slow chunks.flatten = chunks.flatMap slow := by
  induction chunks with
  | nil => rfl
  | cons s chunks ih =>
    have happend : asBytes (s ++ chunks.flatten) = asBytes s ++ asBytes chunks.flatten :=
      List.flatMap_append
    rw [List.flatMap_cons, ← ih, List.flatten_cons]
    unfold slow
    rw [happend, List.flatMap_append]

/-- A byte that needs no escape is pushed as its character. -/
theorem escapeByte_of_table {b : UInt8} (h : jsonEscapeTable b = false) :
    escapeByte b = [byteChar b] := by
  simp only [jsonEscapeTable, decide_eq_false_iff_not, not_or] at h
  obtain ⟨hcontrol, hquote, hbackslash⟩ := h
  have hne : ∀ d : UInt8, d.toNat < 32 → b ≠ d := by
    rintro d hd rfl
    exact hcontrol hd
  unfold escapeByte
  rw [if_neg hquote, if_neg hbackslash, if_neg (hne _ (by decide)), if_neg (hne _ (by decide)),
    if_neg (hne _ (by decide)), if_neg (by omega)]

/-- A text that needs no escape comes out of the slow path byte by byte. -/
theorem slow_of_unescaped {s : Text} (h : s.any mustEscape = false) :
    slow s = (asBytes s).map byteChar := by
  rw [← needsEscape_eq, List.any_eq_false] at h
  unfold slow
  rw [List.map_eq_flatMap]
  refine List.flatMap_congr fun b hb => escapeByte_of_table ?_
  exact Bool.eq_false_iff.mpr (h b hb)

/-- The slow path is at least as long, and as long only if it has to be or on ASCII. -/
theorem length_escaped (s : Text) : (escaped s).length ≤ (slow s).length ∧
    ((escaped s).length = (slow s).length ↔
      s.any mustEscape = true ∨ ∀ c ∈ s, c.toNat < 0x80) := by
  rw [escaped_eq]
  cases hany : s.any mustEscape with
  | true =>
    rw [if_pos rfl]
    exact ⟨Nat.le_refl _, iff_of_true rfl (Or.inl rfl)⟩
  | false =>
    rw [if_neg Bool.false_ne_true, slow_of_unescaped hany, List.length_map]
    refine ⟨length_le_asBytes s, fun heq => Or.inr fun c hc => ?_, fun hascii => ?_⟩
    · exact Nat.lt_of_not_le fun hle => Nat.ne_of_lt (length_lt_asBytes hc hle) heq
    · have hmap := map_byteChar_ascii (hascii.resolve_left Bool.false_ne_true)
      have hlen := congrArg List.length hmap
      rw [List.length_map] at hlen
      exact hlen.symm

/-- The two paths agree where they are equally long. -/
theorem escaped_eq_slow {s : Text} (h : s.any mustEscape = true ∨ ∀ c ∈ s, c.toNat < 0x80) :
    escaped s = slow s := by
  rw [escaped_eq]
  cases hany : s.any mustEscape with
  | true => exact if_pos rfl
  | false =>
    have hascii := h.resolve_left (Bool.eq_false_iff.mp hany)
    rw [if_neg Bool.false_ne_true, slow_of_unescaped hany, map_byteChar_ascii hascii]

/-! ## Chunks against the whole -/

/-- Pieces that are never longer than others are as long together only if each is. -/
theorem length_eq_of_flatMap {α β : Type*} {f g : α → List β} {l : List α}
    (hle : ∀ a ∈ l, (f a).length ≤ (g a).length) (h : l.flatMap f = l.flatMap g) :
    ∀ a ∈ l, (f a).length = (g a).length := by
  have hsum : ∀ l : List α, (∀ a ∈ l, (f a).length ≤ (g a).length) →
      (l.flatMap f).length ≤ (l.flatMap g).length ∧
        ((l.flatMap f).length = (l.flatMap g).length → ∀ a ∈ l, (f a).length = (g a).length) := by
    intro l hle
    induction l with
    | nil => exact ⟨Nat.le_refl _, fun _ a ha => absurd ha List.not_mem_nil⟩
    | cons a l ih =>
      obtain ⟨ha, hl⟩ := List.forall_mem_cons.mp hle
      obtain ⟨htail, hsame⟩ := ih hl
      simp only [List.flatMap_cons, List.length_append]
      refine ⟨Nat.add_le_add ha htail, fun heq => List.forall_mem_cons.mpr ⟨?_, hsame ?_⟩⟩
      · omega
      · omega
  exact (hsum l hle).2 (congrArg List.length h)

/-- No character has to be escaped, or the chunks where none has to are ASCII. -/
def Unmixed (chunks : List Text) : Prop :=
  (∀ c ∈ chunks.flatten, mustEscape c = false) ∨
    ∀ chunk ∈ chunks, (∀ c ∈ chunk, mustEscape c = false) → ∀ c ∈ chunk, c.toNat < 0x80

/-- What chunks append is what the text appends, exactly if they are not mixed. -/
theorem flatMap_escaped_iff (chunks : List Text) :
    chunks.flatMap escaped = escaped chunks.flatten ↔ Unmixed chunks := by
  have hnone : ∀ s : Text, (∀ c ∈ s, mustEscape c = false) ↔ s.any mustEscape = false := by
    intro s
    simp only [List.any_eq_false, Bool.not_eq_true]
  unfold Unmixed
  rw [hnone]
  cases hany : chunks.flatten.any mustEscape with
  | false =>
    refine iff_of_true ?_ (Or.inl rfl)
    have hchunks : ∀ chunk ∈ chunks, escaped chunk = chunk := by
      intro chunk hchunk
      refine (escaped_of_unescaped fun c hc => ?_).1
      exact (hnone _).mpr hany c (List.mem_flatten.mpr ⟨chunk, hchunk, hc⟩)
    rw [escaped_eq, hany, if_neg Bool.false_ne_true, List.flatMap_congr hchunks]
    exact List.flatMap_id'
  | true =>
    rw [escaped_eq, hany, if_pos rfl, slow_flatten]
    constructor
    · intro heq
      refine Or.inr fun chunk hchunk hunescaped => ?_
      have hlen := length_eq_of_flatMap (fun s _ => (length_escaped s).1) heq chunk hchunk
      refine ((length_escaped chunk).2.mp hlen).resolve_left ?_
      rw [(hnone chunk).mp hunescaped]
      exact Bool.false_ne_true
    · intro hunmixed
      have hascii := hunmixed.resolve_left fun h => by cases h
      refine List.flatMap_congr fun chunk hchunk => escaped_eq_slow ?_
      cases hchars : chunk.any mustEscape with
      | true => exact Or.inl rfl
      | false => exact Or.inr (hascii chunk hchunk ((hnone chunk).mpr hchars))

/-- Streaming escape equals whole-string escape, through the adapter and as the value of
a member, exactly if no character has to be escaped or every chunk that needs no escape
is ASCII. -/
theorem streaming_escape (out key : Text) (chunks : List Chunk) :
    let texts := chunks.map Chunk.text
    (chunks.foldl jsonEscapingWriter out = writeJsonEscaped out texts.flatten ↔ Unmixed texts) ∧
    (jsonFieldWriter out (.display key texts) = jsonFieldWriter out (.str key texts.flatten) ↔
      Unmixed texts) := by
  intro texts
  have hadapter : ∀ out : Text, writeChunks out texts = out ++ texts.flatMap escaped := by
    intro out
    rw [writeChunks, ← foldl_append]
    exact congrArg (fun f => texts.foldl f out) (funext₂ writeJsonEscaped_eq)
  have hwhole : ∀ out : Text, writeChunks out texts = writeJsonEscaped out texts.flatten ↔
      Unmixed texts := by
    intro out
    rw [hadapter, writeJsonEscaped_eq, List.append_cancel_left_eq]
    exact flatMap_escaped_iff texts
  refine ⟨?_, ?_⟩
  · rw [foldl_jsonEscapingWriter]
    exact hwhole out
  · unfold jsonFieldWriter writeDisplay writeStr
    rw [List.append_cancel_right_eq]
    exact hwhole _

/-- An accent and a quote in two chunks, and in one. -/
theorem chunks_differ :
    [Chunk.char 'é', .char '"'].foldl jsonEscapingWriter [] ≠
        writeJsonEscaped [] ([Chunk.char 'é', .char '"'].map Chunk.text).flatten ∧
      [Chunk.char 'é', .char '"'].foldl jsonEscapingWriter [] = ['é', '\\', '"'] ∧
      writeJsonEscaped [] ['é', '"'] = ['Ã', '©', '\\', '"'] := by
  decide +kernel

end EdenLogger.EscapeChunks
