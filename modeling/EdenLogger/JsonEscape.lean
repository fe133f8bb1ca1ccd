import EdenLogger.JsonText

/-!
# JSON escaping

`write_json_escaped` copies a string that needs no escape as it is. A string
that needs one is rewritten byte by byte, and every other byte is pushed as the
character with its number. On ASCII this is the character itself; a character
of several bytes comes out as several characters.
-/

namespace EdenLogger.JsonEscape

open JsonText

/-! ## The writer -/

/-- UTF-8 bytes of a string. -/
def asBytes (s : List Char) : List UInt8 := s.flatMap String.utf8EncodeChar

/-- `b as char`: the character with the byte's number. -/
def byteChar (b : UInt8) : Char := Char.ofNat b.toNat

/-- Hex lookup for `\u00XX` escapes. -/
def hexChars : List Char :=
  ['0', '1', '2', '3', '4', '5', '6', '7', '8', '9', 'a', 'b', 'c', 'd', 'e', 'f']

/-- Lookup in that table. -/
def hexChar (i : Fin 16) : Char := hexChars.get i

/-- The high half of a byte is a digit. -/
theorem high_lt (b : UInt8) : b.toNat / 16 < 16 :=
  Nat.div_lt_of_lt_mul b.toNat_lt

/-- The low half of a byte is a digit. -/
theorem low_lt (b : UInt8) : b.toNat % 16 < 16 :=
  Nat.mod_lt b.toNat (Nat.zero_lt_succ 15)

/-- Whether a byte needs escaping. -/
def jsonEscapeTable (b : UInt8) : Bool :=
  decide (b.toNat < 32 ∨ b = 0x22 ∨ b = 0x5c)

/-- What the slow path pushes for a byte. -/
def escapeByte (b : UInt8) : List Char :=
  if b = 0x22 then ['\\', '"']
  else if b = 0x5c then ['\\', '\\']
  else if b = 0x0a then ['\\', 'n']
  else if b = 0x0d then ['\\', 'r']
  else if b = 0x09 then ['\\', 't']
  else if b.toNat ≤ 0x1f then
    ['\\', 'u', '0', '0', hexChar ⟨b.toNat / 16, high_lt b⟩, hexChar ⟨b.toNat % 16, low_lt b⟩]
  else [byteChar b]

/-- Append a string in JSON escapes. -/
def writeJsonEscaped (buf s : List Char) : List Char :=
  if (asBytes s).any jsonEscapeTable then (asBytes s).foldl (fun buf b => buf ++ escapeByte b) buf
  else buf ++ s

/-! ## What is appended -/

/-- What the writer appends. -/
def escaped (s : List Char) : List Char := writeJsonEscaped [] s

/-- What a reader makes of it. -/
def shown (s : List Char) : List Char :=
  if (asBytes s).any jsonEscapeTable then (asBytes s).map byteChar else s

/-- A loop that appends. -/
theorem foldl_append {α : Type*} (f : α → List Char) (l : List α) (buf : List Char) :
    l.foldl (fun buf a => buf ++ f a) buf = buf ++ l.flatMap f := by
  induction l generalizing buf with
  | nil => simp
  | cons a l ih => simp [ih]

/-- The writer only appends. -/
theorem writeJsonEscaped_eq (buf s : List Char) : writeJsonEscaped buf s = buf ++ escaped s := by
  unfold escaped writeJsonEscaped
  split
  · rw [foldl_append, foldl_append, List.nil_append]
  · rfl

/-! ## Bytes and characters -/

/-- The character of a byte has its number. -/
theorem toNat_byteChar (b : UInt8) : (byteChar b).toNat = b.toNat := by
  have hb := b.toNat_lt
  have hvalid : b.toNat.isValidChar := Or.inl (by omega)
  unfold byteChar Char.ofNat
  rw [dif_pos hvalid]
  rfl

/-- An ASCII character is one byte. -/
theorem encode_ascii {c : Char} (h : c.toNat < 0x80) :
    String.utf8EncodeChar c = [UInt8.ofNat c.toNat] := by
  unfold String.utf8EncodeChar
  exact if_pos (Nat.le_of_lt_succ h)

/-- Any other character is several bytes, none of them ASCII. -/
theorem encode_multibyte {c : Char} (h : 0x80 ≤ c.toNat) :
    2 ≤ (String.utf8EncodeChar c).length ∧ ∀ b ∈ String.utf8EncodeChar c, 0x80 ≤ b.toNat := by
  have hc : 0x80 ≤ c.val.toNat := h
  unfold String.utf8EncodeChar
  dsimp only
  split_ifs with h1 h2 h3
  · omega
  all_goals
    simp
    omega

/-- A character has to be escaped exactly if one of its bytes has. -/
theorem encode_any (c : Char) :
    (String.utf8EncodeChar c).any jsonEscapeTable = mustEscape c := by
  have hnum : ∀ d : Char, c = d ↔ c.toNat = d.toNat := fun d => Char.toNat_inj.symm
  unfold mustEscape
  simp only [hnum]
  by_cases hc : c.toNat < 0x80
  · have hbyte : (UInt8.ofNat c.toNat).toNat = c.toNat := by
      rw [UInt8.toNat_ofNat']
      omega
    rw [encode_ascii hc]
    simp only [List.any_cons, List.any_nil, Bool.or_false, jsonEscapeTable, ← UInt8.toNat_inj,
      hbyte]
    refine decide_eq_decide.mpr ?_
    change (c.toNat < 32 ∨ c.toNat = 34 ∨ c.toNat = 92) ↔
      (c.toNat = 34 ∨ c.toNat = 92 ∨ c.toNat < 32)
    omega
  · obtain ⟨-, hbytes⟩ := encode_multibyte (Nat.le_of_not_lt hc)
    have hnone : (String.utf8EncodeChar c).any jsonEscapeTable = false := by
      refine List.any_eq_false.mpr fun b hb => ?_
      have hle := hbytes b hb
      simp only [jsonEscapeTable, ← UInt8.toNat_inj, decide_eq_true_eq]
      change ¬ (b.toNat < 32 ∨ b.toNat = 34 ∨ b.toNat = 92)
      omega
    rw [hnone, eq_comm, decide_eq_false_iff_not]
    change ¬ (c.toNat = 34 ∨ c.toNat = 92 ∨ c.toNat < 32)
    omega

/-- A string needs the slow path exactly if one of its characters has to be escaped. -/
theorem needsEscape_eq (s : List Char) : (asBytes s).any jsonEscapeTable = s.any mustEscape := by
  rw [asBytes, List.any_flatMap]
  exact congrArg s.any (funext encode_any)

/-! ## What a reader makes of it -/

/-- The escape of a control character names it. -/
theorem hexUnit_control : ∀ i : Fin 32, hexUnit '0' '0' (hexChar ⟨i.val / 16, by omega⟩)
    (hexChar ⟨i.val % 16, Nat.mod_lt _ (by decide)⟩) = some i.val := by decide

/-- What the slow path pushes for a byte stands for the byte's character. -/
theorem writes_escapeByte (b : UInt8) : Writes (escapeByte b) [byteChar b] := by
  unfold escapeByte
  split_ifs with h1 h2 h3 h4 h5 h6
  · rw [h1]
    exact Writes.short rfl
  · rw [h2]
    exact Writes.short rfl
  · rw [h3]
    exact Writes.short rfl
  · rw [h4]
    exact Writes.short rfl
  · rw [h5]
    exact Writes.short rfl
  · exact Writes.unit (hexUnit_control ⟨b.toNat, by omega⟩) (by omega)
  · refine Writes.char (decide_eq_false ?_)
    rw [← Char.toNat_inj, ← Char.toNat_inj, toNat_byteChar]
    rw [← UInt8.toNat_inj] at h1 h2
    change ¬ b.toNat = 34 at h1
    change ¬ b.toNat = 92 at h2
    change ¬ (b.toNat = 34 ∨ b.toNat = 92 ∨ b.toNat < 32)
    omega

/-- Inside a string, what the writer appends stands for what is shown. -/
theorem writes_escaped (s : List Char) : Writes (escaped s) (shown s) := by
  unfold escaped writeJsonEscaped shown
  split
  · rw [foldl_append, List.nil_append, List.map_eq_flatMap]
    exact Writes.flatMap fun b _ => writes_escapeByte b
  · rename_i hany
    rw [needsEscape_eq, Bool.not_eq_true, List.any_eq_false] at hany
    have hchars : Writes (s.flatMap fun c => [c]) (s.flatMap fun c => [c]) :=
      Writes.flatMap fun c hc => Writes.char (Bool.eq_false_iff.mpr (hany c hc))
    rwa [List.flatMap_singleton'] at hchars

/-- No character that a byte is escaped to is a control character. -/
theorem escapeByte_plain (b : UInt8) : ∀ c ∈ escapeByte b, 0x20 ≤ c.toNat := by
  have hhex : ∀ i : Fin 16, 0x20 ≤ (hexChar i).toNat := by decide
  unfold escapeByte
  split_ifs with h1 h2 h3 h4 h5 h6
  · simp
  · simp
  · simp
  · simp
  · simp
  · simp only [List.forall_mem_cons, List.not_mem_nil, false_implies, implies_true, and_true]
    exact ⟨by decide, by decide, by decide, by decide, hhex _, hhex _⟩
  · intro c hc
    rw [List.mem_singleton.mp hc, toNat_byteChar]
    omega

/-- No character of it is a control character. -/
theorem escaped_plain (s : List Char) : ∀ c ∈ escaped s, 0x20 ≤ c.toNat := by
  intro c hc
  unfold escaped writeJsonEscaped at hc
  split at hc
  · rw [foldl_append, List.nil_append] at hc
    obtain ⟨b, -, hb⟩ := List.mem_flatMap.mp hc
    exact escapeByte_plain b c hb
  · rename_i hany
    rw [needsEscape_eq, Bool.not_eq_true, List.any_eq_false] at hany
    have hplain := hany c hc
    simp only [mustEscape, decide_eq_true_eq, not_or] at hplain
    omega

/-- ASCII is shown as it is, on both paths. -/
theorem map_byteChar_ascii {s : List Char} (h : ∀ c ∈ s, c.toNat < 0x80) :
    (asBytes s).map byteChar = s := by
  induction s with
  | nil => rfl
  | cons c s ih =>
    obtain ⟨hc, hs⟩ := List.forall_mem_cons.mp h
    have hchar : byteChar (UInt8.ofNat c.toNat) = c := by
      rw [← Char.toNat_inj, toNat_byteChar, UInt8.toNat_ofNat']
      omega
    have htail : (s.flatMap String.utf8EncodeChar).map byteChar = s := ih hs
    rw [asBytes, List.flatMap_cons, encode_ascii hc, List.map_append, List.map_singleton, hchar,
      htail, List.singleton_append]

/-- A string has at least as many bytes as characters. -/
theorem length_le_asBytes (s : List Char) : s.length ≤ (asBytes s).length := by
  induction s with
  | nil => exact Nat.le_refl _
  | cons c s ih =>
    have hpos := Char.utf8Size_pos c
    unfold asBytes at ih ⊢
    rw [List.flatMap_cons, List.length_append, String.length_utf8EncodeChar, List.length_cons]
    omega

/-- It has more bytes than characters if one of them is not ASCII. -/
theorem length_lt_asBytes {s : List Char} {c : Char} (hc : c ∈ s) (h : 0x80 ≤ c.toNat) :
    s.length < (asBytes s).length := by
  obtain ⟨l₁, l₂, rfl⟩ := List.append_of_mem hc
  have h₁ := length_le_asBytes l₁
  have h₂ := length_le_asBytes l₂
  have hlen := (encode_multibyte h).1
  unfold asBytes at h₁ h₂ ⊢
  rw [List.flatMap_append, List.flatMap_cons, List.length_append, List.length_append,
    List.length_append, List.length_cons]
  omega

/-- A string is shown as it is exactly if no character of it has to be escaped,
or every character is ASCII. -/
theorem shown_eq_iff (s : List Char) :
    shown s = s ↔ (∀ c ∈ s, mustEscape c = false) ∨ ∀ c ∈ s, c.toNat < 0x80 := by
  unfold shown
  rw [needsEscape_eq]
  by_cases hany : s.any mustEscape = true
  · rw [if_pos hany]
    obtain ⟨e, he, hesc⟩ := List.any_eq_true.mp hany
    constructor
    · intro heq
      refine Or.inr fun c hc => Nat.lt_of_not_le fun hle => ?_
      have hlen := congrArg List.length heq
      have hlt := length_lt_asBytes hc hle
      rw [List.length_map] at hlen
      omega
    · rintro (hnone | hascii)
      · rw [hnone e he] at hesc
        cases hesc
      · exact map_byteChar_ascii hascii
  · rw [if_neg hany]
    refine iff_of_true rfl (Or.inl fun c hc => ?_)
    exact Bool.eq_false_iff.mpr fun hesc => hany (List.any_eq_true.mpr ⟨c, hc, hesc⟩)

/-- Reading back what the writer appends gives the string back exactly if no
character of it has to be escaped, or every character is ASCII. -/
theorem json_escape_round_trip (buf s rest : List Char) :
    ∃ body, writeJsonEscaped buf s = buf ++ body ∧
      (readString (body ++ '"' :: rest) = some (s, rest) ↔
        (∀ c ∈ s, mustEscape c = false) ∨ ∀ c ∈ s, c.toNat < 0x80) := by
  refine ⟨escaped s, writeJsonEscaped_eq buf s, ?_⟩
  rw [writes_escaped, readString_quote]
  simp only [Option.map_some, List.append_nil, Option.some.injEq, Prod.mk.injEq, and_true]
  exact shown_eq_iff s

/-- An accent next to a quote is read back as two characters. -/
theorem json_escape_garbles : readString (writeJsonEscaped [] ['é', '"'] ++ ['"']) =
    some (['Ã', '©', '"'], []) ∧ ['Ã', '©', '"'] ≠ ['é', '"'] := by
  decide +kernel

end EdenLogger.JsonEscape
