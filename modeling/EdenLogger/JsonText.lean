import Mathlib.Data.List.Basic
import Mathlib.Tactic.SplitIfs

/-!
# JSON texts

A reader for JSON texts as RFC 8259 defines them: literals, numbers, strings
with their escapes, arrays, objects and white space. Members are kept in order,
with duplicates, and a number is kept as it is written. The reader is a
function, so a text has at most one value.

The lemmas behind it say what the reader makes of texts that are written piece
by piece: a string between quotes, a number in front of a delimiter, a list of
members between braces.
-/

namespace EdenLogger.JsonText

/-- JSON values. -/
inductive Json where
  | null
  | bool (b : Bool)
  | number (text : List Char)
  | string (value : List Char)
  | array (elements : List Json)
  | object (members : List (List Char × Json))

/-! ## Strings -/

/-- What a string is made of: characters that stand for themselves or have a
short escape, and UTF-16 code units. -/
inductive Piece where
  | char (c : Char)
  | unit (n : ℕ)
  deriving DecidableEq

/-- The short escapes. -/
def shortEscape (c : Char) : Option Char :=
  if c = '"' then some '"'
  else if c = '\\' then some '\\'
  else if c = '/' then some '/'
  else if c = 'b' then some '\x08'
  else if c = 'f' then some '\x0c'
  else if c = 'n' then some '\n'
  else if c = 'r' then some '\r'
  else if c = 't' then some '\t'
  else none

/-- Value of a hexadecimal digit. -/
def hexValue (c : Char) : Option ℕ :=
  if '0' ≤ c ∧ c ≤ '9' then some (c.toNat - '0'.toNat)
  else if 'a' ≤ c ∧ c ≤ 'f' then some (c.toNat - 'a'.toNat + 10)
  else if 'A' ≤ c ∧ c ≤ 'F' then some (c.toNat - 'A'.toNat + 10)
  else none

/-- Value of four hexadecimal digits. -/
def hexUnit (a b c d : Char) : Option ℕ :=
  (hexValue a).bind fun a => (hexValue b).bind fun b => (hexValue c).bind fun c =>
    (hexValue d).map fun d => ((a * 16 + b) * 16 + c) * 16 + d

/-- Whether a character has to be escaped inside a string. -/
def mustEscape (c : Char) : Bool := decide (c = '"' ∨ c = '\\' ∨ c.toNat < 0x20)

/-- Read a string behind its opening quote. -/
def stringPieces : List Char → Option (List Piece × List Char)
  | [] => none
  | '"' :: rest => some ([], rest)
  | '\\' :: 'u' :: a :: b :: c :: d :: rest =>
    (hexUnit a b c d).bind fun n => (stringPieces rest).map fun p => (.unit n :: p.1, p.2)
  | '\\' :: e :: rest =>
    (shortEscape e).bind fun c => (stringPieces rest).map fun p => (.char c :: p.1, p.2)
  | c :: rest =>
    if c = '\\' ∨ c.toNat < 0x20 then none
    else (stringPieces rest).map fun p => (.char c :: p.1, p.2)

/-- Join surrogate pairs. -/
def joinPieces : List Piece → Option (List Char)
  | [] => some []
  | .char c :: rest => (joinPieces rest).map (c :: ·)
  | .unit n :: rest =>
    if n < 0xd800 ∨ 0xdfff < n then (joinPieces rest).map (Char.ofNat n :: ·)
    else
      match rest with
      | .unit m :: rest =>
        if n < 0xdc00 ∧ 0xdc00 ≤ m ∧ m ≤ 0xdfff then
          (joinPieces rest).map (Char.ofNat (0x10000 + (n - 0xd800) * 0x400 + (m - 0xdc00)) :: ·)
        else none
      | _ => none

/-- Read a string behind its opening quote, as Unicode text. -/
def readString (text : List Char) : Option (List Char × List Char) :=
  (stringPieces text).bind fun p => (joinPieces p.1).map fun value => (value, p.2)

/-! ## Numbers, literals and white space -/

/-- Skip white space. -/
def skipSpace (text : List Char) : List Char :=
  text.dropWhile fun c => decide (c = ' ' ∨ c = '\t' ∨ c = '\n' ∨ c = '\r')

/-- One or more digits. -/
def digits (text : List Char) : Option (List Char × List Char) :=
  match text.takeWhile Char.isDigit with
  | [] => none
  | ds => some (ds, text.dropWhile Char.isDigit)

/-- An integer part: no digit follows a leading zero. -/
def integerPart : List Char → Option (List Char × List Char)
  | [] => none
  | c :: rest => if c = '0' then some (['0'], rest) else digits (c :: rest)

/-- A fraction, if there is one. -/
def fraction : List Char → Option (List Char × List Char)
  | '.' :: rest => (digits rest).map fun p => ('.' :: p.1, p.2)
  | text => some ([], text)

/-- An exponent, if there is one. -/
def exponent : List Char → Option (List Char × List Char)
  | c :: rest =>
    if c = 'e' ∨ c = 'E' then
      match rest with
      | s :: rest =>
        if s = '+' ∨ s = '-' then (digits rest).map fun p => (c :: s :: p.1, p.2)
        else (digits (s :: rest)).map fun p => (c :: p.1, p.2)
      | [] => none
    else some ([], c :: rest)
  | [] => some ([], [])

/-- A number without its sign. -/
def unsigned (text : List Char) : Option (List Char × List Char) :=
  (integerPart text).bind fun i => (fraction i.2).bind fun f => (exponent f.2).map fun e =>
    (i.1 ++ f.1 ++ e.1, e.2)

/-- A number. -/
def readNumber : List Char → Option (List Char × List Char)
  | '-' :: rest => (unsigned rest).map fun p => ('-' :: p.1, p.2)
  | text => unsigned text

/-- A literal or a number. -/
def readScalar (text : List Char) : Option (Json × List Char) :=
  if ['t', 'r', 'u', 'e'].isPrefixOf text then some (.bool true, text.drop 4)
  else if ['f', 'a', 'l', 's', 'e'].isPrefixOf text then some (.bool false, text.drop 5)
  else if ['n', 'u', 'l', 'l'].isPrefixOf text then some (.null, text.drop 4)
  else (readNumber text).map fun p => (.number p.1, p.2)

/-! ## Values -/

mutual

/-- A value. -/
def readValue : ℕ → List Char → Option (Json × List Char)
  | 0, _ => none
  | n + 1, text =>
    match text with
    | '"' :: rest => (readString rest).map fun p => (.string p.1, p.2)
    | '{' :: rest =>
      match skipSpace rest with
      | '}' :: rest => some (.object [], rest)
      | text => (readMembers n text).map fun p => (.object p.1, p.2)
    | '[' :: rest =>
      match skipSpace rest with
      | ']' :: rest => some (.array [], rest)
      | text => (readElements n text).map fun p => (.array p.1, p.2)
    | text => readScalar text

/-- The members of an object, from the first name on. -/
def readMembers : ℕ → List Char → Option (List (List Char × Json) × List Char)
  | 0, _ => none
  | n + 1, text =>
    match text with
    | '"' :: rest =>
      (readString rest).bind fun name =>
        match skipSpace name.2 with
        | ':' :: rest =>
          (readValue n (skipSpace rest)).bind fun value =>
            match skipSpace value.2 with
            | ',' :: rest =>
              (readMembers n (skipSpace rest)).map fun p => ((name.1, value.1) :: p.1, p.2)
            | '}' :: rest => some ([(name.1, value.1)], rest)
            | _ => none
        | _ => none
    | _ => none

/-- The elements of an array, from the first value on. -/
def readElements : ℕ → List Char → Option (List Json × List Char)
  | 0, _ => none
  | n + 1, text =>
    (readValue n text).bind fun value =>
      match skipSpace value.2 with
      | ',' :: rest => (readElements n (skipSpace rest)).map fun p => (value.1 :: p.1, p.2)
      | ']' :: rest => some ([value.1], rest)
      | _ => none

end

/-- Read a JSON text. No value nests deeper than the text is long. -/
def parse (text : List Char) : Option Json :=
  (readValue (2 * text.length + 1) (skipSpace text)).bind fun p =>
    if skipSpace p.2 = [] then some p.1 else none

/-! ## Written strings -/

/-- Inside a string, a text stands for the characters of a value. -/
def Writes (body value : List Char) : Prop :=
  ∀ rest, readString (body ++ rest) = (readString rest).map fun p => (value ++ p.1, p.2)

/-- A closing quote ends a string. -/
@[simp] theorem readString_quote (rest : List Char) : readString ('"' :: rest) = some ([], rest) :=
  rfl

/-- Nothing stands for nothing. -/
theorem Writes.nil : Writes [] [] := by
  intro rest
  exact Option.map_id'.symm

/-- Texts inside a string are put together. -/
theorem Writes.append {body body' value value' : List Char} (h : Writes body value)
    (h' : Writes body' value') : Writes (body ++ body') (value ++ value') := by
  intro rest
  rw [List.append_assoc, h, h', Option.map_map]
  simp only [Function.comp_def, List.append_assoc]

/-- A list of texts. -/
theorem Writes.flatMap {α : Type*} {f g : α → List Char} {l : List α}
    (h : ∀ a ∈ l, Writes (f a) (g a)) : Writes (l.flatMap f) (l.flatMap g) := by
  induction l with
  | nil => exact Writes.nil
  | cons a l ih =>
    rw [List.flatMap_cons, List.flatMap_cons]
    exact (h a List.mem_cons_self).append (ih fun b hb => h b (List.mem_cons_of_mem a hb))

/-- A character of the value in front of the rest. -/
theorem readString_of_piece {text rest : List Char} {p : Piece} {c : Char}
    (h : stringPieces text = (stringPieces rest).map fun q => (p :: q.1, q.2))
    (hp : ∀ ps, joinPieces (p :: ps) = (joinPieces ps).map (c :: ·)) :
    readString text = (readString rest).map fun q => ([c] ++ q.1, q.2) := by
  unfold readString
  rw [h]
  cases stringPieces rest with
  | none => rfl
  | some q =>
    simp only [Option.map_some, Option.bind_some, hp, Option.map_map]
    rfl

/-- A character that needs no escape stands for itself. -/
theorem Writes.char {c : Char} (h : mustEscape c = false) : Writes [c] [c] := by
  obtain ⟨hquote, hslash, hcontrol⟩ := by simpa [mustEscape, not_or] using h
  intro rest
  refine readString_of_piece (p := .char c) ?_ fun ps => rfl
  rw [List.singleton_append, stringPieces]
  · rw [if_neg fun hc => hc.elim hslash (Nat.not_lt.mpr hcontrol)]
  · exact hquote
  · exact fun _ _ _ _ _ hc => absurd hc hslash
  · exact fun _ _ hc => absurd hc hslash

/-- A short escape. -/
theorem Writes.short {e c : Char} (h : shortEscape e = some c) : Writes ['\\', e] [c] := by
  intro rest
  refine readString_of_piece (p := .char c) ?_ fun ps => rfl
  rw [List.cons_append, List.singleton_append, stringPieces]
  · rw [h]
    rfl
  · intro _ _ _ _ _ hu
    subst hu
    cases h

/-- A code unit outside the surrogates. -/
theorem Writes.unit {a b c d : Char} {n : ℕ} (h : hexUnit a b c d = some n)
    (hn : n < 0xd800) : Writes ['\\', 'u', a, b, c, d] [Char.ofNat n] := by
  intro rest
  refine readString_of_piece (p := .unit n) ?_ fun ps => ?_
  · show (hexUnit a b c d).bind _ = _
    rw [h]
    rfl
  · cases ps with
    | nil => simp only [joinPieces, hn, true_or, if_true]
    | cons p ps => cases p <;> simp only [joinPieces, hn, true_or, if_true]

/-! ## Written numbers -/

/-- Decimal digits of a number. -/
def decimal (n : ℕ) : List Char := Nat.toDigits 10 n

/-- A text in front of a delimiter of an object. -/
def Delimited (rest : List Char) : Prop := ∃ tail, rest = ',' :: tail ∨ rest = '}' :: tail

/-- No number goes on at a delimiter. -/
theorem Delimited.head {rest : List Char} (h : Delimited rest) :
    rest.takeWhile Char.isDigit = [] ∧ rest.dropWhile Char.isDigit = rest ∧
      fraction rest = some ([], rest) ∧ exponent rest = some ([], rest) ∧
        skipSpace rest = rest := by
  obtain ⟨tail, rfl | rfl⟩ := h <;> exact ⟨rfl, rfl, rfl, rfl, rfl⟩

/-- Decimal digits are digits. -/
theorem isDigit_decimal {n : ℕ} {c : Char} (h : c ∈ decimal n) : c.isDigit = true :=
  Nat.isDigit_of_mem_toDigits (by decide) (by decide) h

/-- Only zero begins with a zero. -/
theorem decimal_head {n : ℕ} (h : n ≠ 0) : ∃ c ds, decimal n = c :: ds ∧ c ≠ '0' := by
  induction n using Nat.strongRecOn with
  | _ n ih =>
    unfold decimal at ih ⊢
    by_cases hlt : n < 10
    · have hdigit : ∀ k < 10, k ≠ 0 → Nat.digitChar k ≠ '0' := by decide
      exact ⟨_, _, Nat.toDigits_of_lt_base hlt, hdigit n hlt h⟩
    · have hsplit := Nat.toDigits_append_toDigits (b := 10) (n := n / 10) (d := n % 10)
        (by decide) (by omega) (Nat.mod_lt _ (by decide))
      rw [Nat.div_add_mod] at hsplit
      obtain ⟨c, ds, hcons, hc⟩ := ih (n / 10) (by omega) (by omega)
      exact ⟨c, _, by rw [← hsplit, hcons, List.cons_append], hc⟩

/-- The reader takes a decimal number as a whole. -/
theorem unsigned_decimal (n : ℕ) {rest : List Char} (h : Delimited rest) :
    unsigned (decimal n ++ rest) = some (decimal n, rest) := by
  obtain ⟨htake, hdrop, hfraction, hexponent, -⟩ := h.head
  have hinteger : integerPart (decimal n ++ rest) = some (decimal n, rest) := by
    by_cases hzero : n = 0
    · subst hzero
      rfl
    · obtain ⟨c, ds, hcons, hc⟩ := decimal_head hzero
      have hdigits : ∀ d ∈ c :: ds, d.isDigit = true := fun d hd =>
        isDigit_decimal (hcons ▸ hd)
      rw [hcons, List.cons_append, integerPart, if_neg hc, digits, ← List.cons_append,
        List.takeWhile_append_of_pos hdigits, List.dropWhile_append_of_pos hdigits, htake, hdrop,
        List.append_nil]
  simp only [unsigned, hinteger, Option.bind_some, hfraction, hexponent, Option.map_some,
    List.append_nil]

/-! ## Written values -/

/-- In front of a delimiter, a text is read as a value. -/
def ReadsValue (text : List Char) (value : Json) : Prop :=
  ∀ n rest, Delimited rest → readValue (n + 1) (skipSpace (text ++ rest)) = some (value, rest)

/-- A string between quotes. -/
theorem ReadsValue.string {body value : List Char} (h : Writes body value) :
    ReadsValue ('"' :: body ++ ['"']) (.string value) := by
  intro n rest _
  have hspace : skipSpace ('"' :: body ++ ['"'] ++ rest) = '"' :: (body ++ '"' :: rest) := by
    rw [List.append_assoc]
    rfl
  rw [hspace, readValue, h, readString_quote]
  simp only [Option.map_some, List.append_nil]

/-- A literal. -/
theorem ReadsValue.bool (b : Bool) :
    ReadsValue (if b then ['t', 'r', 'u', 'e'] else ['f', 'a', 'l', 's', 'e']) (.bool b) := by
  intro n rest _
  cases b <;> rfl

/-- Characters that begin no number. -/
def otherHeads : List Char := [' ', '\t', '\n', '\r', '"', '{', '[', 't', 'f', 'n']

/-- A text that begins with a digit or a sign is read as a number. -/
theorem readValue_number {c : Char} (h : c.isDigit = true ∨ c = '-') (n : ℕ) (text : List Char) :
    readValue (n + 1) (skipSpace (c :: text)) =
      (readNumber (c :: text)).map fun p => (.number p.1, p.2) := by
  have hother : ∀ d ∈ otherHeads, ¬ (d.isDigit = true ∨ d = '-') := by
    simp [otherHeads]
  have hne : ∀ d ∈ otherHeads, c ≠ d := fun d hd hc => hother d hd (hc ▸ h)
  simp only [otherHeads, List.forall_mem_cons] at hne
  obtain ⟨hspace, htab, hnewline, hreturn, hquote, hbrace, hbracket, ht, hf, hn, -⟩ := hne
  have hskip : skipSpace (c :: text) = c :: text := by
    simp only [skipSpace, List.dropWhile_cons, hspace, htab, hnewline, hreturn, or_self,
      decide_false, Bool.false_eq_true, if_false]
  rw [hskip, readValue]
  · simp only [readScalar, List.isPrefixOf_cons_cons, beq_eq_false_iff_ne.mpr ht.symm,
      beq_eq_false_iff_ne.mpr hf.symm, beq_eq_false_iff_ne.mpr hn.symm, Bool.false_and,
      Bool.false_eq_true, if_false]
  · exact fun _ hc => hquote (List.cons.inj hc).1
  · exact fun _ hc => hbrace (List.cons.inj hc).1
  · exact fun _ hc => hbracket (List.cons.inj hc).1

/-- A decimal number. -/
theorem ReadsValue.decimal (m : ℕ) :
    ReadsValue (JsonText.decimal m) (.number (JsonText.decimal m)) := by
  intro n rest hrest
  have hread := unsigned_decimal m hrest
  cases hm : JsonText.decimal m with
  | nil => exact absurd hm (Nat.toDigits_ne_nil)
  | cons c ds =>
    have hc : c.isDigit = true := isDigit_decimal (hm ▸ List.mem_cons_self)
    have hsign : c ≠ '-' := fun h => by
      rw [h] at hc
      cases hc
    rw [hm] at hread
    rw [List.cons_append, readValue_number (Or.inl hc), readNumber]
    · rw [← List.cons_append, hread]
      rfl
    · exact fun _ h => hsign (List.cons.inj h).1

/-- A negative number. -/
theorem ReadsValue.negative (m : ℕ) :
    ReadsValue ('-' :: JsonText.decimal m) (.number ('-' :: JsonText.decimal m)) := by
  intro n rest hrest
  rw [List.cons_append, readValue_number (Or.inr rfl), readNumber, unsigned_decimal m hrest]
  rfl

/-! ## Written objects -/

/-- A member of an object as it is written. -/
structure Member where
  /-- Text of the name, between the quotes. -/
  nameText : List Char
  /-- The name. -/
  name : List Char
  /-- Text of the value. -/
  valueText : List Char
  /-- The value. -/
  value : Json
  /-- The text of the name stands for the name. -/
  writes : Writes nameText name
  /-- The text of the value stands for the value. -/
  reads : ReadsValue valueText value

/-- A member is a name, a colon and a value. -/
def Member.text (m : Member) : List Char := '"' :: m.nameText ++ '"' :: ':' :: m.valueText

/-- What it stands for. -/
def Member.pair (m : Member) : List Char × Json := (m.name, m.value)

/-- The members behind the first one. -/
def moreMembers (ms : List Member) : List Char := ms.flatMap fun m => ',' :: m.text

/-- An object with at least one member. -/
def objectText (m : Member) (ms : List Member) : List Char :=
  '{' :: m.text ++ moreMembers ms ++ ['}']

/-- The reader takes one member, and goes on at a comma, or ends at a brace. -/
theorem readMembers_member (m : Member) (n : ℕ) (rest : List Char) :
    readMembers (n + 2) (m.text ++ ',' :: rest) =
        (readMembers (n + 1) (skipSpace rest)).map (fun p => (m.pair :: p.1, p.2)) ∧
      readMembers (n + 2) (m.text ++ '}' :: rest) = some ([m.pair], rest) := by
  have htext : ∀ t, m.text ++ t = '"' :: (m.nameText ++ '"' :: ':' :: (m.valueText ++ t)) := by
    intro t
    simp only [Member.text, List.cons_append, List.append_assoc]
  have hname : ∀ t, readString (m.nameText ++ '"' :: t) = some (m.name, t) := by
    intro t
    rw [m.writes, readString_quote, Option.map_some, List.append_nil]
  have hcolon : ∀ t, skipSpace (':' :: t) = ':' :: t := fun _ => rfl
  constructor
  · rw [htext, readMembers, hname]
    simp only [Option.bind_some, hcolon, m.reads n _ ⟨rest, Or.inl rfl⟩]
    rfl
  · rw [htext, readMembers, hname]
    simp only [Option.bind_some, hcolon, m.reads n _ ⟨rest, Or.inr rfl⟩]
    rfl

/-- A name begins with no space. -/
theorem skipSpace_member (m : Member) (rest : List Char) :
    skipSpace (m.text ++ rest) = m.text ++ rest := rfl

/-- The reader takes the members one by one. -/
theorem readMembers_text (m : Member) (ms : List Member) (n : ℕ) (hn : ms.length + 2 ≤ n)
    (rest : List Char) :
    readMembers n (m.text ++ (moreMembers ms ++ '}' :: rest)) =
      some ((m :: ms).map Member.pair, rest) := by
  induction ms generalizing m n with
  | nil =>
    obtain ⟨k, rfl⟩ := Nat.exists_eq_add_of_le' hn
    exact (readMembers_member m k rest).2
  | cons m' ms ih =>
    obtain ⟨k, rfl⟩ := Nat.exists_eq_add_of_le' hn
    have hmore := ih m' (k + (ms.length + 1) + 1) (by omega)
    have hcons : moreMembers (m' :: ms) ++ '}' :: rest =
        ',' :: (m'.text ++ (moreMembers ms ++ '}' :: rest)) := by
      simp only [moreMembers, List.flatMap_cons, List.cons_append, List.append_assoc]
    rw [List.length_cons, ← Nat.add_assoc, hcons, (readMembers_member m _ _).1, skipSpace_member,
      hmore]
    rfl

/-- Every member has a character of its own. -/
theorem length_moreMembers (ms : List Member) : ms.length ≤ (moreMembers ms).length := by
  induction ms with
  | nil => exact Nat.le_refl _
  | cons m ms ih =>
    rw [moreMembers, List.flatMap_cons, List.length_append]
    simp only [List.length_cons]
    unfold moreMembers at ih
    omega

/-- An object with its members is one JSON text. -/
theorem parse_objectText (m : Member) (ms : List Member) :
    parse (objectText m ms) = some (.object ((m :: ms).map Member.pair)) := by
  have hlen : ms.length + 2 ≤ 2 * (objectText m ms).length := by
    have hmore := length_moreMembers ms
    simp only [objectText, List.length_append, List.length_cons, List.length_nil]
    omega
  have hmembers := readMembers_text m ms _ hlen []
  have hskip : skipSpace (objectText m ms) = '{' :: (m.text ++ (moreMembers ms ++ ['}'])) := by
    rw [objectText, List.append_assoc]
    rfl
  have hvalue : readValue (2 * (objectText m ms).length + 1) (skipSpace (objectText m ms)) =
      some (.object ((m :: ms).map Member.pair), []) := by
    rw [hskip, readValue, skipSpace_member]
    -- the first member begins with a quote, so the object is not empty
    change Option.map _ (readMembers _ (m.text ++ (moreMembers ms ++ ['}']))) = _
    rw [hmembers]
    rfl
  rw [parse, hvalue]
  rfl

end EdenLogger.JsonText
