import EdenLogger.RightBias
import Mathlib.Data.List.Infix

/-!
# Grammar of the logging macros

A macro's arguments are a context, a message and `name = expr` items. The
parser takes another item while a comma follows, so a comma that ends the
arguments asks for an item that is not there. The parsers of expressions and
identifiers are those of the parsing library.
-/

namespace EdenLogger.MacroGrammar

open RightBias

/-- What the macros use of the parsing library, over tokens `T`, identifiers `I`
and expressions `E`. -/
structure Syn (T I E : Type) where
  /-- The token is a comma. -/
  comma : T → Bool
  /-- The token is an equals sign. -/
  eq : T → Bool
  /-- The identifier that the token is. -/
  ident : T → Option I
  /-- An identifier's text. -/
  text : I → String
  /-- The expression at the front, and what follows it. -/
  expr : List T → Option (E × List T)
  /-- Parsing an expression only moves forward. -/
  expr_suffix : ∀ {tokens e rest}, expr tokens = some (e, rest) → rest <:+ tokens

/-- `key = <expr>`. -/
structure Kv (T I E : Type) where
  key : I
  eq : T
  val : E

/-- An item behind the message. -/
inductive RestItem (T I E : Type) where
  | audience (comma : T) (audienceKw : I) (eq : T) (expr : E)
  | kv (comma : T) (kv : Kv T I E)

/-- Arguments of a logging macro. -/
structure LogArgs (T I E : Type) where
  ctx : E
  comma1 : T
  msg : E
  rest : List (RestItem T I E)

variable {T I E : Type} (s : Syn T I E)

/-! ## The parser -/

/-- Take a token of a kind. -/
def parseToken (kind : T → Bool) : List T → Option (T × List T)
  | t :: tokens => if kind t then some (t, tokens) else none
  | [] => none

/-- Take an identifier. -/
def parseIdent : List T → Option (I × List T)
  | t :: tokens => (s.ident t).map fun i => (i, tokens)
  | [] => none

/-- Whether a comma comes next. -/
def peekComma (tokens : List T) : Bool := tokens.head?.any s.comma

/-- Whether an identifier comes next. -/
def peekIdent (tokens : List T) : Bool := tokens.head?.any fun t => (s.ident t).isSome

/-- Whether an equals sign comes second. -/
def peek2Eq (tokens : List T) : Bool := tokens.tail.head?.any s.eq

/-- `Kv::parse`. -/
def Kv.parse (tokens : List T) : Option (Kv T I E × List T) := do
  let (key, tokens) ← parseIdent s tokens
  let (eq, tokens) ← parseToken s.eq tokens
  let (val, tokens) ← s.expr tokens
  some (⟨key, eq, val⟩, tokens)

/-- The body of the loop of `LogArgs::parse`, at a comma. -/
def parseItem (tokens : List T) : Option (RestItem T I E × List T) := do
  let (comma, tokens) ← parseToken s.comma tokens
  if peekIdent s tokens && peek2Eq s tokens then
    let (ident, tokens) ← parseIdent s tokens
    if s.text ident = "audience" then
      let (eq, tokens) ← parseToken s.eq tokens
      let (expr, tokens) ← s.expr tokens
      some (.audience comma ident eq expr, tokens)
    else
      -- treat as key=value
      let (eq, tokens) ← parseToken s.eq tokens
      let (val, tokens) ← s.expr tokens
      some (.kv comma ⟨ident, eq, val⟩, tokens)
  else
    -- fallback: key=value
    let (kv, tokens) ← Kv.parse s tokens
    some (.kv comma kv, tokens)

/-- The loop of `LogArgs::parse`. Every round takes a token, so the tokens
bound the rounds. -/
def parseRest : ℕ → List T → List (RestItem T I E) → Option (List (RestItem T I E) × List T)
  | 0, _, _ => none
  | fuel + 1, tokens, rest =>
    if peekComma s tokens then
      (parseItem s tokens).bind fun (item, tokens) => parseRest fuel tokens (rest ++ [item])
    else some (rest, tokens)

/-- `LogArgs::parse`. -/
def LogArgs.parse (tokens : List T) : Option (LogArgs T I E × List T) := do
  let (ctx, tokens) ← s.expr tokens
  let (comma1, tokens) ← parseToken s.comma tokens
  let (msg, tokens) ← s.expr tokens
  let (rest, tokens) ← parseRest s (tokens.length + 1) tokens []
  some (⟨ctx, comma1, msg, rest⟩, tokens)

/-- `parse_macro_input!`: all tokens must be taken. -/
def parseMacroInput (tokens : List T) : Option (LogArgs T I E) :=
  match LogArgs.parse s tokens with
  | some (args, []) => some args
  | _ => none

/-- The body of the loop of `split_args`. -/
def splitStep (split : Option E × List (Kv T I E)) (item : RestItem T I E) :
    Option E × List (Kv T I E) :=
  match item with
  | .audience _ _ _ expr => (some expr, split.2)
  | .kv _ kv => (split.1, split.2 ++ [kv])

/-- `split_args`: context, message, audience and pairs. -/
def splitArgs (args : LogArgs T I E) : E × E × Option E × List (Kv T I E) :=
  let split := args.rest.foldl splitStep (none, [])
  (args.ctx, args.msg, split.1, split.2)

/-! ## The documented grammar -/

/-- `, name = expr`. -/
structure Item (T I E : Type) where
  comma : T
  kv : Kv T I E

/-- The tokens begin with an item. -/
def ReadsItem (tokens : List T) (item : Item T I E) (rest : List T) : Prop :=
  ∃ name value, tokens = item.comma :: name :: item.kv.eq :: value ∧ s.comma item.comma = true ∧
    s.ident name = some item.kv.key ∧ s.eq item.kv.eq = true ∧
    s.expr value = some (item.kv.val, rest)

/-- The tokens begin with any number of items. -/
inductive ReadsItems : List T → List (Item T I E) → List T → Prop where
  | nil {tokens : List T} : ReadsItems tokens [] tokens
  | cons {tokens rest rest' : List T} {item : Item T I E} {items : List (Item T I E)} :
    ReadsItem s tokens item rest → ReadsItems rest items rest' →
      ReadsItems tokens (item :: items) rest'

/-- A call as documented. -/
structure DocumentedCall (T I E : Type) where
  ctx : E
  comma : T
  msg : E
  items : List (Item T I E)

/-- The tokens are `ctx, msg` and items, with a trailing comma or without. -/
def Documented (tokens : List T) (call : DocumentedCall T I E) (trailing : Bool) : Prop :=
  ∃ rest rest' tail, s.expr tokens = some (call.ctx, call.comma :: rest) ∧
    s.comma call.comma = true ∧ s.expr rest = some (call.msg, rest') ∧
    ReadsItems s rest' call.items tail ∧
    if trailing then ∃ last, s.comma last = true ∧ tail = [last] else tail = []

/-- What an item says of the audience. -/
def audienceOf (item : Item T I E) : Option E :=
  if s.text item.kv.key = "audience" then some item.kv.val else none

/-- The arguments are split as documented: the audience is that of the last
item of the name, the pairs are the other items in order. -/
structure SplitsAs (args : LogArgs T I E) (call : DocumentedCall T I E) : Prop where
  ctx : (splitArgs args).1 = call.ctx
  msg : (splitArgs args).2.1 = call.msg
  audience : ∀ e, (splitArgs args).2.2.1 = some e ↔ LastSets (audienceOf s) call.items e
  pairs : (splitArgs args).2.2.2 =
    (call.items.filter fun item => s.text item.kv.key ≠ "audience").map Item.kv

/-! ## One item -/

/-- A token is taken if it is next and of the kind. -/
theorem parseToken_eq_some {kind : T → Bool} {tokens rest : List T} {t : T} :
    parseToken kind tokens = some (t, rest) ↔ tokens = t :: rest ∧ kind t = true := by
  cases tokens with
  | nil => simp [parseToken]
  | cons t' tokens =>
    simp only [parseToken]
    by_cases hkind : kind t' = true
    · simp only [hkind, if_true, Option.some.injEq, Prod.mk.injEq, List.cons.injEq]
      constructor
      · rintro ⟨rfl, rfl⟩
        exact ⟨⟨rfl, rfl⟩, hkind⟩
      · exact fun h => h.1
    · rw [if_neg hkind]
      refine iff_of_false (fun h => nomatch h) ?_
      rintro ⟨hcons, ht⟩
      cases hcons
      exact hkind ht

/-- An identifier is taken if it is next. -/
theorem parseIdent_eq_some {tokens rest : List T} {i : I} :
    parseIdent s tokens = some (i, rest) ↔ ∃ t, tokens = t :: rest ∧ s.ident t = some i := by
  cases tokens with
  | nil => simp [parseIdent]
  | cons t tokens =>
    simp only [parseIdent, Option.map_eq_some_iff, Prod.mk.injEq]
    constructor
    · rintro ⟨i', hi, rfl, rfl⟩
      exact ⟨t, rfl, hi⟩
    · rintro ⟨t', hcons, hi⟩
      cases hcons
      exact ⟨i, hi, rfl, rfl⟩

/-- Behind a name, an equals sign and an expression are taken. -/
theorem value_eq_some {α : Type} (make : T → E → α) {tokens rest : List T} {a : α} :
    ((parseToken s.eq tokens).bind fun eq => (s.expr eq.2).bind fun val =>
      some (make eq.1 val.1, val.2)) = some (a, rest) ↔
      ∃ eq value val, tokens = eq :: value ∧ s.eq eq = true ∧ s.expr value = some (val, rest) ∧
        a = make eq val := by
  simp only [Option.bind_eq_some_iff, Prod.exists, parseToken_eq_some, Option.some.injEq,
    Prod.mk.injEq]
  constructor
  · rintro ⟨eq, value, ⟨rfl, heq⟩, val, _, hval, rfl, rfl⟩
    exact ⟨eq, value, val, rfl, heq, hval, rfl⟩
  · rintro ⟨eq, value, val, rfl, heq, hval, rfl⟩
    exact ⟨eq, value, ⟨rfl, heq⟩, val, _, hval, rfl, rfl⟩

/-- A pair is taken if identifier, equals sign and expression are next. -/
theorem Kv.parse_eq_some {tokens rest : List T} {kv : Kv T I E} :
    Kv.parse s tokens = some (kv, rest) ↔ ∃ name value, tokens = name :: kv.eq :: value ∧
      s.ident name = some kv.key ∧ s.eq kv.eq = true ∧ s.expr value = some (kv.val, rest) := by
  simp only [Kv.parse, Option.bind_eq_bind, Option.bind_eq_some_iff, Prod.exists,
    parseIdent_eq_some, parseToken_eq_some, Option.some.injEq, Prod.mk.injEq]
  constructor
  · rintro ⟨key, _, ⟨name, rfl, hname⟩, eq, value, ⟨rfl, heq⟩, val, _, hval, rfl, rfl⟩
    exact ⟨name, value, rfl, hname, heq, hval⟩
  · rintro ⟨name, value, rfl, hname, heq, hval⟩
    exact ⟨_, _, ⟨name, rfl, hname⟩, _, _, ⟨rfl, heq⟩, _, _, hval, rfl, rfl⟩

/-- How the loop sorts an item. -/
def classify (item : Item T I E) : RestItem T I E :=
  if s.text item.kv.key = "audience" then
    .audience item.comma item.kv.key item.kv.eq item.kv.val
  else .kv item.comma item.kv

/-- At an item the lookahead succeeds. -/
theorem lookahead {name eq : T} {key : I} {value : List T} (hname : s.ident name = some key)
    (heq : s.eq eq = true) :
    (peekIdent s (name :: eq :: value) && peek2Eq s (name :: eq :: value)) = true := by
  simp [peekIdent, peek2Eq, hname, heq]

/-- The loop's body takes exactly the documented items: where the lookahead
fails, the fallback fails too. -/
theorem parseItem_eq_some {tokens rest : List T} {r : RestItem T I E} :
    parseItem s tokens = some (r, rest) ↔
      ∃ item, r = classify s item ∧ ReadsItem s tokens item rest := by
  simp only [parseItem, Option.bind_eq_bind, Option.bind_eq_some_iff, Prod.exists,
    parseToken_eq_some]
  constructor
  · rintro ⟨comma, tokens', ⟨rfl, hcomma⟩, h⟩
    split at h
    · simp only [Option.bind_eq_some_iff, Prod.exists, parseIdent_eq_some] at h
      obtain ⟨key, _, ⟨name, rfl, hname⟩, h⟩ := h
      split at h
      · rename_i haudience
        obtain ⟨eq, value, val, rfl, heq, hval, rfl⟩ :=
          (value_eq_some s (RestItem.audience comma key)).mp h
        exact ⟨⟨comma, ⟨key, eq, val⟩⟩, (if_pos haudience).symm, name, value, rfl, hcomma, hname,
          heq, hval⟩
      · rename_i hother
        obtain ⟨eq, value, val, rfl, heq, hval, rfl⟩ :=
          (value_eq_some s fun eq val => RestItem.kv comma ⟨key, eq, val⟩).mp h
        exact ⟨⟨comma, ⟨key, eq, val⟩⟩, (if_neg hother).symm, name, value, rfl, hcomma, hname,
          heq, hval⟩
    · rename_i hpeek
      simp only [Option.bind_eq_some_iff, Prod.exists, Kv.parse_eq_some] at h
      obtain ⟨kv, _, ⟨name, value, rfl, hname, heq, -⟩, -⟩ := h
      exact absurd (lookahead s hname heq) hpeek
  · rintro ⟨item, rfl, name, value, rfl, hcomma, hname, heq, hval⟩
    refine ⟨item.comma, _, ⟨rfl, hcomma⟩, ?_⟩
    rw [if_pos (lookahead s hname heq)]
    simp only [Option.bind_eq_some_iff, Prod.exists, parseIdent_eq_some]
    refine ⟨item.kv.key, _, ⟨name, rfl, hname⟩, ?_⟩
    unfold classify
    split
    · exact (value_eq_some s (RestItem.audience item.comma item.kv.key)).mpr
        ⟨_, _, _, rfl, heq, hval, rfl⟩
    · exact (value_eq_some s fun eq val => RestItem.kv item.comma ⟨item.kv.key, eq, val⟩).mpr
        ⟨_, _, _, rfl, heq, hval, rfl⟩

/-- An item takes a token at least. -/
theorem ReadsItem.length_lt {s : Syn T I E} {tokens rest : List T} {item : Item T I E}
    (h : ReadsItem s tokens item rest) : rest.length < tokens.length := by
  obtain ⟨name, value, rfl, -, -, -, hval⟩ := h
  have hle := (s.expr_suffix hval).length_le
  simp only [List.length_cons]
  omega

/-- An item begins with a comma. -/
theorem ReadsItem.peek {s : Syn T I E} {tokens rest : List T} {item : Item T I E}
    (h : ReadsItem s tokens item rest) : peekComma s tokens = true := by
  obtain ⟨name, value, rfl, hcomma, -⟩ := h
  exact hcomma

/-- Tokens begin with one item at most. -/
theorem ReadsItem.unique {s : Syn T I E} {tokens rest rest' : List T} {item item' : Item T I E}
    (h : ReadsItem s tokens item rest) (h' : ReadsItem s tokens item' rest') :
    item = item' ∧ rest = rest' := by
  obtain ⟨comma, key, eq, val⟩ := item
  obtain ⟨comma', key', eq', val'⟩ := item'
  obtain ⟨name, value, rfl, -, hname, -, hval⟩ := h
  obtain ⟨name', value', htokens, -, hname', -, hval'⟩ := h'
  dsimp only at htokens hname hname' hval hval'
  cases htokens
  cases hname.symm.trans hname'
  cases hval.symm.trans hval'
  exact ⟨rfl, rfl⟩

/-! ## The loop -/

/-- Without a comma the loop ends. -/
theorem parseRest_stop {tokens : List T} (h : peekComma s tokens = false) (fuel : ℕ)
    (rest : List (RestItem T I E)) : parseRest s (fuel + 1) tokens rest = some (rest, tokens) := by
  rw [parseRest, h]
  rfl

/-- At an item the loop goes on behind it. -/
theorem parseRest_item {tokens tokens' : List T} {item : Item T I E}
    (h : ReadsItem s tokens item tokens') (fuel : ℕ) (rest : List (RestItem T I E)) :
    parseRest s (fuel + 1) tokens rest = parseRest s fuel tokens' (rest ++ [classify s item]) := by
  rw [parseRest, if_pos h.peek, (parseItem_eq_some s).mpr ⟨item, rfl, h⟩]
  rfl

/-- Rounds beyond the number of tokens make no difference: the loop always
ends by itself. -/
theorem parseRest_fuel {fuel fuel' : ℕ} {tokens : List T} (h : tokens.length < fuel)
    (h' : tokens.length < fuel') (rest : List (RestItem T I E)) :
    parseRest s fuel tokens rest = parseRest s fuel' tokens rest := by
  induction fuel generalizing fuel' tokens rest with
  | zero => omega
  | succ fuel ih =>
    obtain ⟨fuel', rfl⟩ := Nat.exists_eq_add_of_le' (Nat.one_le_of_lt h')
    rw [parseRest, parseRest]
    split
    · cases hitem : parseItem s tokens with
      | none => rfl
      | some p =>
        obtain ⟨r, tokens'⟩ := p
        obtain ⟨item, -, hreads⟩ := (parseItem_eq_some s).mp hitem
        have hlt := hreads.length_lt
        exact ih (by omega) (by omega) _
    · rfl

/-- What the loop takes are items, up to where no comma follows. -/
theorem parseRest_sound {fuel : ℕ} {tokens tail : List T} {rest rest' : List (RestItem T I E)}
    (h : parseRest s fuel tokens rest = some (rest', tail)) :
    ∃ items, ReadsItems s tokens items tail ∧ rest' = rest ++ items.map (classify s) := by
  induction fuel generalizing tokens rest with
  | zero => cases h
  | succ fuel ih =>
    by_cases hpeek : peekComma s tokens = true
    · rw [parseRest, if_pos hpeek, Option.bind_eq_some_iff] at h
      obtain ⟨⟨r, tokens'⟩, hitem, h⟩ := h
      obtain ⟨item, rfl, hreads⟩ := (parseItem_eq_some s).mp hitem
      obtain ⟨items, hitems, rfl⟩ := ih h
      refine ⟨item :: items, .cons hreads hitems, ?_⟩
      rw [List.map_cons, List.append_assoc, List.singleton_append]
    · rw [parseRest_stop s (Bool.eq_false_iff.mpr hpeek)] at h
      cases h
      exact ⟨[], .nil, (List.append_nil _).symm⟩

/-- All items up to where no comma follows are taken. -/
theorem parseRest_complete {fuel : ℕ} {tokens tail : List T} {items : List (Item T I E)}
    (h : ReadsItems s tokens items tail) (htail : peekComma s tail = false)
    (hfuel : tokens.length < fuel) (rest : List (RestItem T I E)) :
    parseRest s fuel tokens rest = some (rest ++ items.map (classify s), tail) := by
  induction h generalizing fuel rest with
  | nil =>
    obtain ⟨fuel, rfl⟩ := Nat.exists_eq_add_of_le' (Nat.one_le_of_lt hfuel)
    rw [parseRest_stop s htail, List.map_nil, List.append_nil]
  | cons hreads _ ih =>
    obtain ⟨fuel, rfl⟩ := Nat.exists_eq_add_of_le' (Nat.one_le_of_lt hfuel)
    have hlt := hreads.length_lt
    rw [parseRest_item s hreads, ih htail (by omega), List.map_cons, List.append_assoc,
      List.singleton_append]

/-- Items that use up the tokens leave no way to end before a last one. -/
theorem ReadsItems.exclusive {s : Syn T I E} {tokens tail : List T}
    {items items' : List (Item T I E)} {last : T} (h : ReadsItems s tokens items tail)
    (htail : tail = []) (h' : ReadsItems s tokens items' [last]) : False := by
  induction h generalizing items' with
  | nil =>
    subst htail
    cases h' with
    | cons hreads _ => exact absurd hreads.length_lt (Nat.not_lt_zero _)
  | cons hreads _ ih =>
    cases h' with
    | nil =>
      obtain ⟨name, value, htokens, -⟩ := hreads
      cases htokens
    | cons hreads' hitems =>
      obtain ⟨-, rfl⟩ := hreads.unique hreads'
      exact ih htail hitems

/-! ## The whole call -/

/-- The arguments that a documented call stands for. -/
def argsOf (call : DocumentedCall T I E) : LogArgs T I E :=
  ⟨call.ctx, call.comma, call.msg, call.items.map (classify s)⟩

/-- Items go to the audience or to the pairs, in order. -/
theorem foldl_splitStep (items : List (Item T I E)) (split : Option E × List (Kv T I E)) :
    (items.map (classify s)).foldl splitStep split =
      ((lastSet (audienceOf s) items).or split.1, split.2 ++
        (items.filter fun item => s.text item.kv.key ≠ "audience").map Item.kv) := by
  induction items generalizing split with
  | nil => exact Prod.ext Option.none_or.symm (List.append_nil _).symm
  | cons item items ih =>
    have hlast : lastSet (audienceOf s) (item :: items) =
        (lastSet (audienceOf s) items).or (audienceOf s item) := by
      rw [← List.singleton_append, lastSet_append, lastSet_singleton]
    rw [List.map_cons, List.foldl_cons, ih, hlast, Option.or_assoc]
    unfold classify audienceOf
    by_cases haudience : s.text item.kv.key = "audience"
    · simp [haudience, splitStep]
    · simp [haudience, splitStep]

/-- A documented call's arguments are split as documented. -/
theorem splitArgs_argsOf (call : DocumentedCall T I E) : SplitsAs s (argsOf s call) call := by
  have hsplit := foldl_splitStep s call.items (none, [])
  constructor
  case ctx => rfl
  case msg => rfl
  case audience =>
    intro e
    have haudience : (splitArgs (argsOf s call)).2.2.1 = lastSet (audienceOf s) call.items :=
      (congrArg Prod.fst hsplit).trans (Option.or_none ..)
    rw [haudience, lastSet_eq_some]
  case pairs => exact congrArg Prod.snd hsplit

/-- Accepted arguments are a documented call without a trailing comma. -/
theorem parseMacroInput_eq_some {tokens : List T} {args : LogArgs T I E} :
    parseMacroInput s tokens = some args ↔
      ∃ call, args = argsOf s call ∧ Documented s tokens call false := by
  constructor
  · intro h
    unfold parseMacroInput at h
    split at h
    · rename_i args' hparse
      cases h
      simp only [LogArgs.parse, Option.bind_eq_bind, Option.bind_eq_some_iff, Prod.exists,
        parseToken_eq_some, Option.some.injEq, Prod.mk.injEq] at hparse
      obtain ⟨ctx, _, hctx, comma, rest, ⟨rfl, hcomma⟩, msg, rest', hmsg, _, _, hrest, rfl, rfl⟩ :=
        hparse
      obtain ⟨items, hitems, rfl⟩ := parseRest_sound s hrest
      exact ⟨⟨ctx, comma, msg, items⟩, rfl, rest, rest', [], hctx, hcomma, hmsg, hitems, rfl⟩
    · cases h
  · rintro ⟨call, rfl, rest, rest', tail, hctx, hcomma, hmsg, hitems, htail⟩
    obtain rfl : tail = [] := htail
    have hrest := parseRest_complete s hitems rfl (Nat.lt_succ_self _) []
    have hparse : LogArgs.parse s tokens = some (argsOf s call, []) := by
      simp only [LogArgs.parse, Option.bind_eq_bind, Option.bind_eq_some_iff, Prod.exists,
        parseToken_eq_some, Option.some.injEq, Prod.mk.injEq]
      exact ⟨_, _, hctx, _, _, ⟨rfl, hcomma⟩, _, _, hmsg, _, _, hrest, rfl, rfl⟩
    unfold parseMacroInput
    rw [hparse]

/-- No tokens are a documented call both with and without a trailing comma. -/
theorem documented_exclusive {tokens : List T} {call call' : DocumentedCall T I E}
    (h : Documented s tokens call false) (h' : Documented s tokens call' true) : False := by
  obtain ⟨ctx, comma, msg, items⟩ := call
  obtain ⟨ctx₂, comma₂, msg₂, items₂⟩ := call'
  obtain ⟨rest, rest', tail, hctx, -, hmsg, hitems, htail⟩ := h
  obtain ⟨rest₂, rest₂', tail₂, hctx₂, -, hmsg₂, hitems₂, last, -, rfl⟩ := h'
  dsimp only at hctx hctx₂ hmsg hmsg₂
  cases hctx.symm.trans hctx₂
  cases hmsg.symm.trans hmsg₂
  exact hitems.exclusive htail hitems₂

/-- What the documentation promises for some tokens: they are accepted exactly
if they are a documented call, and then split as documented. -/
def AsDocumented (tokens : List T) : Prop :=
  ((∃ args, parseMacroInput s tokens = some args) ↔
    ∃ call trailing, Documented s tokens call trailing) ∧
  ∀ args, parseMacroInput s tokens = some args →
    ∃ call trailing, Documented s tokens call trailing ∧ SplitsAs s args call

/-- The macros take the documented grammar exactly on tokens that are not a
documented call with a trailing comma. -/
theorem macro_grammar_iff (tokens : List T) :
    AsDocumented s tokens ↔ ¬ ∃ call, Documented s tokens call true := by
  constructor
  · rintro ⟨haccepts, -⟩ ⟨call, hcall⟩
    obtain ⟨args, hargs⟩ := haccepts.mpr ⟨call, true, hcall⟩
    obtain ⟨call', -, hcall'⟩ := (parseMacroInput_eq_some s).mp hargs
    exact documented_exclusive s hcall' hcall
  · intro hno
    refine ⟨⟨?_, ?_⟩, ?_⟩
    · rintro ⟨args, hargs⟩
      obtain ⟨call, -, hcall⟩ := (parseMacroInput_eq_some s).mp hargs
      exact ⟨call, false, hcall⟩
    · rintro ⟨call, trailing, hcall⟩
      cases trailing with
      | true => exact absurd ⟨call, hcall⟩ hno
      | false => exact ⟨argsOf s call, (parseMacroInput_eq_some s).mpr ⟨call, rfl, hcall⟩⟩
    · intro args hargs
      obtain ⟨call, rfl, hcall⟩ := (parseMacroInput_eq_some s).mp hargs
      exact ⟨call, false, hcall, splitArgs_argsOf s call⟩

/-! ## The documentation's own call -/

/-- Tokens. -/
inductive Token where
  | ident (name : String)
  | literal (text : String)
  | punct (c : Char)
  | parens
  deriving DecidableEq

/-- Whether a token is another one than a comma. -/
def notComma (t : Token) : Bool := decide (t ≠ .punct ',')

/-- Expressions that end before the next comma. -/
def plainSyn : Syn Token String (List Token) where
  comma t := decide (t = .punct ',')
  eq t := decide (t = .punct '=')
  ident
    | .ident name => some name
    | _ => none
  text := id
  expr tokens :=
    if (tokens.takeWhile notComma).isEmpty then none
    else some (tokens.takeWhile notComma, tokens.dropWhile notComma)
  expr_suffix h := by
    split at h
    · cases h
    · cases h
      exact List.dropWhile_suffix _

/-- `ctx.clone(), "Slow query", audience = LogAudience::Internal` -/
def slowQueryHead : List Token :=
  [.ident "ctx", .punct '.', .ident "clone", .parens, .punct ',', .literal "Slow query", .punct ',',
    .ident "audience", .punct '=', .ident "LogAudience", .punct ':', .punct ':', .ident "Internal"]

/-- `, table = "orders", rows = 142_000, ms = 1834` -/
def slowQueryPairs : List Token :=
  [.punct ',', .ident "table", .punct '=', .literal "orders", .punct ',', .ident "rows",
    .punct '=', .literal "142_000", .punct ',', .ident "ms", .punct '=', .literal "1834"]

/-- An item of the call. -/
def plainItem (name : String) (val : List Token) : Item Token String (List Token) :=
  ⟨.punct ',', ⟨name, .punct '=', val⟩⟩

/-- The call. -/
def slowQuery : DocumentedCall Token String (List Token) where
  ctx := [.ident "ctx", .punct '.', .ident "clone", .parens]
  comma := .punct ','
  msg := [.literal "Slow query"]
  items :=
    [plainItem "audience" [.ident "LogAudience", .punct ':', .punct ':', .ident "Internal"],
      plainItem "table" [.literal "orders"], plainItem "rows" [.literal "142_000"],
      plainItem "ms" [.literal "1834"]]

/-- Its tokens, with a trailing comma or without. -/
def slowQueryTokens (trailing : Bool) : List Token :=
  slowQueryHead ++ slowQueryPairs ++ if trailing then [.punct ','] else []

/-- Its items, up to where the last expression ends. -/
theorem slowQuery_items {tail : List Token}
    (h : plainSyn.expr (.literal "1834" :: tail) = some ([.literal "1834"], tail)) :
    ReadsItems plainSyn (slowQueryHead.drop 6 ++ slowQueryPairs ++ tail) slowQuery.items tail :=
  .cons ⟨_, _, rfl, rfl, rfl, rfl, rfl⟩ (.cons ⟨_, _, rfl, rfl, rfl, rfl, rfl⟩
    (.cons ⟨_, _, rfl, rfl, rfl, rfl, rfl⟩ (.cons ⟨_, _, rfl, rfl, rfl, rfl, h⟩ .nil)))

/-- The call is documented in both forms. -/
theorem slowQuery_documented (trailing : Bool) :
    Documented plainSyn (slowQueryTokens trailing) slowQuery trailing := by
  cases trailing
  · exact ⟨_, _, [], rfl, rfl, rfl, slowQuery_items rfl, rfl⟩
  · exact ⟨_, _, [.punct ','], rfl, rfl, rfl, slowQuery_items rfl, _, rfl, rfl⟩

/-- Without a trailing comma the call is taken as documented. -/
theorem macro_grammar_iff_slowQuery : AsDocumented plainSyn (slowQueryTokens false) :=
  (macro_grammar_iff plainSyn _).mpr fun ⟨_, hcall⟩ =>
    documented_exclusive plainSyn (slowQuery_documented false) hcall

/-- As it is written in the documentation, the call is refused. -/
theorem slow_query_refused :
    Documented plainSyn (slowQueryTokens true) slowQuery true ∧
      parseMacroInput plainSyn (slowQueryTokens true) = none ∧
      ¬ AsDocumented plainSyn (slowQueryTokens true) := by
  have hrefused : parseMacroInput plainSyn (slowQueryTokens true) = none := by rfl
  refine ⟨slowQuery_documented true, hrefused, fun hdocumented => ?_⟩
  obtain ⟨args, hargs⟩ := hdocumented.1.mpr ⟨slowQuery, true, slowQuery_documented true⟩
  cases hrefused.symm.trans hargs

end EdenLogger.MacroGrammar
