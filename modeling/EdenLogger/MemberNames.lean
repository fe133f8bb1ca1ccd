import EdenLogger.DisplayLine

/-!
# Names of the members of a line

The writer keeps no record of the names it has written. The members that users
supply stand between the record's own ones under whatever name they are given,
so that a reader finds the record's values only if no user takes their names.
-/

namespace EdenLogger.MemberNames

open ExporterConfig JsonText JsonEscape JsonLine LogRecord DisplayLine

/-! ## Readers -/

section Readers

variable {N V : Type} [DecidableEq N]

/-- The members with a name. -/
def named (members : List (N × V)) (name : N) : List (N × V) :=
  members.filter fun m => decide (m.1 = name)

/-- A reader that keeps the first member with a name. -/
def firstWins (members : List (N × V)) (name : N) : Option V :=
  (named members name).head?.map Prod.snd

/-- A reader that keeps the last member with a name. -/
def lastWins (members : List (N × V)) (name : N) : Option V :=
  (named members name).getLast?.map Prod.snd

/-- The members of a table: its entries that have a value. -/
def present (table : List (N × Option V)) : List (N × V) :=
  table.flatMap fun e => (e.2.map fun v => (e.1, v)).toList

/-- No name of the table has two members, and every reader finds the table's values. -/
def Unforged (members : List (N × V)) (table : List (N × Option V)) : Prop :=
  ∀ e ∈ table, (named members e.1).length ≤ 1 ∧
    firstWins members e.1 = e.2 ∧ lastWins members e.1 = e.2

omit [DecidableEq N] in
/-- The names of a table's members are names of the table. -/
theorem present_sublist (table : List (N × Option V)) :
    ((present table).map Prod.fst).Sublist (table.map Prod.fst) := by
  induction table with
  | nil => exact .slnil
  | cons e table ih =>
    unfold present at ih ⊢
    rw [List.flatMap_cons, List.map_append, List.map_cons]
    cases e.2 with
    | none => exact ih.cons _
    | some v => exact ih.cons_cons _

/-- The member of a table with a name. -/
theorem named_present {table : List (N × Option V)} (hnames : (table.map Prod.fst).Nodup)
    {name : N} {o : Option V} (h : (name, o) ∈ table) :
    named (present table) name = (o.map fun v => (name, v)).toList := by
  induction table with
  | nil => cases h
  | cons e table ih =>
    obtain ⟨hfresh, hrest⟩ := List.nodup_cons.mp hnames
    have hsplit : named (present (e :: table)) name =
        named (e.2.map fun v => (e.1, v)).toList name ++ named (present table) name :=
      List.filter_append ..
    rw [hsplit]
    rcases List.mem_cons.mp h with rfl | hmem
    · have htail : named (present table) name = [] := by
        refine List.filter_eq_nil_iff.mpr fun m hm hname => hfresh ?_
        rw [← of_decide_eq_true hname]
        exact (present_sublist table).subset (List.mem_map_of_mem hm)
      rw [htail, List.append_nil]
      cases o with
      | none => rfl
      | some v => exact List.filter_cons_of_pos (decide_eq_true rfl)
    · have hne : e.1 ≠ name := by
        rintro rfl
        exact hfresh (List.mem_map.mpr ⟨_, hmem, rfl⟩)
      rw [ih hrest hmem]
      cases e.2 with
      | none => rfl
      | some v => rw [Option.map_some, Option.toList_some, named,
          List.filter_cons_of_neg (by simpa using hne), List.filter_nil, List.nil_append]

/-- The members with a name of the table: its own, and those of users. -/
theorem named_perm {members users : List (N × V)} {table : List (N × Option V)}
    (hperm : members.Perm (present table ++ users)) (hnames : (table.map Prod.fst).Nodup)
    {name : N} {o : Option V} (h : (name, o) ∈ table) :
    (named members name).Perm ((o.map fun v => (name, v)).toList ++ named users name) := by
  rw [← named_present hnames h]
  unfold named
  rw [← List.filter_append]
  exact hperm.filter _

/-- If the members are those of a table whose values went through `f`, and those of users,
readers find the table's values exactly if no user takes a name of the table and `f` leaves
its values as they are. -/
theorem unforged_iff {members users : List (N × V)} {table : List (N × Option V)} (f : V → V)
    (hperm : members.Perm (present (table.map fun e => (e.1, e.2.map f)) ++ users))
    (hnames : (table.map Prod.fst).Nodup) :
    Unforged members table ↔
      (∀ m ∈ users, m.1 ∉ table.map Prod.fst) ∧ ∀ e ∈ table, ∀ v ∈ e.2, f v = v := by
  have hwritten : ((table.map fun e => (e.1, e.2.map f)).map Prod.fst).Nodup := by
    rw [List.map_map]
    exact hnames
  have hnamed : ∀ e ∈ table, (named members e.1).Perm
      (((e.2.map f).map fun v => (e.1, v)).toList ++ named users e.1) := fun e he =>
    named_perm hperm hwritten (List.mem_map.mpr ⟨e, he, rfl⟩)
  constructor
  · intro h
    have hfree : ∀ e ∈ table, named users e.1 = [] := by
      intro e he
      obtain ⟨hlen, hfirst, -⟩ := h e he
      have hp := hnamed e he
      cases ho : e.2 with
      | none =>
        rw [ho, firstWins, Option.map_eq_none_iff, List.head?_eq_none_iff] at hfirst
        rw [hfirst, ho] at hp
        exact List.nil_perm.mp hp
      | some v =>
        rw [hp.length_eq, ho] at hlen
        exact List.length_eq_zero_iff.mp (by simpa using hlen)
    refine ⟨fun m hm hname => ?_, fun e he v hv => ?_⟩
    · obtain ⟨e, he, hname⟩ := List.mem_map.mp hname
      exact List.filter_eq_nil_iff.mp (hfree e he) m hm (decide_eq_true hname.symm)
    · have hp := hnamed e he
      have hfirst := (h e he).2.1
      rw [hfree e he, hv, Option.map_some, Option.map_some, Option.toList_some, List.append_nil,
        List.perm_singleton] at hp
      rw [firstWins, hp, hv] at hfirst
      exact Option.some.inj hfirst
  · rintro ⟨hfree, hvalues⟩ e he
    have hnone : named users e.1 = [] := by
      refine List.filter_eq_nil_iff.mpr fun m hm hname => hfree m hm ?_
      exact List.mem_map.mpr ⟨e, he, (of_decide_eq_true hname).symm⟩
    have hp := hnamed e he
    have hvalue : e.2.map f = e.2 :=
      (Option.map_congr (hvalues e he)).trans (congrFun Option.map_id e.2)
    rw [hnone, hvalue, List.append_nil] at hp
    unfold firstWins lastWins
    cases ho : e.2 with
    | none =>
      rw [ho] at hp
      rw [List.perm_nil.mp hp]
      exact ⟨Nat.zero_le 1, rfl, rfl⟩
    | some v =>
      rw [ho] at hp
      rw [List.perm_singleton.mp hp]
      exact ⟨Nat.le_refl 1, rfl, rfl⟩

end Readers

/-! ## Members of a line -/

variable {R : Type} [RequestFields R]

/-- The record's own members, with the values they should have. The line number is part of
the location, which is a file and a line in it. -/
def intrinsicTable (t : LogThread) (level : LogLevel) (message : Text) (context : LogContext R)
    (audience : LogAudience) (file : Option Text) (line : Option UInt32) :
    List (Text × Option Json) :=
  [("ts".toList, some (.string t.cached.formatted)),
    ("level".toList, some (.string (levelStr level))),
    ("audience".toList, some (.string (audienceStr audience))),
    ("trace_id".toList, (effectiveTraceContext context t.spans).1.map .string),
    ("span_id".toList, (effectiveTraceContext context t.spans).2.map .string),
    ("feature".toList, context.feature.map .string),
    ("fn".toList, context.function.map .string),
    ("error_code".toList, context.errorCode.map .string),
    ("error_category".toList, context.errorCategory.map .string),
    ("file".toList, file.map .string),
    ("line".toList, file.bind fun _ => line.map fun l => .number (itoa l.toNat)),
    ("msg".toList, some (.string message))]

/-- The keys that users supply, as the writer meets them. -/
def userKeys (t : LogThread) (context : LogContext R) (additional : List (Text × Shown)) :
    List Text :=
  (RequestFields.writeJson context.request).map callKey ++
    ((context.additional.map t.order.visit).getD []).map Prod.fst ++ additional.map Prod.fst

/-- A value as a reader makes of it. -/
def shownValue : Json → Json
  | .string s => .string (shown s)
  | v => v

/-- The members that users supply. -/
def userMembers (t : LogThread) (context : LogContext R) (additional : List (Text × Shown)) :
    List (Text × Json) :=
  (RequestFields.writeJson context.request).map fieldMember ++
    ((context.additional.map t.order.visit).getD []).map
      (fun e => (shown e.1, Json.string (shown e.2))) ++
    additional.map fun e => (shown e.1, Json.string (shownChunks e.2))

/-- Their names are the keys, as a reader makes of them. -/
theorem userMembers_names (t : LogThread) (context : LogContext R)
    (additional : List (Text × Shown)) :
    (userMembers t context additional).map Prod.fst =
      (userKeys t context additional).map shown := by
  have hcall : Prod.fst ∘ fieldMember = shown ∘ callKey := by
    funext c
    cases c <;> rfl
  unfold userMembers userKeys
  simp only [List.map_append, List.map_map, hcall]
  rfl

/-- What stands between the pieces of a list moves behind them. -/
theorem perm_behind {α : Type*} (a x b y c : List α) :
    (a ++ x ++ b ++ y ++ c).Perm (a ++ b ++ c ++ (x ++ y)) := by
  simp only [List.append_assoc]
  refine List.Perm.append_left a ((List.perm_append_comm_assoc x b _).trans ?_)
  rw [← List.append_assoc x y c]
  exact List.Perm.append_left b List.perm_append_comm

/-- The members of a line are the record's own and those of users. -/
theorem lineMembers_perm (t : LogThread) (level : LogLevel) (message : Text)
    (context : LogContext R) (audience : LogAudience) (additional : List (Text × Shown))
    (file : Option Text) (line : Option UInt32) :
    (lineMembers t level message context audience additional file line).Perm
      (present ((intrinsicTable t level message context audience file line).map fun e =>
        (e.1, e.2.map shownValue)) ++ userMembers t context additional) := by
  have hts : shown t.cached.formatted = t.cached.formatted :=
    (escaped_of_unescaped t.cached.unescaped).2
  have hoptional : ∀ (key : String) (v : Option Text),
      (((v.map Json.string).map shownValue).map fun v => (key.toList, v)).toList =
        optionalMember key v := by
    intro key v
    cases v <;> rfl
  have hline : (((file.bind fun _ => line.map fun l => Json.number (itoa l.toNat)).map
      shownValue).map fun v => ("line".toList, v)).toList =
        (file.bind fun _ =>
          line.map fun l => ("line".toList, Json.number (itoa l.toNat))).toList := by
    cases file with
    | none => rfl
    | some f => cases line <;> rfl
  unfold present intrinsicTable lineMembers membersWith userMembers
  simp only [List.map_cons, List.map_nil, List.flatMap_cons, List.flatMap_nil, hoptional, hline,
    Option.map_some, Option.toList_some, shownValue, hts, (levelStr_plain level).2,
    (audienceStr_plain audience).2]
  have hperm := perm_behind
    ([("ts".toList, Json.string t.cached.formatted), ("level".toList, .string (levelStr level)),
      ("audience".toList, .string (audienceStr audience))] ++
      optionalMember "trace_id" (effectiveTraceContext context t.spans).1 ++
      optionalMember "span_id" (effectiveTraceContext context t.spans).2 ++
      optionalMember "feature" context.feature ++ optionalMember "fn" context.function)
    ((RequestFields.writeJson context.request).map fieldMember)
    (optionalMember "error_code" context.errorCode ++
      optionalMember "error_category" context.errorCategory)
    (((context.additional.map t.order.visit).getD []).map
      (fun e => (shown e.1, Json.string (shown e.2))) ++
      additional.map fun e => (shown e.1, Json.string (shownChunks e.2)))
    (optionalMember "file" file ++
      (file.bind fun _ => line.map fun l => ("line".toList, Json.number (itoa l.toNat))).toList ++
      [("msg".toList, Json.string (shown message))])
  simpa only [List.append_assoc, List.cons_append, List.nil_append, List.append_nil] using hperm

/-! ## Names as they are read -/

/-- Strings with the same bytes are the same. -/
theorem asBytes_injective {a b : Text} (h : asBytes a = asBytes b) : a = b := by
  refine String.ofList_injective (String.toByteArray_inj.mp ?_)
  exact congrArg List.toByteArray h

/-- The character of a byte has to be escaped if the byte has. -/
theorem mustEscape_byteChar (b : UInt8) : mustEscape (byteChar b) = jsonEscapeTable b := by
  unfold mustEscape jsonEscapeTable
  refine decide_eq_decide.mpr ?_
  rw [← Char.toNat_inj, ← Char.toNat_inj, ← UInt8.toNat_inj, ← UInt8.toNat_inj, toNat_byteChar]
  change (b.toNat = 34 ∨ b.toNat = 92 ∨ b.toNat < 32) ↔
    (b.toNat < 32 ∨ b.toNat = 34 ∨ b.toNat = 92)
  omega

/-- What has to be escaped is shown too. -/
theorem any_mustEscape_shown (k : Text) : (shown k).any mustEscape = k.any mustEscape := by
  unfold shown
  split
  · rw [List.any_map, ← needsEscape_eq]
    exact congrArg (asBytes k).any (funext mustEscape_byteChar)
  · rfl

/-- Keys that are read alike are the same. -/
theorem shown_injective {a b : Text} (h : shown a = shown b) : a = b := by
  have hany : a.any mustEscape = b.any mustEscape := by
    rw [← any_mustEscape_shown, h, any_mustEscape_shown]
  unfold shown at h
  rw [needsEscape_eq, needsEscape_eq, hany] at h
  split at h
  · refine asBytes_injective (List.map_injective_iff.mpr (fun b b' hb => ?_) h)
    rw [← UInt8.toNat_inj, ← toNat_byteChar, hb, toNat_byteChar]
  · exact h

/-- The names of the record's own members. -/
def intrinsicNames : List Text :=
  ["ts".toList, "level".toList, "audience".toList, "trace_id".toList, "span_id".toList,
    "feature".toList, "fn".toList, "error_code".toList, "error_category".toList, "file".toList,
    "line".toList, "msg".toList]

/-- They are read as they are. -/
theorem shown_intrinsicNames : ∀ name ∈ intrinsicNames, shown name = name := by decide +kernel

/-- A key is read as one of them only if it is one. -/
theorem shown_mem_intrinsicNames (k : Text) : shown k ∈ intrinsicNames ↔ k ∈ intrinsicNames := by
  constructor
  · intro h
    rwa [← shown_injective (shown_intrinsicNames _ h)]
  · intro h
    rwa [shown_intrinsicNames k h]

/-- A string that is read as it is: nothing in it has to be escaped, or it is ASCII. -/
def Faithful (s : Text) : Prop :=
  (∀ c ∈ s, mustEscape c = false) ∨ ∀ c ∈ s, c.toNat < 0x80

/-- A value is read as it is if its string is. -/
theorem shownValue_eq (v : Json) : shownValue v = v ↔ ∀ s, v = .string s → Faithful s := by
  cases v with
  | string s =>
    unfold Faithful
    rw [shownValue, Json.string.injEq, shown_eq_iff]
    simp only [Json.string.injEq, forall_eq']
  | null | bool | number | array | object =>
    refine iff_of_true rfl fun s hs => ?_
    cases hs

/-! ## Reading a line -/

/-- Readers find the record's values, and no second member with one of its names, exactly if no
user takes one of its names and its strings are read as they are; and then no two members
at all have one name exactly if no key is supplied twice. -/
theorem intrinsic_members_unforged (t : LogThread) (s : Text) (level : LogLevel) (message : Text)
    (context : LogContext R) (audience : LogAudience) (additional : List (Text × Shown))
    (file : Option Text) (line : Option UInt32) :
    let table := intrinsicTable t level message context audience file line
    let keys := userKeys t context additional
    ∃ text members,
      writeJsonDirect t s level message context audience additional file line = s ++ text ∧
      parse text = some (.object members) ∧
      (Unforged members table ↔ (∀ k ∈ keys, k ∉ intrinsicNames) ∧
        ∀ e ∈ table, ∀ v, e.2 = some (.string v) → Faithful v) ∧
      ((members.map Prod.fst).Nodup ∧ Unforged members table ↔ keys.Nodup ∧
        (∀ k ∈ keys, k ∉ intrinsicNames) ∧
        ∀ e ∈ table, ∀ v, e.2 = some (.string v) → Faithful v) := by
  intro table keys
  have hnames : (table.map Prod.fst).Nodup := by
    change intrinsicNames.Nodup
    decide +kernel
  have hperm := lineMembers_perm t level message context audience additional file line
  have husers := userMembers_names t context additional
  have hunforged : Unforged (lineMembers t level message context audience additional file line)
      table ↔ (∀ k ∈ keys, k ∉ intrinsicNames) ∧
        ∀ e ∈ table, ∀ v, e.2 = some (.string v) → Faithful v := by
    rw [unforged_iff shownValue hperm hnames]
    refine and_congr ?_ ?_
    · rw [← List.forall_mem_map (f := Prod.fst) (P := fun n => n ∉ table.map Prod.fst), husers,
        List.forall_mem_map]
      exact forall₂_congr fun k _ => not_congr (shown_mem_intrinsicNames k)
    · refine forall₂_congr fun e _ => ?_
      simp only [shownValue_eq, Option.mem_def]
      exact ⟨fun h v hv => h _ hv v rfl, fun h v hv s hs => h s (hv.trans (congrArg some hs))⟩
  refine ⟨_, _, writeJsonDirect_eq t s level message context audience additional file line,
    by rw [parse_objectText, lineTexts_pair], hunforged, ?_⟩
  rw [hunforged, (hperm.map Prod.fst).nodup_iff, List.map_append, husers, List.nodup_append]
  constructor
  · rintro ⟨⟨-, hshown, -⟩, hfree⟩
    exact ⟨hshown.of_map, hfree⟩
  · rintro ⟨hkeys, hfree⟩
    refine ⟨⟨?_, hkeys.map fun a b => shown_injective, fun n hn m hm => ?_⟩, hfree⟩
    · refine (present_sublist _).nodup ?_
      rw [List.map_map]
      exact hnames
    · rintro rfl
      obtain ⟨k, hk, rfl⟩ := List.mem_map.mp hm
      have hmem := (present_sublist _).subset hn
      rw [List.map_map] at hmem
      exact hfree.1 k hk ((shown_mem_intrinsicNames k).mp hmem)

/-- A pair of a call takes the name of the message: a reader that keeps the first member finds
the pair's value. -/
theorem message_forged :
    ∃ members, parse (writeJsonDirect (R := Unit) quietThread [] .info "up".toList
        LogContext.new .internal [("msg".toList, ["down".toList])] none none) =
          some (.object members) ∧
      ¬ ((members.map Prod.fst).Nodup ∧ Unforged members (intrinsicTable (R := Unit) quietThread
        .info "up".toList LogContext.new .internal none none)) ∧
      firstWins members "msg".toList = some (.string "down".toList) ∧
      lastWins members "msg".toList = some (.string "up".toList) := by
  refine ⟨_, by rw [writeJsonDirect_eq, List.nil_append, parse_objectText, lineTexts_pair],
    fun h => ?_, rfl, rfl⟩
  have hnames : ¬ ((lineMembers (R := Unit) quietThread .info "up".toList LogContext.new .internal
      [("msg".toList, ["down".toList])] none none).map Prod.fst).Nodup := by decide +kernel
  exact hnames h.1

end EdenLogger.MemberNames
