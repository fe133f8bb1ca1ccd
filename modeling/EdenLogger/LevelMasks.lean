import EdenLogger.LevelFilter

/-!
# Masks as sets of levels

A mask is read as a set of levels and a flag. Enabling and disabling work on the
set alone, and the set that is left over may be empty: the byte is then zero
without the flag, which allows every level.
-/

namespace EdenLogger.LevelMasks

open ExporterConfig LevelFilter

/-! ## Bits -/

/-- The bit of a level is set. -/
def hasBit (mask : UInt8) (level : LogLevel) : Bool := decide (mask &&& levelBit level ≠ 0)

/-- Bit 7 is set. -/
def isOff (mask : UInt8) : Bool := decide (mask &&& 0x80 ≠ 0)

/-- No other bit is set. -/
def Legal (mask : UInt8) : Prop := mask &&& 0x60 = 0

/-- Every level. -/
def levels : List LogLevel := [.trace, .debug, .info, .warn, .error]

theorem mem_levels (level : LogLevel) : level ∈ levels := by cases level <;> decide

/-- A fact about every byte. -/
theorem forall_byte {p : UInt8 → Prop} (h : ∀ i : Fin 256, p (UInt8.ofNat i.val)) (b : UInt8) :
    p b := by
  have hb := h ⟨b.toNat, b.toNat_lt⟩
  rwa [UInt8.ofNat_toNat] at hb

/-- Setting the bit of a level. -/
theorem bits_or (mask : UInt8) (k : LogLevel) :
    (∀ l ∈ levels, hasBit (mask ||| levelBit k) l = (hasBit mask l || decide (l = k))) ∧
      isOff (mask ||| levelBit k) = isOff mask ∧
      ((mask ||| levelBit k) &&& 0x60 = mask &&& 0x60) := by
  have hmeet : ∀ part, (mask ||| levelBit k) &&& part = (mask &&& part) ||| (levelBit k &&& part) :=
    fun part => UInt8.toBitVec_inj.1 BitVec.and_or_distrib_right
  refine ⟨fun l _ => ?_, ?_, ?_⟩
  · have hbit : levelBit k &&& levelBit l = 0 ↔ l ≠ k := by cases k <;> cases l <;> decide
    simp only [hasBit, hmeet, ne_eq, UInt8.or_eq_zero_iff, hbit]
    by_cases hl : l = k <;> simp [hl]
  · have hoff : levelBit k &&& 0x80 = 0 := by cases k <;> decide
    rw [isOff, isOff, hmeet, hoff, UInt8.or_zero]
  · have hlegal : levelBit k &&& 0x60 = 0 := by cases k <;> decide
    rw [hmeet, hlegal, UInt8.or_zero]

/-- Clearing the bit of a level. -/
theorem bits_and_not (mask : UInt8) (k : LogLevel) :
    (∀ l ∈ levels, hasBit (mask &&& ~~~levelBit k) l = (hasBit mask l && !decide (l = k))) ∧
      isOff (mask &&& ~~~levelBit k) = isOff mask ∧
      ((mask &&& ~~~levelBit k) &&& 0x60 = mask &&& 0x60) := by
  refine ⟨fun l _ => ?_, ?_, ?_⟩
  · have hbit : ~~~levelBit k &&& levelBit l = if l = k then 0 else levelBit l := by
      cases k <;> cases l <;> decide
    simp only [hasBit, UInt8.and_assoc, hbit]
    by_cases hl : l = k <;> simp [hl]
  · have hoff : ~~~levelBit k &&& 0x80 = 0x80 := by cases k <;> decide
    rw [isOff, isOff, UInt8.and_assoc, hoff]
  · have hlegal : ~~~levelBit k &&& 0x60 = 0x60 := by cases k <;> decide
    rw [UInt8.and_assoc, hlegal]

/-- The two masks with a meaning of their own have no level. -/
theorem special_iff (mask : UInt8) (h : Legal mask) :
    (mask = 0 ↔ isOff mask = false ∧ ∀ l ∈ levels, hasBit mask l = false) ∧
      (mask = 0x80 ↔ isOff mask = true ∧ ∀ l ∈ levels, hasBit mask l = false) := by
  revert mask
  refine forall_byte ?_
  unfold Legal
  decide +kernel

/-! ## The filter's operations on the set -/

variable {mask : UInt8} {l : LogLevel} {ls : List LogLevel}

/-- What the change for each level leaves, the change for all of them leaves. -/
theorem foldl_same {β : Type} (f : UInt8 → β) {change : UInt8 → LogLevel → UInt8}
    (h : ∀ mask k, f (change mask k) = f mask) : f (ls.foldl change mask) = f mask := by
  induction ls generalizing mask with
  | nil => rfl
  | cons k ls ih => rw [List.foldl_cons, ih, h]

/-- Enabling adds levels. -/
theorem hasBit_enable : hasBit ((Op.enableLevels ls).apply mask) l =
    (hasBit mask l || decide (l ∈ ls)) := by
  simp only [Op.apply]
  induction ls generalizing mask with
  | nil => simp
  | cons k ls ih =>
    rw [List.foldl_cons, ih, (bits_or mask k).1 l (mem_levels l)]
    simp [Bool.or_assoc]

/-- Enabling leaves the flag and adds no other bit. -/
theorem flag_enable : isOff ((Op.enableLevels ls).apply mask) = isOff mask ∧
    ((Op.enableLevels ls).apply mask &&& 0x60 = mask &&& 0x60) := by
  refine ⟨foldl_same isOff fun mask k => ?_, foldl_same (· &&& 0x60) fun mask k => ?_⟩
  · exact (bits_or mask k).2.1
  · exact (bits_or mask k).2.2

/-- Disabling removes levels. -/
theorem hasBit_disable : hasBit ((Op.disableLevels ls).apply mask) l =
    (hasBit mask l && !decide (l ∈ ls)) := by
  simp only [Op.apply]
  induction ls generalizing mask with
  | nil => simp
  | cons k ls ih =>
    rw [List.foldl_cons, ih, (bits_and_not mask k).1 l (mem_levels l)]
    simp [Bool.and_assoc]

/-- Disabling leaves the flag and adds no other bit. -/
theorem flag_disable : isOff ((Op.disableLevels ls).apply mask) = isOff mask ∧
    ((Op.disableLevels ls).apply mask &&& 0x60 = mask &&& 0x60) := by
  refine ⟨foldl_same isOff fun mask k => ?_, foldl_same (· &&& 0x60) fun mask k => ?_⟩
  · exact (bits_and_not mask k).2.1
  · exact (bits_and_not mask k).2.2

/-- A mask allows the levels it holds, and every level if it is empty and not flagged. -/
theorem allows_eq (mask : UInt8) (h : Legal mask) : ∀ l ∈ levels, allows mask l =
    (hasBit mask l || !(isOff mask || levels.any (hasBit mask))) := by
  revert mask
  refine forall_byte ?_
  unfold Legal
  decide +kernel

/-! ## Calls one after the other -/

/-- `should_log` after calls one after the other. -/
def shouldLog (env : Option (List Char)) (s : UInt8 × Bool) (level : LogLevel) : Bool :=
  allows (Op.execute env s (.shouldLog level)).1 level

/-- The mask of a value has no other bit. -/
theorem legal_initMask (value : List Char) : Legal (initMask value) := by
  unfold initMask
  dsimp only
  split
  · rfl
  · exact flag_enable.2

/-- What holds between the calls: the mask is legal, and zero before the first one. -/
structure Settled (s : UInt8 × Bool) : Prop where
  legal : Legal s.1
  zero : s.2 = false → s.1 = 0

/-- Every call settles. -/
theorem Settled.execute {s : UInt8 × Bool} (h : Settled s) (env : Option (List Char)) (op : Op) :
    Settled (op.execute env s) := by
  have hlegal : Legal (op.execute env s).1 := by
    unfold Op.execute
    cases op with
    | enableLevels ls => exact flag_enable.2.trans h.legal
    | disableLevels ls => exact flag_disable.2.trans h.legal
    | clearFilter => exact (rfl : Legal 0)
    | initFromValue value => exact legal_initMask value
    | shouldLog level =>
      cases hs : s.2 with
      | true => exact h.legal
      | false =>
        cases env with
        | none => exact h.legal
        | some value => exact legal_initMask value
  refine ⟨hlegal, fun hfalse => ?_⟩
  unfold Op.execute at hfalse
  split at hfalse <;> cases hfalse

/-- The calls leave a settled filter. -/
theorem settled_sequential (env : Option (List Char)) (ops : List Op) :
    Settled (sequential env ops) := by
  have hrun : ∀ (ops : List Op) (s : UInt8 × Bool), Settled s →
      Settled (ops.foldl (Op.execute env) s) := by
    intro ops
    induction ops with
    | nil => exact fun s h => h
    | cons op ops ih => exact fun s h => ih _ (h.execute env op)
  exact hrun ops (0, false) ⟨rfl, fun _ => rfl⟩

/-- A filter that is initialized is checked as it is. -/
theorem shouldLog_initialized {env : Option (List Char)} {s : UInt8 × Bool} (h : s.2 = true)
    (level : LogLevel) : shouldLog env s level = allows s.1 level := by
  simp only [shouldLog, Op.execute, Op.isUse, h, if_true]

/-- A call that changes the filter initializes it. -/
theorem shouldLog_execute (env : Option (List Char)) (s : UInt8 × Bool) {op : Op}
    (h : op.isUse = false) (level : LogLevel) :
    shouldLog env (op.execute env s) level = allows (op.apply s.1) level := by
  have hs : op.execute env s = (op.apply s.1, true) := by
    rw [Op.execute, if_neg (by rw [h]; decide)]
  rw [hs, shouldLog_initialized rfl]

/-! ## Disabling levels -/

/-- Disabling levels disables them and no other, and enabling levels enables them. -/
def DisablingDisables (env : Option (List Char)) (ops : List Op) (ls : List LogLevel) : Prop :=
  let s := sequential env ops
  (∀ l ∈ ls, shouldLog env (Op.execute env s (.disableLevels ls)) l = false) ∧
  (∀ l, l ∉ ls →
    shouldLog env (Op.execute env s (.disableLevels ls)) l = shouldLog env s l) ∧
  (ls ≠ [] → ∀ l ∈ ls, shouldLog env (Op.execute env s (.enableLevels ls)) l = true)

/-- Enabling levels enables them. -/
theorem enabling_enables {env : Option (List Char)} {s : UInt8 × Bool} (h : Settled s)
    {ls : List LogLevel} {l : LogLevel} (hl : l ∈ ls) :
    shouldLog env (Op.execute env s (.enableLevels ls)) l = true := by
  rw [shouldLog_execute env s rfl, allows_eq _ (flag_enable.2.trans h.legal) l (mem_levels l),
    hasBit_enable, decide_eq_true hl, Bool.or_true, Bool.true_or]

/-- What a filter allows once levels are disabled: what it holds otherwise, and every level
if nothing is left and the flag is not set. -/
theorem shouldLog_disabled {env : Option (List Char)} {s : UInt8 × Bool} (h : Settled s)
    (ls : List LogLevel) (l : LogLevel) :
    shouldLog env (Op.execute env s (.disableLevels ls)) l = true ↔
      (hasBit s.1 l = true ∧ l ∉ ls) ∨
        (isOff s.1 = false ∧ ∀ k, k ∉ ls → hasBit s.1 k = false) := by
  rw [shouldLog_execute env s rfl, allows_eq _ (flag_disable.2.trans h.legal) l (mem_levels l),
    hasBit_disable, flag_disable.1]
  simp only [Bool.or_eq_true, Bool.and_eq_true, Bool.not_eq_true', Bool.or_eq_false_iff,
    decide_eq_false_iff_not, List.any_eq_false, hasBit_disable]
  refine or_congr Iff.rfl (and_congr Iff.rfl ⟨fun hall k hk => ?_, fun hall k _ hbit => ?_⟩)
  · exact Bool.eq_false_iff.mpr fun hbit => hall k (mem_levels k) ⟨hbit, hk⟩
  · rw [hall k hbit.2] at hbit
    exact Bool.false_ne_true hbit.1

/-- If something is left, the filter allows what is left. -/
theorem shouldLog_left {env : Option (List Char)} {s : UInt8 × Bool} (h : Settled s)
    {ls : List LogLevel} (hset : isOff s.1 = true ∨ ∃ k, k ∉ ls ∧ hasBit s.1 k = true)
    (l : LogLevel) : shouldLog env (Op.execute env s (.disableLevels ls)) l =
      (hasBit s.1 l && !decide (l ∈ ls)) := by
  rw [Bool.eq_iff_iff, shouldLog_disabled h ls l, Bool.and_eq_true, Bool.not_eq_true',
    decide_eq_false_iff_not]
  refine or_iff_left fun hnone => ?_
  rcases hset with hoff | ⟨k, hk, hbit⟩
  · exact Bool.false_ne_true (hnone.1.symm.trans hoff)
  · exact Bool.false_ne_true ((hnone.2 k hk).symm.trans hbit)

/-- What a filter allows: what it holds, unless nothing is set. -/
theorem shouldLog_of_bits {env : Option (List Char)} {s : UInt8 × Bool} (h : Settled s)
    (hset : isOff s.1 = true ∨ ∃ k, hasBit s.1 k = true) (l : LogLevel) :
    shouldLog env s l = hasBit s.1 l := by
  have hany : (isOff s.1 || levels.any (hasBit s.1)) = true := by
    rcases hset with hoff | ⟨k, hk⟩
    · rw [hoff, Bool.true_or]
    · rw [List.any_eq_true.mpr ⟨k, mem_levels k, hk⟩, Bool.or_true]
  have hinit : s.2 = true := by
    refine Bool.of_not_eq_false fun hfalse => ?_
    have hzero := ((special_iff s.1 h.legal).1.mp (h.zero hfalse))
    rcases hset with hoff | ⟨k, hk⟩
    · exact Bool.false_ne_true (hzero.1.symm.trans hoff)
    · exact Bool.false_ne_true ((hzero.2 k (mem_levels k)).symm.trans hk)
  rw [shouldLog_initialized hinit, allows_eq _ h.legal l (mem_levels l), hany, Bool.not_true,
    Bool.or_false]

/-- Disabling levels disables them, and leaves the others alone, exactly if something is left
in the mask, a level outside the list or the flag; or if the list is empty and the filter is
initialized, or its environment allows everything. -/
theorem disable_levels_disables (env : Option (List Char)) (ops : List Op) (ls : List LogLevel) :
    DisablingDisables env ops ls ↔
      isOff (sequential env ops).1 = true ∨
      (∃ l, l ∉ ls ∧ hasBit (sequential env ops).1 l = true) ∨
      (ls = [] ∧ ((sequential env ops).2 = true ∨
        ∀ l, shouldLog env (sequential env ops) l = true)) := by
  unfold DisablingDisables
  have h := settled_sequential env ops
  generalize sequential env ops = s at h
  dsimp only
  constructor
  · rintro ⟨hin, hout, -⟩
    by_cases hoff : isOff s.1 = true
    · exact Or.inl hoff
    by_cases hleft : ∃ l, l ∉ ls ∧ hasBit s.1 l = true
    · exact Or.inr (Or.inl hleft)
    -- nothing is left, so that every level is allowed
    have hnone : ∀ k, k ∉ ls → hasBit s.1 k = false := fun k hk =>
      Bool.eq_false_iff.mpr fun hbit => hleft ⟨k, hk, hbit⟩
    have hall : ∀ l, shouldLog env (Op.execute env s (.disableLevels ls)) l = true := fun l =>
      (shouldLog_disabled h ls l).mpr (Or.inr ⟨Bool.eq_false_iff.mpr hoff, hnone⟩)
    cases ls with
    | nil => exact Or.inr (Or.inr ⟨rfl, Or.inr fun l =>
        (hout l List.not_mem_nil).symm.trans (hall l)⟩)
    | cons k rest =>
      have hk := hin k List.mem_cons_self
      rw [hall k] at hk
      cases hk
  · intro hcond
    by_cases hset : isOff s.1 = true ∨ ∃ l, l ∉ ls ∧ hasBit s.1 l = true
    · refine ⟨fun l hl => ?_, fun l hl => ?_, fun _ l hl => enabling_enables h hl⟩
      · rw [shouldLog_left h hset, decide_eq_true hl, Bool.not_true, Bool.and_false]
      · rw [shouldLog_left h hset, shouldLog_of_bits h (hset.imp_right fun ⟨k, _, hk⟩ => ⟨k, hk⟩),
          decide_eq_false hl, Bool.not_false, Bool.and_true]
    · obtain ⟨rfl, hbefore⟩ := (hcond.resolve_left fun hoff => hset (Or.inl hoff)).resolve_left
        fun hleft => hset (Or.inr hleft)
      refine ⟨fun l hl => absurd hl List.not_mem_nil, fun l _ => ?_, fun hne => (hne rfl).elim⟩
      rcases hbefore with hinit | hall
      · rw [shouldLog_execute env s rfl, shouldLog_initialized hinit]
        rfl
      · rw [hall l, shouldLog_disabled h]
        refine Or.inr ⟨Bool.eq_false_iff.mpr fun hoff => hset (Or.inl hoff), fun k hk => ?_⟩
        exact Bool.eq_false_iff.mpr fun hbit => hset (Or.inr ⟨k, hk, hbit⟩)

/-- The only enabled level is disabled, and every level is enabled. -/
theorem disable_enables_all :
    ¬ DisablingDisables none [.enableLevels [.info]] [.info] ∧
    shouldLog none (sequential none [.enableLevels [.info], .disableLevels [.info]]) .info = true ∧
    shouldLog none (sequential none [.enableLevels [.info]]) .debug = false ∧
    shouldLog none (sequential none [.enableLevels [.info], .disableLevels [.info]]) .debug =
      true := by
  refine ⟨fun h => ?_, by decide +kernel, by decide +kernel, by decide +kernel⟩
  have hinfo := h.1 .info List.mem_cons_self
  revert hinfo
  decide +kernel

/-! ## Filter strings -/

/-- Names of the levels. -/
def levelName : LogLevel → List Char
  | .trace => "trace".toList
  | .debug => "debug".toList
  | .info => "info".toList
  | .warn => "warn".toList
  | .error => "error".toList

/-- A part of the value is the name of the level, up to blanks around it and case. -/
def Lists (value : List Char) (l : LogLevel) : Prop :=
  ∃ part ∈ value.splitOn ';', (trim part).map Char.toLower = levelName l

instance (value : List Char) (l : LogLevel) : Decidable (Lists value l) :=
  List.decidableBEx _ _

/-- The value is a marker that disables everything. -/
def IsMarker (value : List Char) : Prop :=
  (trim value).map Char.toLower ∈ [[], "none".toList, "off".toList]

/-- A part names a level. -/
theorem levelOfName_iff (part : List Char) (l : LogLevel) :
    levelOfName part = some l ↔ (trim part).map Char.toLower = levelName l := by
  unfold levelOfName
  generalize (trim part).map Char.toLower = name
  dsimp only
  constructor
  · intro h
    split_ifs at h <;> cases h <;> assumption
  · rintro rfl
    cases l <;> decide

/-- The mask of a value that is no marker holds what the value lists. -/
theorem bits_initMask {value : List Char} (h : ¬ IsMarker value) :
    isOff (initMask value) = false ∧
      ∀ l, (hasBit (initMask value) l = true ↔ Lists value l) := by
  have hmask : initMask value =
      (Op.enableLevels ((value.splitOn ';').filterMap levelOfName)).apply 0 := by
    refine if_neg fun hmarker => h ?_
    simpa [IsMarker] using hmarker
  refine ⟨by rw [hmask, flag_enable.1]; rfl, fun l => ?_⟩
  have hzero : hasBit 0 l = false := by cases l <;> rfl
  rw [hmask, hasBit_enable, hzero, Bool.false_or, decide_eq_true_iff, List.mem_filterMap]
  exact exists_congr fun part => and_congr_right fun _ => levelOfName_iff part l

/-- What is not blank is not trimmed. -/
theorem mem_trim {s : List Char} {c : Char} (hc : c ∈ s) (h : isWhitespace c = false) :
    c ∈ trim s := by
  have hdrop : ∀ {l : List Char}, c ∈ l → c ∈ l.dropWhile isWhitespace := by
    intro l hl
    induction l with
    | nil => cases hl
    | cons d l ih =>
      rw [List.dropWhile_cons]
      split
      · rename_i hd
        rcases List.mem_cons.mp hl with rfl | hl
        · exact (Bool.false_ne_true (h.symm.trans hd)).elim
        · exact ih hl
      · exact hl
  exact List.mem_reverse.mpr (hdrop (List.mem_reverse.mpr (hdrop hc)))

/-- A marker names no level. -/
theorem not_lists_of_marker {value : List Char} (h : IsMarker value) (l : LogLevel) :
    ¬ Lists value l := by
  have hsep : ';' ∉ value := by
    intro hmem
    have hlower : ';' ∈ (trim value).map Char.toLower :=
      List.mem_map.mpr ⟨';', mem_trim hmem (by decide), by decide⟩
    have hmarkers : ∀ name ∈ [[], "none".toList, "off".toList], ';' ∉ name := by decide
    exact hmarkers _ h hlower
  rintro ⟨part, hpart, hname⟩
  rw [List.splitOn_eq_singleton hsep, List.mem_singleton] at hpart
  subst hpart
  rw [IsMarker, hname] at h
  revert h
  cases l <;> decide

/-- A value enables the levels it lists. -/
def MeansWhatItLists (env : Option (List Char)) (s : UInt8 × Bool) (value : List Char) : Prop :=
  ∀ l, shouldLog env (Op.execute env s (.initFromValue value)) l = true ↔ Lists value l

/-- A value enables exactly the levels it lists if and only if it lists one, or is one of the
markers that disable everything. -/
theorem init_from_value_lists (env : Option (List Char)) (s : UInt8 × Bool) (value : List Char) :
    MeansWhatItLists env s value ↔ IsMarker value ∨ ∃ l, Lists value l := by
  unfold MeansWhatItLists
  simp only [@shouldLog_execute env s (.initFromValue value) rfl, Op.apply]
  by_cases hmarker : IsMarker value
  · have hmask : initMask value = 0x80 := by
      refine if_pos ?_
      simpa [IsMarker] using hmarker
    refine iff_of_true (fun l => ?_) (Or.inl hmarker)
    rw [hmask]
    exact iff_of_false (by cases l <;> decide) (not_lists_of_marker hmarker l)
  · obtain ⟨hoff, hbits⟩ := bits_initMask hmarker
    have hlegal := legal_initMask value
    by_cases hlists : ∃ l, Lists value l
    · obtain ⟨k, hk⟩ := hlists
      have hany : levels.any (hasBit (initMask value)) = true :=
        List.any_eq_true.mpr ⟨k, mem_levels k, (hbits k).mpr hk⟩
      refine iff_of_true (fun l => ?_) (Or.inr ⟨k, hk⟩)
      rw [allows_eq _ hlegal l (mem_levels l), hany, Bool.or_true, Bool.not_true, Bool.or_false]
      exact hbits l
    · have hnone : ∀ l, hasBit (initMask value) l = false := fun l =>
        Bool.eq_false_iff.mpr fun hbit => hlists ⟨l, (hbits l).mp hbit⟩
      have hzero := (special_iff _ hlegal).1.mpr ⟨hoff, fun l _ => hnone l⟩
      rw [hzero]
      refine iff_of_false (fun hall => ?_) fun hcond => hcond.elim hmarker hlists
      exact hlists ⟨.info, (hall .info).mp rfl⟩

/-- Values that list no level enable every level. -/
theorem unknown_enables_all :
    (¬ MeansWhatItLists none (0, false) "verbose".toList ∧
      ¬ MeansWhatItLists none (0, false) "off;none".toList) ∧
    ∀ value ∈ ["verbose".toList, "off;none".toList],
      shouldLog none (Op.execute none (0, false) (.initFromValue value)) .trace = true ∧
        ¬ Lists value .trace := by
  have hall : ∀ value ∈ ["verbose".toList, "off;none".toList],
      shouldLog none (Op.execute none (0, false) (.initFromValue value)) .trace = true ∧
        ¬ Lists value .trace := by
    decide +kernel
  refine ⟨⟨fun h => ?_, fun h => ?_⟩, hall⟩
  · obtain ⟨hlog, hlists⟩ := hall _ List.mem_cons_self
    exact hlists ((h .trace).mp hlog)
  · obtain ⟨hlog, hlists⟩ := hall _ (List.mem_cons_of_mem _ List.mem_cons_self)
    exact hlists ((h .trace).mp hlog)

end EdenLogger.LevelMasks
