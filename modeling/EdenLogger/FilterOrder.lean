import EdenLogger.LevelFilter
import EdenLogger.ListCells
import Mathlib.Data.List.Permutation

/-!
# An order of the filter's calls

A call that changes the mask takes its place in the order when it stores the
mask, and a check when it begins. While the environment is pending, only checks
have taken their places, and the mask is whatever it was; otherwise the mask is
that of the calls in order.
-/

namespace EdenLogger.FilterOrder

open ExporterConfig CallHistory LevelFilter RunRules ListCells

variable {env : Option (List Char)} {s s' : State} {i : ℕ} {c : Call Op Pc}

/-! ## What a step can do -/

/-- The mask of the call is stored. -/
def hasStored : Pc → Bool
  | .storeState | .done _ => true
  | _ => false

/-- The call has seen the filter initialized, or has marked it. -/
def hasSettled : Pc → Bool
  | .readEnabled | .done _ => true
  | _ => false

/-- Where a call can be. -/
def legalAt (op : Op) : Pc → Bool
  | .loadEnabled | .storeEnabled _ | .storeState => !op.isUse
  | .done _ => true
  | .loadState | .exchangeState | .spin | .storeEnv _ | .storeEnvState | .storeInitState
  | .readEnabled => op.isUse

/-- What a step of a call does to the atomics and where it leads. -/
structure Moves (env : Option (List Char)) (s : State) (op : Op) (pc : Pc)
    (r : UInt8 × FilterState × Pc) : Prop where
  notDone : pc.isDone = false
  state : r.2.1 = s.filterState ∨
    (r.2.1 = .initialized ∧ (pc = .storeState ∨ pc = .storeEnvState ∨ pc = .storeInitState)) ∨
    (r.2.1 = .initializing ∧ pc = .exchangeState ∧ s.filterState = .uninitialized)
  enabled : r.1 = s.enabled ∨ (∃ l, pc = .storeEnabled l ∧ r.1 = op.apply l) ∨
    pc = .storeEnv r.1
  legal : legalAt op pc = true → legalAt op r.2.2 = true
  stored : hasStored r.2.2 = true →
    hasStored pc = true ∨ (∃ l, pc = .storeEnabled l) ∨ pc = .readEnabled
  kept : hasStored pc = true → hasStored r.2.2 = true
  stores : ∀ l, pc = .storeEnabled l → hasStored r.2.2 = true ∧ r.1 = op.apply l
  settled : hasSettled r.2.2 = true → r.2.1 = .initialized ∨ hasSettled pc = true
  storeEnv : ∀ m, r.2.2 = .storeEnv m → r.2.1 = .initializing ∧ s.filterState = .uninitialized ∧
    ∃ v, env = some v ∧ m = initMask v
  storeEnvState : r.2.2 = .storeEnvState → ∃ m, pc = .storeEnv m
  storesEnv : ∀ m, pc = .storeEnv m → r.2.2 = .storeEnvState ∧ r.1 = m
  marks : pc = .storeEnvState → r.2.1 = .initialized
  returns : pc = .storeState → r.2.2.isDone = true
  storeInitState : r.2.2 = .storeInitState → r.2.1 = .initialized ∨ env = none

/-- A check goes on to spin, or to read the mask of an initialized filter. -/
theorem afterLoad_eq (st : FilterState) :
    (st ≠ .initialized ∧ afterLoad st = .spin) ∨
      (st = .initialized ∧ afterLoad st = .readEnabled) := by
  cases st <;> simp [afterLoad]

/-- Everything a step can do. -/
theorem moves {op : Op} {pc : Pc} {r : UInt8 × FilterState × Pc}
    (h : advance env s op pc = some r) : Moves env s op pc r := by
  cases pc with
  | done a => cases h
  | loadState =>
    obtain rfl := Option.some.inj h
    split
    · constructor <;> simp_all [legalAt, hasStored, hasSettled, Pc.isDone]
    · rcases afterLoad_eq s.filterState with ⟨hst, hp⟩ | ⟨hst, hp⟩ <;> rw [hp] <;>
        constructor <;> simp_all [legalAt, hasStored, hasSettled, Pc.isDone]
  | spin =>
    obtain rfl := Option.some.inj h
    rcases afterLoad_eq s.filterState with ⟨hst, hp⟩ | ⟨hst, hp⟩ <;> rw [hp] <;>
      constructor <;> simp_all [legalAt, hasStored, hasSettled, Pc.isDone]
  | exchangeState =>
    simp only [advance] at h
    split at h
    · obtain rfl := Option.some.inj h
      cases env <;> constructor <;> simp_all [legalAt, hasStored, hasSettled, Pc.isDone]
    · obtain rfl := Option.some.inj h
      rcases afterLoad_eq s.filterState with ⟨hst, hp⟩ | ⟨hst, hp⟩ <;> rw [hp] <;>
        constructor <;> simp_all [legalAt, hasStored, hasSettled, Pc.isDone]
  | _ =>
    obtain rfl := Option.some.inj h
    constructor <;> simp [legalAt, hasStored, hasSettled, Pc.isDone]

/-! ## The machine -/

/-- A check has begun, and the environment that it has to read is not stored yet. -/
structure Pending (env : Option (List Char)) (s : State) : Prop where
  value : env.isSome = true
  use : ∃ c ∈ s.calls, c.op.isUse = true
  state : s.filterState ≠ .initialized
  notStored : ∀ c ∈ s.calls, c.pc ≠ .storeEnvState

/-- The condition's test decides it. -/
theorem envPending_iff : envPending env s = true ↔ Pending env s := by
  unfold envPending
  simp only [Bool.and_eq_true, List.any_eq_true, decide_eq_true_eq, Bool.not_eq_true',
    List.any_eq_false]
  constructor
  · rintro ⟨⟨⟨hvalue, huse⟩, hstate⟩, hstored⟩
    exact ⟨hvalue, huse, hstate, hstored⟩
  · rintro ⟨hvalue, huse, hstate, hstored⟩
    exact ⟨⟨⟨hvalue, huse⟩, hstate⟩, hstored⟩

/-- What holds of the atomics and the calls, whatever their order. -/
structure Machine (env : Option (List Char)) (s : State) : Prop where
  after : ∀ (i : ℕ) (c : Call Op Pc), s.calls[i]? = some c → ∀ j ∈ c.after,
    ∃ d : Call Op Pc, s.calls[j]? = some d ∧ d.pc.isDone = true
  legal : ∀ c ∈ s.calls, legalAt c.op c.pc = true
  settled : ∀ c ∈ s.calls, hasSettled c.pc = true → s.filterState = .initialized
  started : s.filterState ≠ .uninitialized → (∃ c ∈ s.calls, c.op.isUse = true) ∨
    ∃ c ∈ s.calls, c.op.isUse = false ∧ c.pc.isDone = true
  clean : Pending env s → ∀ c ∈ s.calls, c.op.isUse = false → hasStored c.pc = false
  winner : ∀ (i : ℕ) (c : Call Op Pc) (m : UInt8), s.calls[i]? = some c → c.pc = .storeEnv m →
    (∃ v, env = some v ∧ m = initMask v) ∧ s.filterState = .initializing ∧
      ∀ (j : ℕ) (d : Call Op Pc), s.calls[j]? = some d →
        d.pc ≠ .storeEnvState ∧ ∀ m', d.pc = .storeEnv m' → j = i
  storing : ∀ c ∈ s.calls, c.pc = .storeEnvState → s.filterState ≠ .uninitialized
  marking : ∀ c ∈ s.calls, c.pc = .storeInitState → env.isSome = true →
    s.filterState = .initialized

/-- The condition at a store of the mask. -/
def StoreOk (env : Option (List Char)) (s : State) (c : Call Op Pc) : Prop :=
  ∀ l, c.pc = .storeEnabled l → (c.op.loads = true → l = s.enabled) ∧ ¬ Pending env s

/-- A call that stands to store the environment's mask has it pending. -/
theorem Machine.pending_of_winner (h : Machine env s) {m : UInt8} (hi : s.calls[i]? = some c)
    (hpc : c.pc = .storeEnv m) : Pending env s := by
  obtain ⟨⟨v, henv, -⟩, hstate, hothers⟩ := h.winner i c m hi hpc
  have hlegal := h.legal c (List.mem_of_getElem? hi)
  rw [hpc] at hlegal
  refine ⟨by rw [henv]; rfl, ⟨c, List.mem_of_getElem? hi, hlegal⟩, by rw [hstate]; decide, ?_⟩
  intro d hd
  obtain ⟨j, hj⟩ := List.mem_iff_getElem?.mp hd
  exact (hothers j d hj).1

variable {r : UInt8 × FilterState × Pc}

/-- The calls behind a step. -/
theorem mem_move {d : Call Op Pc} (h : d ∈ (s.move i c r).calls) :
    d = { c with pc := r.2.2 } ∨ d ∈ s.calls :=
  (List.mem_or_eq_of_mem_set h).symm

/-- A step leaves the operations. -/
theorem exists_use_move (hi : s.calls[i]? = some c) :
    (∃ d ∈ (s.move i c r).calls, d.op.isUse = true) ↔ ∃ d ∈ s.calls, d.op.isUse = true := by
  constructor
  · rintro ⟨d, hd, huse⟩
    rcases mem_move hd with rfl | hd
    · exact ⟨c, List.mem_of_getElem? hi, huse⟩
    · exact ⟨d, hd, huse⟩
  · exact fun huse => exists_mem_set hi huse id

/-- An initialized filter stays so. -/
theorem Moves.initialized (hm : Moves env s c.op c.pc r) (h : s.filterState = .initialized) :
    r.2.1 = .initialized := by
  rcases hm.state with hsame | ⟨hinit, -⟩ | ⟨-, -, huninit⟩
  · rw [hsame, h]
  · exact hinit
  · rw [huninit] at h
    cases h

/-- What is pending behind a step was pending. -/
theorem Moves.pending (hm : Moves env s c.op c.pc r) (hi : s.calls[i]? = some c)
    (h : Pending env (s.move i c r)) : Pending env s where
  value := h.value
  use := (exists_use_move hi).mp h.use
  state := fun hinit => h.state (hm.initialized hinit)
  notStored := by
    intro d hd hpc
    obtain ⟨j, hj⟩ := List.mem_iff_getElem?.mp hd
    by_cases hij : j = i
    · subst hij
      obtain rfl := Option.some.inj (hi.symm.trans hj)
      exact h.state (hm.marks hpc)
    · have hkept : (s.move i c r).calls[j]? = some d := by
        rw [State.move, List.getElem?_set_ne (Ne.symm hij)]
        exact hj
      exact h.notStored d (List.mem_of_getElem? hkept) hpc

/-- While the environment is pending, no call has stored its mask. -/
theorem Machine.clean_move (h : Machine env s) (hi : s.calls[i]? = some c)
    (hm : Moves env s c.op c.pc r) (hok : StoreOk env s c) (hp : Pending env (s.move i c r)) :
    ∀ d ∈ (s.move i c r).calls, d.op.isUse = false → hasStored d.pc = false := by
  have hbefore := hm.pending hi hp
  intro d hd huse
  rcases mem_move hd with rfl | hd
  · refine Bool.eq_false_iff.mpr fun hstored => ?_
    rcases hm.stored hstored with hc | ⟨l, hl⟩ | hread
    · rw [h.clean hbefore c (List.mem_of_getElem? hi) huse] at hc
      cases hc
    · exact (hok l hl).2 hbefore
    · have hlegal := h.legal c (List.mem_of_getElem? hi)
      rw [hread] at hlegal
      exact absurd (huse.symm.trans hlegal) Bool.false_ne_true
  · exact h.clean hbefore d hd huse

/-- Nobody else marks the filter while a call stands to store the environment's mask. -/
theorem Machine.initializing_kept (h : Machine env s) (hi : s.calls[i]? = some c)
    (hm : Moves env s c.op c.pc r) {j : ℕ} {d : Call Op Pc} {m : UInt8}
    (hj : s.calls[j]? = some d) (hpc : d.pc = .storeEnv m) : r.2.1 = .initializing := by
  obtain ⟨⟨v, henv, -⟩, hstate, hothers⟩ := h.winner j d m hj hpc
  have hpending := h.pending_of_winner hj hpc
  have hlegal := h.legal c (List.mem_of_getElem? hi)
  rcases hm.state with hsame | ⟨-, hmark⟩ | ⟨-, -, huninit⟩
  · rw [hsame, hstate]
  · rcases hmark with hp | hp | hp
    · rw [hp] at hlegal
      have hclean := h.clean hpending c (List.mem_of_getElem? hi) (by simpa [legalAt] using hlegal)
      rw [hp] at hclean
      cases hclean
    · exact absurd hp (hothers i c hi).1
    · have hinit := h.marking c (List.mem_of_getElem? hi) hp hpending.value
      rw [hinit] at hstate
      cases hstate
  · rw [huninit] at hstate
    cases hstate

/-- One call at most stands to store the environment's mask. -/
theorem Machine.winner_move (h : Machine env s) (hi : s.calls[i]? = some c)
    (hm : Moves env s c.op c.pc r) {j : ℕ} {d : Call Op Pc} {m : UInt8}
    (hj : (s.move i c r).calls[j]? = some d) (hpc : d.pc = .storeEnv m) :
    (∃ v, env = some v ∧ m = initMask v) ∧ (s.move i c r).filterState = .initializing ∧
      ∀ (k : ℕ) (e : Call Op Pc), (s.move i c r).calls[k]? = some e →
        e.pc ≠ .storeEnvState ∧ ∀ m', e.pc = .storeEnv m' → k = j := by
  rcases cell_of_set hj with ⟨rfl, rfl⟩ | ⟨hij, hj'⟩
  · obtain ⟨hnew, hold, hvalue⟩ := hm.storeEnv m hpc
    refine ⟨hvalue, hnew, fun k e hk => ?_⟩
    rcases cell_of_set hk with ⟨rfl, rfl⟩ | ⟨-, hk'⟩
    · refine ⟨?_, fun _ _ => rfl⟩
      rw [show r.2.2 = .storeEnv m from hpc]
      exact fun he => by cases he
    · refine ⟨fun he => h.storing e (List.mem_of_getElem? hk') he hold, fun m' he => ?_⟩
      obtain ⟨-, hstate, -⟩ := h.winner k e m' hk' he
      rw [hold] at hstate
      cases hstate
  · obtain ⟨hvalue, -, hothers⟩ := h.winner j d m hj' hpc
    refine ⟨hvalue, h.initializing_kept hi hm hj' hpc, fun k e hk => ?_⟩
    rcases cell_of_set hk with ⟨rfl, rfl⟩ | ⟨-, hk'⟩
    · constructor
      · intro he
        obtain ⟨m', hm'⟩ := hm.storeEnvState he
        exact hij ((hothers k c hi).2 m' hm').symm
      · intro m' he
        obtain ⟨-, hold, -⟩ := hm.storeEnv m' he
        obtain ⟨-, hstate, -⟩ := h.winner j d m hj' hpc
        rw [hold] at hstate
        cases hstate
    · exact hothers k e hk'

/-- A filter that has left its first state does not return to it. -/
theorem Moves.left (hm : Moves env s c.op c.pc r) (h : s.filterState ≠ .uninitialized) :
    r.2.1 ≠ .uninitialized := by
  rcases hm.state with hsame | ⟨hinit, -⟩ | ⟨hinit, -⟩
  · rw [hsame]
    exact h
  · rw [hinit]
    decide
  · rw [hinit]
    decide

/-- A step of a call keeps the machine's invariant, on the condition. -/
theorem Machine.move (h : Machine env s) (hi : s.calls[i]? = some c)
    (hm : Moves env s c.op c.pc r) (hok : StoreOk env s c) : Machine env (s.move i c r) where
  after := by
    have hpc : c.pc.isDone ≠ true := ne_true_of_eq_false hm.notDone
    intro j d hj k hk
    rcases cell_of_set hj with ⟨-, rfl⟩ | ⟨-, hj'⟩
    · exact exists_cell_set hi (fun hdone => absurd hdone hpc) (h.after i c hi k hk)
    · exact exists_cell_set hi (fun hdone => absurd hdone hpc) (h.after j d hj' k hk)
  legal := forall_mem_set h.legal (hm.legal (h.legal c (List.mem_of_getElem? hi)))
  settled := by
    intro d hd hsettled
    rcases mem_move hd with rfl | hd
    · rcases hm.settled hsettled with hinit | hold
      · exact hinit
      · exact hm.initialized (h.settled c (List.mem_of_getElem? hi) hold)
    · exact hm.initialized (h.settled d hd hsettled)
  started := by
    intro hstate
    have hlegal := h.legal c (List.mem_of_getElem? hi)
    have huse : c.op.isUse = true → ∃ d ∈ (s.move i c r).calls, d.op.isUse = true := fun huse =>
      (exists_use_move hi).mpr ⟨c, List.mem_of_getElem? hi, huse⟩
    by_cases hold : s.filterState = .uninitialized
    · rcases hm.state with hsame | ⟨-, hp | hp | hp⟩ | ⟨-, hp, -⟩
      · exact absurd (hsame.trans hold) hstate
      · refine Or.inr ⟨_, List.mem_set (List.getElem?_eq_some_iff.mp hi).1 _, ?_, hm.returns hp⟩
        rw [hp] at hlegal
        simpa [legalAt] using hlegal
      · rw [hp] at hlegal
        exact Or.inl (huse hlegal)
      · rw [hp] at hlegal
        exact Or.inl (huse hlegal)
      · rw [hp] at hlegal
        exact Or.inl (huse hlegal)
    · rcases h.started hold with hbegun | hdone
      · exact Or.inl ((exists_use_move hi).mpr hbegun)
      · refine Or.inr (exists_mem_set hi hdone fun hc => ?_)
        rw [hm.notDone] at hc
        cases hc.2
  clean := fun hp => h.clean_move hi hm hok hp
  winner := fun j d m hj hpc => h.winner_move hi hm hj hpc
  storing := by
    intro d hd hpc
    rcases mem_move hd with rfl | hd
    · obtain ⟨m, hstore⟩ := hm.storeEnvState hpc
      have hkept : (s.move i c r).filterState = .initializing :=
        h.initializing_kept hi hm hi hstore
      rw [hkept]
      decide
    · exact hm.left (h.storing d hd hpc)
  marking := by
    intro d hd hpc henv
    rcases mem_move hd with rfl | hd
    · rcases hm.storeInitState hpc with hinit | hnone
      · exact hinit
      · rw [hnone] at henv
        cases henv
    · exact hm.initialized (h.marking d hd hpc henv)

/-- The condition where a call begins. -/
def BeginOk (env : Option (List Char)) (s : State) (op : Op) : Prop :=
  env.isSome = true → op.isUse = true → (∀ c ∈ s.calls, c.op.isUse = false) →
    s.filterState ≠ .initialized → ∀ c ∈ s.calls, c.pc ≠ .storeState

/-- The calls behind a beginning. -/
theorem mem_begin {op : Op} {d : Call Op Pc} (h : d ∈ (s.begin op).calls) :
    d ∈ s.calls ∨ d = ⟨op, op.start, finished Pc.isDone s.calls⟩ :=
  (List.mem_append.mp h).imp_right List.mem_singleton.mp

/-- A call that was there still is. -/
theorem cell_begin {op : Op} (h : s.calls[i]? = some c) : (s.begin op).calls[i]? = some c := by
  obtain ⟨hlt, -⟩ := List.getElem?_eq_some_iff.mp h
  rw [State.begin, List.getElem?_append_left hlt]
  exact h

/-- A call begins with nothing stored. -/
theorem start_facts (op : Op) : legalAt op op.start = true ∧ hasSettled op.start = false ∧
    (op.isUse = false → hasStored op.start = false) ∧ (∀ m, op.start ≠ .storeEnv m) ∧
    op.start ≠ .storeEnvState ∧ op.start ≠ .storeInitState := by
  cases op <;> simp [Op.start, legalAt, hasSettled, hasStored, Op.isUse]

/-- The first check begins while no call has stored its mask. -/
theorem Machine.none_stored (h : Machine env s) {op : Op} (hok : BeginOk env s op)
    (henv : env.isSome = true) (huse : op.isUse = true) (hfirst : ∀ c ∈ s.calls, c.op.isUse = false)
    (hstate : s.filterState ≠ .initialized) : ∀ c ∈ s.calls, hasStored c.pc = false := by
  intro c hc
  have hstore := hok henv huse hfirst hstate c hc
  cases hpc : c.pc with
  | storeState => exact absurd hpc hstore
  | done a => exact absurd (h.settled c hc (by rw [hpc]; rfl)) hstate
  | _ => rfl

/-- A call that begins keeps the machine's invariant, on the condition. -/
theorem Machine.begin (h : Machine env s) {op : Op} (hok : BeginOk env s op) :
    Machine env (s.begin op) where
  after := by
    intro j d hj k hk
    rcases cell_of_append hj with hj' | ⟨-, rfl⟩
    · obtain ⟨e, hcell, hdone⟩ := h.after j d hj' k hk
      exact ⟨e, cell_begin hcell, hdone⟩
    · obtain ⟨e, hcell, hdone⟩ := mem_finished hk
      exact ⟨e, cell_begin hcell, hdone⟩
  legal := by
    intro d hd
    rcases mem_begin hd with hd | rfl
    · exact h.legal d hd
    · exact (start_facts op).1
  settled := by
    intro d hd hsettled
    rcases mem_begin hd with hd | rfl
    · exact h.settled d hd hsettled
    · rw [(start_facts op).2.1] at hsettled
      cases hsettled
  started := by
    intro hstate
    rcases h.started hstate with ⟨d, hd, huse⟩ | ⟨d, hd, hdone⟩
    · exact Or.inl ⟨d, List.mem_append_left _ hd, huse⟩
    · exact Or.inr ⟨d, List.mem_append_left _ hd, hdone⟩
  clean := by
    intro hp d hd hexplicit
    rcases mem_begin hd with hd | rfl
    · by_cases hbegun : ∃ c ∈ s.calls, c.op.isUse = true
      · have hbefore : Pending env s := ⟨hp.value, hbegun, hp.state, fun e he =>
          hp.notStored e (List.mem_append_left _ he)⟩
        exact h.clean hbefore d hd hexplicit
      · have hfirst : ∀ c ∈ s.calls, c.op.isUse = false := fun c hc =>
          Bool.eq_false_iff.mpr fun huse => hbegun ⟨c, hc, huse⟩
        obtain ⟨e, he, huse⟩ := hp.use
        rcases mem_begin he with he | rfl
        · exact absurd ⟨e, he, huse⟩ hbegun
        · exact h.none_stored hok hp.value huse hfirst hp.state d hd
    · exact (start_facts op).2.2.1 hexplicit
  winner := by
    intro j d m hj hpc
    rcases cell_of_append hj with hj' | ⟨-, rfl⟩
    · obtain ⟨hvalue, hstate, hothers⟩ := h.winner j d m hj' hpc
      refine ⟨hvalue, hstate, fun k e hk => ?_⟩
      rcases cell_of_append hk with hk' | ⟨-, rfl⟩
      · exact hothers k e hk'
      · exact ⟨(start_facts op).2.2.2.2.1, fun m' he => absurd he ((start_facts op).2.2.2.1 m')⟩
    · exact absurd hpc ((start_facts op).2.2.2.1 m)
  storing := by
    intro d hd hpc
    rcases mem_begin hd with hd | rfl
    · exact h.storing d hd hpc
    · exact absurd hpc (start_facts op).2.2.2.2.1
  marking := by
    intro d hd hpc henv
    rcases mem_begin hd with hd | rfl
    · exact h.marking d hd hpc henv
    · exact absurd hpc (start_facts op).2.2.2.2.2

/-! ## One call after the other -/

/-- Some call was executed. -/
theorem sequential_flag {ops : List Op} (h : ops ≠ []) : (sequential env ops).2 = true := by
  have hexecute : ∀ s op, (Op.execute env s op).2 = true := by
    intro s op
    unfold Op.execute
    split <;> rfl
  obtain ⟨front, op, rfl⟩ := (List.eq_nil_or_concat ops).resolve_left h
  rw [sequential, List.concat_eq_append, List.foldl_append]
  exact hexecute _ op

/-- One more call. -/
theorem sequential_concat (ops : List Op) (op : Op) :
    sequential env (ops ++ [op]) = Op.execute env (sequential env ops) op := by
  rw [sequential, List.foldl_append]
  rfl

/-- Once a call was executed, a check changes nothing. -/
theorem sequential_use {ops : List Op} {op : Op} (h : ops ≠ []) (huse : op.isUse = true) :
    (sequential env (ops ++ [op])).1 = (sequential env ops).1 := by
  rw [sequential_concat, Op.execute, if_pos huse, if_pos (sequential_flag h)]

/-- A check that comes first, without an environment, changes nothing. -/
theorem sequential_cons_use {ops : List Op} {op : Op} (henv : env = none)
    (huse : op.isUse = true) : (sequential env (op :: ops)).1 = (sequential env ops).1 := by
  have hskip : ∀ (ops : List Op) (m : UInt8) (b b' : Bool),
      (ops.foldl (Op.execute none) (m, b)).1 = (ops.foldl (Op.execute none) (m, b')).1 := by
    intro ops
    induction ops with
    | nil => exact fun _ _ _ => rfl
    | cons op ops ih =>
      intro m b b'
      have hsame : Op.execute none (m, b) op = Op.execute none (m, b') op := by
        unfold Op.execute
        split
        · cases b <;> cases b' <;> rfl
        · rfl
      rw [List.foldl_cons, List.foldl_cons, hsame]
  subst henv
  have hfirst : Op.execute none (0, false) op = (0, true) := by
    rw [Op.execute, if_pos huse]
    rfl
  rw [sequential, List.foldl_cons, hfirst]
  exact hskip ops 0 true false

/-- Checks alone leave the mask of the environment. -/
theorem sequential_uses {ops : List Op} {v : List Char} (henv : env = some v) (hne : ops ≠ [])
    (huse : ∀ op ∈ ops, op.isUse = true) : (sequential env ops).1 = initMask v := by
  subst henv
  have hkept : ∀ ops : List Op, (∀ op ∈ ops, op.isUse = true) →
      ops.foldl (Op.execute (some v)) (initMask v, true) = (initMask v, true) := by
    intro ops
    induction ops with
    | nil => exact fun _ => rfl
    | cons op ops ih =>
      intro hall
      obtain ⟨hop, hrest⟩ := List.forall_mem_cons.mp hall
      rw [List.foldl_cons, Op.execute, if_pos hop]
      exact ih hrest
  cases ops with
  | nil => exact absurd rfl hne
  | cons op ops =>
    obtain ⟨hop, hrest⟩ := List.forall_mem_cons.mp huse
    have hfirst : Op.execute (some v) (0, false) op = (initMask v, true) := by
      rw [Op.execute, if_pos hop]
      rfl
    rw [sequential, List.foldl_cons, hfirst, hkept ops hrest]

/-- A call that does not load the mask stores the same over any. -/
theorem apply_of_not_loads {op : Op} (huse : op.isUse = false) (hloads : op.loads = false)
    (m m' : UInt8) : op.apply m = op.apply m' := by
  cases op with
  | enableLevels levels => cases hloads
  | disableLevels levels => cases hloads
  | shouldLog level => cases huse
  | clearFilter => rfl
  | initFromValue value => rfl

/-! ## Orders -/

/-- What an order holds while the calls take steps. -/
structure Ordered (env : Option (List Char)) (s : State) (order : List ℕ) : Prop where
  nodup : order.Nodup
  mem : ∀ i : ℕ, i ∈ order ↔
    ∃ c : Call Op Pc, s.calls[i]? = some c ∧ (c.op.isUse = true ∨ hasStored c.pc = true)
  realTime : RealTime s.calls order
  head : ∀ i, FirstUse s i → (∀ j ∈ afterOf s.calls i, UseAt s j) → order.head? = some i
  value : ¬ Pending env s → s.enabled = (sequential env (opsOf s.calls order)).1

variable {order : List ℕ}

/-- Numbers in an order are those of calls. -/
theorem Ordered.lt (h : Ordered env s order) : ∀ j ∈ order, j < s.calls.length := by
  intro j hj
  obtain ⟨c, hc, -⟩ := (h.mem j).mp hj
  exact (List.getElem?_eq_some_iff.mp hc).1

/-- A step leaves who is a check. -/
theorem useAt_move (hi : s.calls[i]? = some c) (j : ℕ) : UseAt (s.move i c r) j ↔ UseAt s j :=
  ⟨exists_cell_of_set hi id, exists_cell_set hi id⟩

/-- A step leaves what the head of an order must be. -/
theorem Ordered.head_move (h : Ordered env s order) (hi : s.calls[i]? = some c) :
    ∀ j, FirstUse (s.move i c r) j → (∀ k ∈ afterOf (s.move i c r).calls j,
      UseAt (s.move i c r) k) → order.head? = some j := by
  intro j hfirst hafter
  have hcalls : afterOf (s.move i c r).calls j = afterOf s.calls j := afterOf_set hi r.2.2 j
  refine h.head j ⟨(useAt_move hi j).mp hfirst.1, fun k hk hat => ?_⟩ fun k hk => ?_
  · exact hfirst.2 k hk ((useAt_move hi k).mpr hat)
  · rw [hcalls] at hafter
    exact (useAt_move hi k).mp (hafter k hk)

/-- The environment stays pending until its mask is stored. -/
theorem Machine.pending_kept (h : Machine env s) (hi : s.calls[i]? = some c)
    (hm : Moves env s c.op c.pc r) (hp : Pending env s) (hpc : ∀ m, c.pc ≠ .storeEnv m) :
    Pending env (s.move i c r) where
  value := hp.value
  use := (exists_use_move hi).mpr hp.use
  state := by
    have hlegal := h.legal c (List.mem_of_getElem? hi)
    rcases hm.state with hsame | ⟨-, hmark⟩ | ⟨hinit, -⟩
    · rw [State.move, hsame]
      exact hp.state
    · rcases hmark with hc | hc | hc
      · rw [hc] at hlegal
        have hclean := h.clean hp c (List.mem_of_getElem? hi) (by simpa [legalAt] using hlegal)
        rw [hc] at hclean
        cases hclean
      · exact absurd hc (hp.notStored c (List.mem_of_getElem? hi))
      · exact absurd (h.marking c (List.mem_of_getElem? hi) hc hp.value) hp.state
    · rw [State.move, hinit]
      exact fun hstate => by cases hstate
  notStored := by
    intro d hd hstored
    rcases mem_move hd with rfl | hd
    · obtain ⟨m, hc⟩ := hm.storeEnvState hstored
      exact hpc m hc
    · exact hp.notStored d hd hstored

/-- While the environment is pending, an order is one of checks. -/
theorem Ordered.uses (h : Ordered env s order) (hmachine : Machine env s) (hp : Pending env s) :
    ∀ op ∈ opsOf s.calls order, op.isUse = true := by
  intro op hop
  obtain ⟨j, hj, hget⟩ := List.mem_filterMap.mp hop
  obtain ⟨d, hd, rfl⟩ := Option.map_eq_some_iff.mp hget
  obtain ⟨d', hd', hplace⟩ := (h.mem j).mp hj
  obtain rfl := Option.some.inj (hd.symm.trans hd')
  rcases hplace with huse | hstored
  · exact huse
  · refine Bool.of_not_eq_false fun hexplicit => ?_
    rw [hmachine.clean hp d (List.mem_of_getElem? hd) hexplicit] at hstored
    cases hstored

/-- Where the mask of the environment is stored, it is the mask of the order. -/
theorem Ordered.value_winner (h : Ordered env s order) (hmachine : Machine env s)
    (hi : s.calls[i]? = some c) (hm : Moves env s c.op c.pc r) {m : UInt8}
    (hpc : c.pc = .storeEnv m) : r.1 = (sequential env (opsOf s.calls order)).1 := by
  obtain ⟨⟨v, henv, rfl⟩, -⟩ := hmachine.winner i c m hi hpc
  have huses := h.uses hmachine (hmachine.pending_of_winner hi hpc)
  have hlegal := hmachine.legal c (List.mem_of_getElem? hi)
  rw [hpc] at hlegal
  have hmem : c.op ∈ opsOf s.calls order := List.mem_filterMap.mpr
    ⟨i, (h.mem i).mpr ⟨c, hi, Or.inl hlegal⟩, by rw [hi]; rfl⟩
  rw [sequential_uses henv (List.ne_nil_of_mem hmem) huses]
  exact (hm.storesEnv _ hpc).2

/-- A step that stores no call's mask leaves the order. -/
theorem Ordered.move (h : Ordered env s order) (hmachine : Machine env s)
    (hi : s.calls[i]? = some c) (hm : Moves env s c.op c.pc r)
    (hpc : ∀ l, c.pc ≠ .storeEnabled l) : Ordered env (s.move i c r) order where
  nodup := h.nodup
  mem := by
    intro j
    rw [h.mem]
    refine ⟨exists_cell_set hi (Or.imp_right hm.kept), exists_cell_of_set hi fun hplace => ?_⟩
    refine hplace.elim Or.inl fun hstored => ?_
    rcases hm.stored hstored with hold | ⟨l, hl⟩ | hread
    · exact Or.inr hold
    · exact absurd hl (hpc l)
    · have hlegal := hmachine.legal c (List.mem_of_getElem? hi)
      rw [hread] at hlegal
      exact Or.inl hlegal
  realTime := h.realTime.set hi _
  head := h.head_move hi
  value := by
    intro hnot
    have hops : opsOf (s.move i c r).calls order = opsOf s.calls order := opsOf_set hi r.2.2 order
    rw [hops]
    by_cases hwin : ∃ m, c.pc = .storeEnv m
    · obtain ⟨m, hstore⟩ := hwin
      exact h.value_winner hmachine hi hm hstore
    · have hwin' : ∀ m, c.pc ≠ .storeEnv m := fun m hc => hwin ⟨m, hc⟩
      have hbefore : ¬ Pending env s := fun hp => hnot (hmachine.pending_kept hi hm hp hwin')
      rw [← h.value hbefore]
      rcases hm.enabled with hsame | ⟨l, hl, -⟩ | hstore
      · exact hsame
      · exact absurd hl (hpc l)
      · exact absurd hstore (hwin' _)

/-- A call that stores its mask takes its place behind the others. -/
theorem Ordered.store (h : Ordered env s order) (hmachine : Machine env s)
    (hi : s.calls[i]? = some c) (hm : Moves env s c.op c.pc r) {l : UInt8}
    (hpc : c.pc = .storeEnabled l) (hok : StoreOk env s c) :
    Ordered env (s.move i c r) (order ++ [i]) := by
  obtain ⟨hload, hclear⟩ := hok l hpc
  obtain ⟨hstored, hvalue⟩ := hm.stores l hpc
  obtain ⟨hlt, -⟩ := List.getElem?_eq_some_iff.mp hi
  have hexplicit : c.op.isUse = false := by
    have hlegal := hmachine.legal c (List.mem_of_getElem? hi)
    rw [hpc] at hlegal
    simpa [legalAt] using hlegal
  have hnew : i ∉ order := by
    intro hin
    obtain ⟨d, hd, hplace⟩ := (h.mem i).mp hin
    obtain rfl := Option.some.inj (hi.symm.trans hd)
    rw [hexplicit, hpc] at hplace
    exact hplace.elim (fun hc => by cases hc) fun hc => by cases hc
  refine ⟨List.concat_eq_append ▸ h.nodup.concat hnew, ?_, ?_, ?_, ?_⟩
  · intro j
    rw [List.mem_append, List.mem_singleton, h.mem]
    constructor
    · rintro (⟨d, hd, hplace⟩ | rfl)
      · have hij : i ≠ j := by
          rintro rfl
          exact hnew ((h.mem i).mpr ⟨d, hd, hplace⟩)
        refine ⟨d, ?_, hplace⟩
        rw [State.move, List.getElem?_set_ne hij]
        exact hd
      · exact ⟨_, List.getElem?_set_self hlt, Or.inr hstored⟩
    · rintro ⟨d, hd, hplace⟩
      rcases cell_of_set hd with ⟨rfl, -⟩ | ⟨-, hd'⟩
      · exact Or.inr rfl
      · exact Or.inl ⟨d, hd', hplace⟩
  · refine (h.realTime.set hi _).concat fun a ha hin => ?_
    rw [afterOf_set hi] at hin
    obtain ⟨d, hd, -⟩ := (h.mem a).mp ha
    rw [afterOf, hd] at hin
    obtain ⟨e, he, hdone⟩ := hmachine.after a d hd i hin
    obtain rfl := Option.some.inj (hi.symm.trans he)
    rw [hm.notDone] at hdone
    cases hdone
  · intro j hfirst hafter
    rw [List.head?_append, h.head_move hi j hfirst hafter]
    rfl
  · intro _
    have hops : opsOf (s.move i c r).calls (order ++ [i]) = opsOf s.calls order ++ [c.op] := by
      have hone : opsOf s.calls [i] = [c.op] := by simp [opsOf, hi]
      have hsplit : opsOf s.calls (order ++ [i]) = opsOf s.calls order ++ opsOf s.calls [i] :=
        List.filterMap_append
      rw [← hone, ← hsplit]
      exact opsOf_set hi r.2.2 (order ++ [i])
    rw [hops, sequential_concat, Op.execute, if_neg (by rw [hexplicit]; decide),
      ← h.value hclear]
    change r.1 = c.op.apply s.enabled
    rw [hvalue]
    by_cases hloads : c.op.loads = true
    · rw [hload hloads]
    · exact apply_of_not_loads hexplicit (Bool.eq_false_iff.mpr hloads) _ _

/-- A beginning leaves who is a check among the others. -/
theorem useAt_begin {op : Op} {j : ℕ} (hj : j < s.calls.length) :
    UseAt (s.begin op) j ↔ UseAt s j := by
  unfold UseAt State.begin
  rw [List.getElem?_append_left hj]

/-- The call that begins is a check if its operation is. -/
theorem useAt_new (op : Op) : UseAt (s.begin op) s.calls.length ↔ op.isUse = true := by
  unfold UseAt State.begin
  rw [List.getElem?_concat_length]
  constructor
  · rintro ⟨d, hd, huse⟩
    obtain rfl := Option.some.inj hd
    exact huse
  · exact fun huse => ⟨_, rfl, huse⟩

/-- Only calls that have begun are checks. -/
theorem useAt_lt {j : ℕ} (h : UseAt s j) : j < s.calls.length := by
  obtain ⟨c, hc, -⟩ := h
  exact (List.getElem?_eq_some_iff.mp hc).1

/-- A check is one of the others, or the call that begins. -/
theorem useAt_begin_cases {op : Op} {j : ℕ} (h : UseAt (s.begin op) j) :
    j < s.calls.length ∨ j = s.calls.length := by
  have hlt := useAt_lt h
  rw [State.begin, List.length_append, List.length_singleton] at hlt
  omega

/-- What came before a call, when another begins. -/
theorem afterOf_begin {op : Op} {j : ℕ} (hj : j < s.calls.length) :
    afterOf (s.begin op).calls j = afterOf s.calls j := afterOf_append hj _

/-- What came before the call that begins. -/
theorem afterOf_begin_new (op : Op) :
    afterOf (s.begin op).calls s.calls.length = finished Pc.isDone s.calls :=
  afterOf_new s.calls _

/-- A beginning leaves what the head of an order must be, unless the first check begins. -/
theorem Ordered.head_begin (h : Ordered env s order) (hmachine : Machine env s) {op : Op} {j : ℕ}
    (hj : j < s.calls.length) (hfirst : FirstUse (s.begin op) j)
    (hafter : ∀ k ∈ afterOf (s.begin op).calls j, UseAt (s.begin op) k) :
    order.head? = some j := by
  rw [afterOf_begin hj] at hafter
  refine h.head j ⟨(useAt_begin hj).mp hfirst.1, fun k hk hat => ?_⟩ fun k hk => ?_
  · exact hfirst.2 k hk ((useAt_begin (useAt_lt hat)).mpr hat)
  · obtain ⟨c, hc, -⟩ := hfirst.1
    have hlt : k < s.calls.length := by
      obtain ⟨d, hd⟩ : ∃ d, s.calls[j]? = some d := ⟨_, List.getElem?_eq_getElem hj⟩
      rw [afterOf, hd] at hk
      obtain ⟨e, he, -⟩ := hmachine.after j d hd k hk
      exact (List.getElem?_eq_some_iff.mp he).1
    exact (useAt_begin hlt).mp (hafter k hk)

/-- What is in an order, when a call begins. -/
theorem Ordered.mem_begin (h : Ordered env s order) (op : Op) (j : ℕ) :
    (∃ c : Call Op Pc, (s.begin op).calls[j]? = some c ∧
      (c.op.isUse = true ∨ hasStored c.pc = true)) ↔
        j ∈ order ∨ (j = s.calls.length ∧ op.isUse = true) := by
  rw [h.mem]
  constructor
  · rintro ⟨d, hd, hplace⟩
    rcases cell_of_append hd with hd' | ⟨rfl, rfl⟩
    · exact Or.inl ⟨d, hd', hplace⟩
    · refine Or.inr ⟨rfl, Bool.of_not_eq_false fun hexplicit => ?_⟩
      rcases hplace with huse | hstored
      · exact absurd (huse.symm.trans hexplicit) (by decide)
      · exact absurd (hstored.symm.trans ((start_facts op).2.2.1 hexplicit)) (by decide)
  · rintro (⟨d, hd, hplace⟩ | ⟨rfl, huse⟩)
    · exact ⟨d, cell_begin hd, hplace⟩
    · exact ⟨_, List.getElem?_concat_length, Or.inl huse⟩

/-- What is pending stays so when a call begins. -/
theorem Pending.begin (h : Pending env s) (op : Op) : Pending env (s.begin op) where
  value := h.value
  use := by
    obtain ⟨c, hc, huse⟩ := h.use
    exact ⟨c, List.mem_append_left _ hc, huse⟩
  state := h.state
  notStored := by
    intro d hd
    rcases FilterOrder.mem_begin hd with hd | rfl
    · exact h.notStored d hd
    · exact (start_facts op).2.2.2.2.1

/-- A call other than a check takes no place when it begins. -/
theorem Ordered.begin_explicit (h : Ordered env s order) (hmachine : Machine env s) {op : Op}
    (hexplicit : op.isUse = false) : Ordered env (s.begin op) order where
  nodup := h.nodup
  mem := by
    intro j
    rw [h.mem_begin op j, hexplicit]
    simp
  realTime := h.realTime.append h.lt _
  head := by
    intro j hfirst hafter
    have hlt : j < s.calls.length := by
      rcases useAt_begin_cases hfirst.1 with hlt | rfl
      · exact hlt
      · rw [(useAt_new op).mp hfirst.1] at hexplicit
        cases hexplicit
    exact h.head_begin hmachine hlt hfirst hafter
  value := by
    intro hnot
    have hops : opsOf (s.begin op).calls order = opsOf s.calls order := opsOf_append h.lt _
    rw [hops]
    exact h.value fun hp => hnot (hp.begin op)

/-- A check takes its place behind the others, if another check has begun or a call has returned. -/
theorem Ordered.begin_later (h : Ordered env s order) (hmachine : Machine env s) {op : Op}
    (huse : op.isUse = true)
    (hlater : ∃ c ∈ s.calls, c.op.isUse = true ∨ c.pc.isDone = true) :
    Ordered env (s.begin op) (order ++ [s.calls.length]) := by
  obtain ⟨c, hc, hplace⟩ := hlater
  obtain ⟨i, hi⟩ := List.mem_iff_getElem?.mp hc
  have hdone : c.pc.isDone = true → hasStored c.pc = true := by
    cases hpc : c.pc <;> simp [Pc.isDone, hasStored]
  have hin : i ∈ order := (h.mem i).mpr ⟨c, hi, hplace.imp_right hdone⟩
  have hnew : s.calls.length ∉ order := fun hmem => Nat.lt_irrefl _ (h.lt _ hmem)
  refine ⟨List.concat_eq_append ▸ h.nodup.concat hnew, ?_, ?_, ?_, ?_⟩
  · intro j
    rw [h.mem_begin op j, List.mem_append, List.mem_singleton]
    exact or_congr_right (and_iff_left huse).symm
  · refine (h.realTime.append h.lt _).concat fun a ha hmem => ?_
    obtain ⟨d, hd, -⟩ := (h.mem a).mp ha
    rw [afterOf_append (h.lt a ha), afterOf, hd] at hmem
    obtain ⟨e, he, -⟩ := hmachine.after a d hd _ hmem
    exact Nat.lt_irrefl _ (List.getElem?_eq_some_iff.mp he).1
  · intro j hfirst hafter
    rcases useAt_begin_cases hfirst.1 with hlt | rfl
    · rw [List.head?_append, h.head_begin hmachine hlt hfirst hafter]
      rfl
    · -- the first check, with a call that had returned: that call is no check
      have hlt := (List.getElem?_eq_some_iff.mp hi).1
      have hnot : ¬ c.op.isUse = true := fun hcuse =>
        hfirst.2 i hlt ((useAt_begin hlt).mpr ⟨c, hi, hcuse⟩)
      have hreturned := hplace.resolve_left hnot
      have hfinished : i ∈ afterOf (s.begin op).calls s.calls.length := by
        rw [afterOf_begin_new]
        exact finished_of_done hi hreturned
      obtain ⟨d, hd, hduse⟩ := (useAt_begin hlt).mp (hafter i hfinished)
      obtain rfl := Option.some.inj (hi.symm.trans hd)
      exact absurd hduse hnot
  · intro hpending
    have hbefore : opsOf (s.begin op).calls order = opsOf s.calls order := opsOf_append h.lt _
    have hops : opsOf (s.begin op).calls (order ++ [s.calls.length]) =
        opsOf s.calls order ++ [op] := by
      have hone : opsOf (s.begin op).calls [s.calls.length] = [op] := by
        simp [opsOf, State.begin]
      rw [← hbefore, ← hone]
      exact List.filterMap_append
    have hmem : c.op ∈ opsOf s.calls order := List.mem_filterMap.mpr ⟨i, hin, by rw [hi]; rfl⟩
    rw [hops, sequential_use (List.ne_nil_of_mem hmem) huse]
    exact h.value fun hp => hpending (hp.begin op)

/-- The first check comes first, if no call has returned when it begins. -/
theorem Ordered.begin_first (h : Ordered env s order) (hmachine : Machine env s) {op : Op}
    (huse : op.isUse = true)
    (hfirst : ∀ c ∈ s.calls, c.op.isUse = false ∧ c.pc.isDone = false) :
    Ordered env (s.begin op) (s.calls.length :: order) := by
  have hnew : s.calls.length ∉ order := fun hmem => Nat.lt_irrefl _ (h.lt _ hmem)
  refine ⟨List.nodup_cons.mpr ⟨hnew, h.nodup⟩, ?_, ?_, ?_, ?_⟩
  · intro j
    rw [h.mem_begin op j, List.mem_cons, or_comm]
    exact or_congr_right (and_iff_left huse).symm
  · refine (h.realTime.append h.lt _).cons fun b _ hmem => ?_
    rw [afterOf_new] at hmem
    obtain ⟨d, hd, hdone⟩ := mem_finished hmem
    rw [(hfirst d (List.mem_of_getElem? hd)).2] at hdone
    cases hdone
  · intro j hj _
    rcases useAt_begin_cases hj.1 with hlt | rfl
    · obtain ⟨d, hd, hduse⟩ := (useAt_begin hlt).mp hj.1
      rw [(hfirst d (List.mem_of_getElem? hd)).1] at hduse
      cases hduse
    · rfl
  · intro hpending
    have hbefore : opsOf (s.begin op).calls order = opsOf s.calls order := opsOf_append h.lt _
    have hops : opsOf (s.begin op).calls (s.calls.length :: order) = op :: opsOf s.calls order := by
      have hone : (s.begin op).calls[s.calls.length]?.map Call.op = some op := by
        simp [State.begin]
      rw [← hbefore]
      exact List.filterMap_cons_some hone
    cases henv : env with
    | none =>
      have hclear : ¬ Pending env s := fun hp => hpending (hp.begin op)
      rw [hops, sequential_cons_use rfl huse, ← henv]
      exact h.value hclear
    | some v =>
      refine absurd ⟨by rw [henv]; rfl, ?_, ?_, ?_⟩ hpending
      · exact ⟨_, List.mem_append_right _ List.mem_cons_self, huse⟩
      · intro hinit
        have hstate : s.filterState = .initialized := hinit
        have hleft : s.filterState ≠ .uninitialized := by
          rw [hstate]
          decide
        rcases hmachine.started hleft with ⟨d, hd, hduse⟩ | ⟨d, hd, -, hdone⟩
        · rw [(hfirst d hd).1] at hduse
          cases hduse
        · rw [(hfirst d hd).2] at hdone
          cases hdone
      · intro d hd hpc
        rcases FilterOrder.mem_begin hd with hd | rfl
        · have hlegal := hmachine.legal d hd
          rw [hpc] at hlegal
          exact absurd (hlegal.symm.trans (hfirst d hd).1) (by decide)
        · exact (start_facts op).2.2.2.2.1 hpc

/-! ## Runs -/

/-- Some order holds. -/
structure Inv (env : Option (List Char)) (s : State) : Prop where
  machine : Machine env s
  ordered : ∃ order, Ordered env s order

/-- Nothing has begun. -/
theorem inv_init : Inv env init where
  machine :=
    { after := fun _ _ h => by cases h
      legal := fun _ h => by cases h
      settled := fun _ h => by cases h
      started := fun h => absurd rfl h
      clean := fun _ _ h => by cases h
      winner := fun _ _ _ h => by cases h
      storing := fun _ h => by cases h
      marking := fun _ h => by cases h }
  ordered := by
    refine ⟨[], List.nodup_nil, fun i => ?_, List.Pairwise.nil, fun i h => ?_, fun _ => rfl⟩
    · refine iff_of_false List.not_mem_nil ?_
      rintro ⟨c, hc, -⟩
      cases hc
    · obtain ⟨⟨c, hc, -⟩, -⟩ := h
      cases hc

/-- Every action keeps an order, on the condition. -/
theorem inv_step {a : Action} (h : Inv env s) (hok : careful env s a = true)
    (hs : step env s a = some s') : Inv env s' := by
  obtain ⟨order, hordered⟩ := h.ordered
  cases a with
  | call op =>
    obtain rfl := Option.some.inj hs
    have hbegin : BeginOk env s op := by
      intro henv huse hfirst hstate c hc hpc
      have hnone : (s.calls.any fun c => c.op.isUse) = false :=
        List.any_eq_false.mpr fun d hd => by rw [hfirst d hd]; decide
      have hbetween : betweenStores s = true :=
        List.any_eq_true.mpr ⟨c, hc, decide_eq_true hpc⟩
      simp only [careful, henv, huse, hnone, hbetween, decide_eq_true hstate] at hok
      cases hok
    refine ⟨h.machine.begin hbegin, ?_⟩
    cases huse : op.isUse with
    | false => exact ⟨order, hordered.begin_explicit h.machine huse⟩
    | true =>
      by_cases hlater : ∃ c ∈ s.calls, c.op.isUse = true ∨ c.pc.isDone = true
      · exact ⟨_, hordered.begin_later h.machine huse hlater⟩
      · refine ⟨_, hordered.begin_first h.machine huse fun c hc => ?_⟩
        exact ⟨Bool.eq_false_iff.mpr fun hcuse => hlater ⟨c, hc, Or.inl hcuse⟩,
          Bool.eq_false_iff.mpr fun hdone => hlater ⟨c, hc, Or.inr hdone⟩⟩
  | step i =>
    obtain ⟨c, hi, hadvance⟩ := Option.bind_eq_some_iff.mp hs
    obtain ⟨r, hr, rfl⟩ := Option.map_eq_some_iff.mp hadvance
    have hm := moves hr
    have hstore : StoreOk env s c := by
      intro l hl
      simp only [careful, hi, Option.all_some, hl, Bool.and_eq_true, Bool.or_eq_true,
        Bool.not_eq_true', beq_iff_eq] at hok
      refine ⟨fun hloads => hok.1.resolve_left (by rw [hloads]; decide), fun hp => ?_⟩
      rw [envPending_iff.mpr hp] at hok
      cases hok.2
    refine ⟨h.machine.move hi hm hstore, ?_⟩
    by_cases hpc : ∃ l, c.pc = .storeEnabled l
    · obtain ⟨l, hl⟩ := hpc
      exact ⟨_, hordered.store h.machine hi hm hl hstore⟩
    · exact ⟨order, hordered.move h.machine hi hm fun l hl => hpc ⟨l, hl⟩⟩

/-- Updates are linearizable on every run whose steps meet the condition: once
all calls have returned, the enabled levels are those of the calls one after the
other, in an order that agrees with real time and reads the environment first. -/
theorem filter_linearizable (env : Option (List Char)) {s : State}
    (h : ReachWhile (step env) (fun s a => careful env s a = true) init s)
    (hdone : s.allDone = true) : Linearizable env s := by
  have hinv : Inv env s := h.invariant inv_init fun _ _ _ hi hok hs => inv_step hi hok hs
  obtain ⟨order, hordered⟩ := hinv.ordered
  have hall : ∀ c ∈ s.calls, c.pc.isDone = true := List.all_eq_true.mp hdone
  have hplaced : ∀ i, i ∈ order ↔ i < s.calls.length := by
    refine fun i => ⟨hordered.lt i, fun hlt => (hordered.mem i).mpr ?_⟩
    have hreturned := hall _ (List.getElem_mem hlt)
    refine ⟨_, List.getElem?_eq_getElem hlt, Or.inr ?_⟩
    revert hreturned
    cases s.calls[i].pc <;> simp [Pc.isDone, hasStored]
  have hclear : ¬ Pending env s := by
    intro hp
    obtain ⟨c, hc, -⟩ := hp.use
    refine hp.state (hinv.machine.settled c hc ?_)
    have hreturned := hall c hc
    revert hreturned
    cases c.pc <;> simp [Pc.isDone, hasSettled]
  refine ⟨order, perm_range hordered.nodup hplaced, hordered.realTime, ?_, ?_⟩
  · exact fun i hfirst hafter => ⟨i, hordered.head i hfirst hafter, hfirst.1⟩
  · rw [← hordered.value hclear]

/-- An environment variable. -/
def errorEnv : Option (List Char) := some "error".toList

/-- A check reads the environment while a level is enabled behind it, and another
call takes the level away. -/
def carefulRun : List Action :=
  [.call (.shouldLog .info), .step 0, .step 0, .step 0, .call (.enableLevels [.info, .warn]),
    .step 1, .step 1, .step 0, .step 1, .step 0, .step 0, .call (.disableLevels [.info]),
    .step 2, .step 2, .step 2]

/-- Three calls have returned, and two levels are left. -/
def threeReturned (s : State) : Bool :=
  s.allDone && s.calls.length == 3 && enabledLevels s.enabled == [.warn, .error]

/-- On such a run the updates are linearizable. -/
theorem filter_linearizable_three :
    ∃ s, ReachWhile (step errorEnv) (fun s a => careful errorEnv s a = true) init s ∧
      threeReturned s = true ∧ Linearizable errorEnv s := by
  obtain ⟨s, hs, hthree⟩ := exists_reach_of_replay (step errorEnv)
    (fun s a (h : careful errorEnv s a = true) => h) init carefulRun threeReturned
    (by decide +kernel)
  have hdone : s.allDone = true := by
    unfold threeReturned at hthree
    exact ((Bool.and_eq_true _ _).mp ((Bool.and_eq_true _ _).mp hthree).1).1
  exact ⟨s, hs, hthree, filter_linearizable errorEnv hs hdone⟩

/-- All calls have returned, and no order of them leaves the levels that are enabled. -/
def noOrder (env : Option (List Char)) (s : State) : Bool :=
  s.allDone && (List.range s.calls.length).permutations'.all fun order =>
    decide (enabledLevels s.enabled ≠ enabledLevels (sequential env (opsOf s.calls order)).1)

/-- Then the updates are not linearizable. -/
theorem not_linearizable {env : Option (List Char)} (h : noOrder env s = true) :
    s.allDone = true ∧ ¬ Linearizable env s := by
  obtain ⟨hdone, hall⟩ := (Bool.and_eq_true _ _).mp h
  refine ⟨hdone, ?_⟩
  rintro ⟨order, hperm, -, -, hlevels⟩
  have hnot := List.all_eq_true.mp hall order (List.mem_permutations'.mpr hperm)
  exact of_decide_eq_true hnot hlevels

/-- Two calls load the mask before either stores it, and one update is lost; the
environment that the first check reads overwrites a call that was made meanwhile. -/
theorem filter_loses_updates :
    (¬ ∀ s, Reach (step none) init s → s.allDone = true → Linearizable none s) ∧
    ¬ ∀ s, Reach (step errorEnv) init s → s.allDone = true → Linearizable errorEnv s := by
  obtain ⟨s, hs, hlost⟩ := exists_reach (step none) init
    [.call (.enableLevels [.warn]), .call (.enableLevels [.error]), .step 0, .step 1, .step 0,
      .step 1, .step 0, .step 1] (noOrder none) (by decide +kernel)
  obtain ⟨s', hs', hover⟩ := exists_reach (step errorEnv) init
    [.call (.shouldLog .info), .step 0, .step 0, .call (.enableLevels [.info]), .step 1, .step 1,
      .step 1, .step 0, .step 0, .step 0, .step 0] (noOrder errorEnv) (by decide +kernel)
  constructor
  · intro hall
    obtain ⟨hdone, hnot⟩ := not_linearizable hlost
    exact hnot (hall s hs hdone)
  · intro hall
    obtain ⟨hdone, hnot⟩ := not_linearizable hover
    exact hnot (hall s' hs' hdone)

end EdenLogger.FilterOrder
