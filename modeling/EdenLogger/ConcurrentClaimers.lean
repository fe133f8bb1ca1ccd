import EdenLogger.CapacityAccount
import EdenLogger.ListCells

/-!
# Concurrent claimers of one capacity counter

Any number of claimers share a counter. A claim is one atomic access, and a
claim that added before it found no room takes its amount back in a second
one. Granted amounts are released in any order. The capacity bounds what is
granted in every run whose additions all fit a word. A claim that adds first
and passes the largest word wraps the counter, which then admits a second
capacity's worth; for every small capacity some run does so.
-/

namespace EdenLogger.ConcurrentClaimers

open MachineWord LogCollector ListCells CapacityAccount RunRules

/-- A counter with its claimers and the amounts granted. -/
structure Claims where
  /-- The counter. -/
  counter : ℕ
  /-- For each claimer, the amount its failed claim still has to take back. -/
  claimers : List (Option ℕ)
  /-- Granted amounts that are not released. -/
  held : List ℕ

/-- Nothing claimed, by nobody. -/
def Claims.new : Claims := ⟨0, [], []⟩

/-- Atomic accesses, and the arrival of claimers. -/
inductive Access where
  /-- One more claimer. -/
  | join
  /-- A claimer's `claim_amount`, up to the access that decides it. -/
  | claim (i amount : ℕ)
  /-- A claimer takes back its failed claim. -/
  | undo (i : ℕ)
  /-- A granted amount is released. -/
  | release (j : ℕ)

/-- A claim's effect. Amounts are words. -/
def claimStep (capacity : ℕ) (s : Claims) (i amount : ℕ) : Claims :=
  match claimAmount s.counter capacity amount with
  | .refused => s
  | .granted n => { s with counter := n, held := s.held ++ [amount] }
  | .overshot n => { s with counter := n, claimers := s.claimers.set i (some amount) }

/-- One access. -/
def step (capacity : ℕ) (s : Claims) : Access → Option Claims
  | .join => some { s with claimers := s.claimers ++ [none] }
  | .claim i amount =>
    (s.claimers[i]?).bind fun back =>
      if back.isNone && decide (amount ≤ wordMax) then some (claimStep capacity s i amount)
      else none
  | .undo i =>
    (s.claimers[i]?).bind fun back => back.map fun amount =>
      { s with counter := wrappingSub s.counter amount, claimers := s.claimers.set i none }
  | .release j =>
    (s.held[j]?).map fun amount =>
      { s with counter := wrappingSub s.counter amount, held := s.held.eraseIdx j }

/-- What a claimer still has to take back. -/
def pending (back : Option ℕ) : ℕ := back.getD 0

/-- The counter's account. -/
def account (s : Claims) : Account := ⟨s.counter, s.held.sum, (s.claimers.map pending).sum⟩

/-- Whether an optimistic addition, if this access is one, fits a word. -/
def fits (capacity : ℕ) (s : Claims) : Access → Bool
  | .claim _ amount => decide (Fitting capacity s.counter amount)
  | _ => true

/-- The access wraps nothing. -/
def Fits (capacity : ℕ) (s : Claims) (a : Access) : Prop := fits capacity s a = true

/-- Every access is a step of the counter's account. -/
theorem account_step {capacity : ℕ} {s s' : Claims} {a : Access} (hs : step capacity s a = some s')
    (hf : Fits capacity s a) :
    AccountStep capacity (Fitting capacity s.counter) (fun _ => True) (account s) (account s') := by
  cases a with
  | join =>
    cases hs
    refine .same rfl rfl ?_
    simp only [account, List.map_append, List.sum_append]
    rfl
  | claim i amount =>
    simp only [step, Option.bind_eq_some_iff] at hs
    obtain ⟨back, hi, hs⟩ := hs
    split_ifs at hs with hb
    cases hs
    rw [Bool.and_eq_true, Option.isNone_iff_eq_none] at hb
    obtain ⟨rfl, -⟩ := hb
    unfold claimStep
    split
    · exact .same rfl rfl rfl
    · rename_i n hc
      refine .grant hc (of_decide_eq_true hf) rfl ?_ rfl
      simp only [account, List.sum_append, List.sum_singleton]
    · rename_i n hc
      obtain ⟨m, hm, hset⟩ := sum_map_split pending hi
      refine .overshoot hc (of_decide_eq_true hf) rfl rfl ?_
      simp only [account, hm, hset]
      rfl
  | undo i =>
    simp only [step, Option.bind_eq_some_iff, Option.map_eq_some_iff] at hs
    obtain ⟨back, hi, amount, rfl, rfl⟩ := hs
    obtain ⟨m, hm, hset⟩ := sum_map_split pending hi
    refine .undo (k := amount) trivial rfl rfl ?_
    simp only [account, hm, hset]
    rfl
  | release j =>
    simp only [step, Option.map_eq_some_iff] at hs
    obtain ⟨amount, hj, rfl⟩ := hs
    obtain ⟨hlt, rfl⟩ := List.getElem?_eq_some_iff.mp hj
    have hheld := List.CommMonoid.add_sum_eraseIdx hlt
    exact .giveBack trivial rfl (hheld.symm.trans (Nat.add_comm _ _)) rfl

/-- The account is sound in every run whose optimistic additions fit a word. -/
theorem account_sound {capacity : ℕ} {s : Claims} (hcap : capacity ≤ wordMax)
    (h : ReachWhile (step capacity) (Fits capacity) .new s) : (account s).Sound capacity :=
  h.invariant (I := fun s => (account s).Sound capacity) ⟨rfl, Nat.zero_le _, Nat.zero_le _⟩
    fun _ _ _ hi hf hs => (account_step hs hf).sound hcap hi

/-- Without capacity nothing is added. -/
theorem fits_zero {s : Claims} (h : s.counter ≤ wordMax) (a : Access) : Fits 0 s a := by
  cases a with
  | claim i amount =>
    refine decide_eq_true fun hle _ => ?_
    rw [Nat.le_zero.mp hle]
    exact h
  | _ => rfl

/-- A large capacity is never added to optimistically. -/
theorem fits_large {capacity : ℕ} (h : wordMax / 2 < capacity) (s : Claims) (a : Access) :
    Fits capacity s a := by
  cases a with
  | claim i amount => exact decide_eq_true fun _ hsmall => absurd hsmall (by omega)
  | _ => rfl

/-! ## Wrapping the counter -/

/-- A capacity granted, and failed claims of the whole capacity. -/
def crowd (capacity n : ℕ) : Claims :=
  ⟨capacity + n * capacity, none :: List.replicate n (some capacity), [capacity]⟩

/-- A claimer that joins overshoots a full counter. -/
theorem join_overshoots {capacity amount : ℕ} {s : Claims} (hsmall : capacity ≤ wordMax / 2)
    (hle : amount ≤ capacity) (hfull : capacity - amount < s.counter) :
    Reach (step capacity) s
      ⟨wrappingAdd s.counter amount, s.claimers ++ [some amount], s.held⟩ := by
  have hword : amount ≤ wordMax := hle.trans (hsmall.trans (Nat.div_le_self _ _))
  refine (ReachWhile.refl.next (a := .join) trivial rfl).next
    (a := .claim s.claimers.length amount) trivial ?_
  have hcl : claimAmount s.counter capacity amount =
      .overshot (wrappingAdd s.counter amount) := by
    unfold claimAmount
    rw [if_neg (by omega), if_neg (by omega), if_neg (by omega)]
  simp [step, claimStep, hcl, hword]

/-- A claimer that joins an empty counter is granted its amount. -/
theorem join_granted {capacity amount : ℕ} {s : Claims} (hsmall : capacity ≤ wordMax / 2)
    (hle : amount ≤ capacity) (hempty : s.counter = 0) :
    Reach (step capacity) s ⟨amount, s.claimers ++ [none], s.held ++ [amount]⟩ := by
  have hword : amount ≤ wordMax := hle.trans (hsmall.trans (Nat.div_le_self _ _))
  refine (ReachWhile.refl.next (a := .join) trivial rfl).next
    (a := .claim s.claimers.length amount) trivial ?_
  have hcl : claimAmount s.counter capacity amount = .granted amount := by
    unfold claimAmount
    rw [if_neg (by omega), if_neg (by omega), if_pos (by omega), hempty, wrappingAdd, Nat.zero_add,
      Nat.mod_eq_of_lt]
    exact lt_of_le_of_lt hword (by decide)
  simp [step, claimStep, hempty ▸ hcl, hempty, hword]

/-- Failed claims crowd the counter as long as they fit a word. -/
theorem reach_crowd {capacity n : ℕ} (hpos : 0 < capacity) (hsmall : capacity ≤ wordMax / 2)
    (hn : capacity + n * capacity ≤ wordMax) :
    Reach (step capacity) .new (crowd capacity n) := by
  induction n with
  | zero =>
    have h := join_granted (s := .new) hsmall (Nat.le_refl capacity) rfl
    simpa [crowd, Claims.new] using h
  | succ n ih =>
    rw [Nat.add_mul] at hn
    refine (ih (by omega)).trans ?_
    have h := join_overshoots (s := crowd capacity n) hsmall (Nat.le_refl capacity)
      (by simp only [crowd]; omega)
    have hw : wrappingAdd (crowd capacity n).counter capacity =
        (crowd capacity (n + 1)).counter := by
      simp only [crowd, wrappingAdd]
      rw [Nat.mod_eq_of_lt, Nat.add_mul]
      · omega
      · exact lt_of_le_of_lt (by omega : _ ≤ wordMax) (by decide)
    rw [hw] at h
    have hc : (crowd capacity n).claimers ++ [some capacity] =
        (crowd capacity (n + 1)).claimers := by
      simp only [crowd, List.cons_append, List.replicate_succ']
    rw [hc] at h
    exact h

/-- For every small capacity, enough failing claims wrap the counter and a
second capacity is granted. -/
theorem exceeds {capacity : ℕ} (hpos : 0 < capacity) (hsmall : capacity ≤ wordMax / 2) :
    ∃ s, Reach (step capacity) .new s ∧ capacity < s.held.sum := by
  have hcap : capacity ≤ wordMax := hsmall.trans (Nat.div_le_self _ _)
  -- the crowd leaves less than one capacity up to the largest word
  have hdiv := Nat.div_add_mod (wordMax - capacity) capacity
  have hmod := Nat.mod_lt (wordMax - capacity) hpos
  rw [Nat.mul_comm] at hdiv
  have hcrowd := reach_crowd (n := (wordMax - capacity) / capacity) hpos hsmall (by omega)
  have hfull : capacity - ((wordMax - capacity) % capacity + 1) <
      (crowd capacity ((wordMax - capacity) / capacity)).counter := by
    simp only [crowd]
    unfold wordMax at *
    omega
  have hover := join_overshoots hsmall (by omega) hfull
  have hwrap : wrappingAdd (crowd capacity ((wordMax - capacity) / capacity)).counter
      ((wordMax - capacity) % capacity + 1) = 0 := by
    have hsum : (crowd capacity ((wordMax - capacity) / capacity)).counter +
        ((wordMax - capacity) % capacity + 1) = size := by
      simp only [crowd]
      have hs : size = wordMax + 1 := by decide
      omega
    rw [wrappingAdd, hsum, Nat.mod_self]
  rw [hwrap] at hover
  refine ⟨_, (hcrowd.trans hover).trans (join_granted hsmall (Nat.le_refl capacity) rfl), ?_⟩
  simp only [crowd, List.sum_append, List.sum_singleton]
  omega

/-- In every run whose optimistic additions all fit a word, no more than the
capacity is granted. A capacity above half of all words, or none, is never
exceeded, and any other capacity is exceeded in some run. -/
theorem admission_bounded {capacity : ℕ} (hcap : capacity ≤ wordMax) :
    (∀ s, ReachWhile (step capacity) (Fits capacity) .new s → s.held.sum ≤ capacity) ∧
    ((∀ s, Reach (step capacity) .new s → s.held.sum ≤ capacity) ↔
      capacity = 0 ∨ wordMax / 2 < capacity) := by
  refine ⟨fun s h => (account_sound hcap h).bounded, fun h => ?_, fun h s hs => ?_⟩
  · by_contra hn
    push Not at hn
    obtain ⟨s, hs, hlt⟩ := exceeds (Nat.pos_of_ne_zero hn.1) hn.2
    exact absurd (h s hs) (by omega)
  · rcases h with rfl | hlarge
    · have hsound : (account s).Sound 0 := hs.invariant (I := fun t => (account t).Sound 0)
        ⟨rfl, Nat.zero_le _, Nat.zero_le _⟩ fun t u a hi _ hs =>
          (account_step hs (fits_zero hi.word a)).sound hcap hi
      exact hsound.bounded
    · exact (account_sound hcap (hs.mono fun t a _ => fits_large hlarge t a)).bounded

/-- One claim granted, one failed and taken back, and one granted. -/
def threeClaimers : List Access :=
  [.join, .join, .join, .claim 0 60, .claim 1 70, .undo 1, .claim 2 30]

/-- In that run ninety of a hundred are granted. -/
theorem admission_bounded_ninety :
    ∃ s, ReachWhile (step 100) (Fits 100) .new s ∧ s.held = [60, 30] ∧ s.held.sum ≤ 100 := by
  have hfits : ∀ s a, fits 100 s a = true → Fits 100 s a := fun _ _ h => h
  obtain ⟨s, hs, hp⟩ := exists_reach_of_replay (step 100) hfits .new
    threeClaimers (fun s => decide (s.held = [60, 30])) (by decide +kernel)
  exact ⟨s, hs, of_decide_eq_true hp, (admission_bounded (by decide)).1 s hs⟩

/-- Four claimers of a capacity of almost half of all words. -/
def fourClaimers : List Access :=
  [.join, .join, .join, .join, .claim 0 (wordMax / 2), .claim 1 (wordMax / 2), .claim 2 2,
    .claim 3 (wordMax / 2)]

/-- The first one is granted the capacity, the second and the third overshoot
it until the counter is zero again, and the fourth is granted it once more. -/
theorem capacity_exceeded :
    ∃ s, Reach (step (wordMax / 2)) .new s ∧ wordMax / 2 < s.held.sum := by
  obtain ⟨s, hs, hp⟩ := exists_reach (step (wordMax / 2)) .new fourClaimers
    (fun s => decide (wordMax / 2 < s.held.sum)) (by decide +kernel)
  exact ⟨s, hs, of_decide_eq_true hp⟩

end EdenLogger.ConcurrentClaimers
