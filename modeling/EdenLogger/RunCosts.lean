import EdenLogger.RunRules
import Mathlib.Data.Nat.Notation
import Mathlib.Order.Interval.Finset.Nat

/-!
# Amortised costs of runs

A step may cost something and may be credited something. A potential on states
that falls by the cost of every step, up to its credit, bounds what a whole run
spends by the potential it starts with and the credit it receives. In an
infinite run whose credit is bounded, only finitely many steps cost anything,
so a place that a fair run leaves only by costly steps is left for good.
-/

namespace EdenLogger.RunCosts

open RunRules

variable {σ α : Type*} {step : σ → α → Option σ} {ok : σ → α → Prop}
variable {cost credit : σ → α → ℕ}

/-! ## Finite runs -/

/-- What a run has spent and what it was credited. -/
structure Account where
  /-- Sum of the costs. -/
  spent : ℕ
  /-- Sum of the credits. -/
  credited : ℕ
  deriving DecidableEq

/-- Nothing spent, nothing credited. -/
def Account.empty : Account := ⟨0, 0⟩

/-- Book one step. -/
def book (cost credit : σ → α → ℕ) (s : σ) (a : α) (_ : σ) (c : Account) : Account :=
  ⟨c.spent + cost s a, c.credited + credit s a⟩

/-- The steps of a system with an account of them. -/
abbrev booked (step : σ → α → Option σ) (cost credit : σ → α → ℕ) :=
  monitored step (book cost credit)

/-- A run with an account is a run. -/
theorem reach_of_booked {s t : σ} {c d : Account}
    (h : Reach (booked step cost credit) (s, c) (t, d)) : Reach step s t :=
  ReachWhile.unmonitored (p := (s, c)) (q := (t, d)) (fun _ _ => id) h

/-- Where nothing is credited, the account says so. -/
theorem credited_eq_zero {okc : σ × Account → α → Prop} {s t : σ} {c : Account}
    (h : ReachWhile (booked step cost fun _ _ => 0) okc (s, .empty) (t, c)) : c.credited = 0 :=
  ReachWhile.invariant (I := fun p => p.2.credited = 0) rfl
    (fun p q a hp _ hs => by
      rw [(of_monitored hs).2]
      exact hp) h

/-- The amortisation rule. The potential may rest on an invariant of the run,
and on a bound at the end of the run that every earlier state meets as well. -/
theorem amortised {I J : σ → Prop} {φ : σ → ℕ} {s t : σ} {c : Account}
    (hI : ∀ u, ReachWhile step ok s u → I u)
    (hJ : ∀ u v a, I u → step u a = some v → J v → J u)
    (hstep : ∀ u v a, I u → J u → ok u a → step u a = some v →
      φ v + cost u a ≤ φ u + credit u a)
    (h : ReachWhile (booked step cost credit) (fun p => ok p.1) (s, .empty) (t, c)) (ht : J t) :
    φ t + c.spent ≤ φ s + c.credited := by
  suffices hall : ∀ p, ReachWhile (booked step cost credit) (fun p => ok p.1) (s, .empty) p →
      J p.1 → φ p.1 + p.2.spent ≤ φ s + p.2.credited from hall (t, c) h ht
  intro p hp
  induction hp with
  | refl => exact fun _ => Nat.le_refl _
  | @tail p q hr hs ih =>
    intro hq
    obtain ⟨a, ha, hs⟩ := hs
    obtain ⟨hs, hbook⟩ := of_monitored hs
    have hrun : ReachWhile step ok s p.1 := ReachWhile.unmonitored (fun _ _ => id) hr
    have hp := hJ p.1 q.1 a (hI p.1 hrun) hs hq
    have hprev := ih hp
    have hnext := hstep p.1 q.1 a (hI p.1 hrun) hp ha hs
    rw [hbook]
    simp only [book]
    omega

/-! ## Infinite runs -/

/-- An infinite run by its states and labels. -/
structure Endless (step : σ → α → Option σ) (state : ℕ → σ) (label : ℕ → α) : Prop where
  /-- Every label is taken. -/
  next : ∀ n, step (state n) (label n) = some (state (n + 1))

/-- The account of the first steps of an infinite run. -/
def accountOf (cost credit : σ → α → ℕ) (state : ℕ → σ) (label : ℕ → α) : ℕ → Account
  | 0 => .empty
  | n + 1 =>
    book cost credit (state n) (label n) (state (n + 1)) (accountOf cost credit state label n)

variable {state : ℕ → σ} {label : ℕ → α}

/-- The beginning of an infinite run is a run. -/
theorem Endless.booked (h : Endless step state label) (n : ℕ) :
    Reach (booked step cost credit) (state 0, .empty)
      (state n, accountOf cost credit state label n) := by
  induction n with
  | zero => exact ReachWhile.refl
  | succ n ih =>
    refine ih.next (a := label n) trivial ?_
    simp only [monitored, h.next n, Option.map_some, accountOf]

/-- The states of an infinite run are reached from its beginning. -/
theorem Endless.reach (h : Endless step state label) (n : ℕ) : Reach step (state 0) (state n) := by
  induction n with
  | zero => exact ReachWhile.refl
  | succ n ih => exact ih.next trivial (h.next n)

/-- Fairness to a party: if it is due from some point on, it moves at some
point behind it. -/
def Fair (state : ℕ → σ) (label : ℕ → α) (due : σ → Prop) (party : α → Prop) : Prop :=
  ∀ n, (∀ m, n ≤ m → due (state m)) → ∃ m, n ≤ m ∧ party (label m)

/-- Weak fairness to a party: it is due as long as it can move. -/
def WeaklyFair (step : σ → α → Option σ) (state : ℕ → σ) (label : ℕ → α) (party : α → Prop) :
    Prop :=
  Fair state label (fun s => ∃ a, party a ∧ (step s a).isSome = true) party

/-- Weak fairness pays whatever is owed to a party only while it can move. -/
theorem WeaklyFair.fair {due : σ → Prop} {party : α → Prop}
    (h : WeaklyFair step state label party)
    (hcan : ∀ n, due (state n) → ∃ a, party a ∧ (step (state n) a).isSome = true) :
    Fair state label due party :=
  fun n hdue => h n fun m hm => hcan m (hdue m hm)

/-- The states that a sequence of labels leads through. -/
def follow (step : σ → α → Option σ) (s : σ) (label : ℕ → α) : ℕ → σ
  | 0 => s
  | n + 1 => (step (follow step s label n) (label n)).getD (follow step s label n)

/-- If every label is enabled in its turn, they make an infinite run. -/
theorem endless_follow {s : σ}
    (h : ∀ n, (step (follow step s label n) (label n)).isSome = true) :
    Endless step (follow step s label) label where
  next n := by
    obtain ⟨t, ht⟩ := Option.isSome_iff_exists.mp (h n)
    rw [follow, ht, Option.getD_some]

/-- What is spent only grows. -/
theorem spent_mono (cost credit : σ → α → ℕ) (state : ℕ → σ) (label : ℕ → α) :
    Monotone fun n => (accountOf cost credit state label n).spent :=
  monotone_nat_of_le_succ fun _ => Nat.le_add_right _ _

/-- If no step is credited from some point on, the credit stays what it is there. -/
theorem credited_le (cost : σ → α → ℕ) {n : ℕ}
    (h : ∀ m, n ≤ m → credit (state m) (label m) = 0) (m : ℕ) :
    (accountOf cost credit state label m).credited ≤
      (accountOf cost credit state label n).credited := by
  have hmono : Monotone fun n => (accountOf cost credit state label n).credited :=
    monotone_nat_of_le_succ fun _ => Nat.le_add_right _ _
  rcases Nat.le_total m n with hm | hm
  · exact hmono hm
  · induction m, hm using Nat.le_induction with
    | base => exact Nat.le_refl _
    | succ m hm ih =>
      simp only [accountOf, book, h m hm, Nat.add_zero]
      exact ih

/-- What one account credits, the account with the roles exchanged spends. -/
theorem credited_eq_spent (cost credit : σ → α → ℕ) (state : ℕ → σ) (label : ℕ → α) (n : ℕ) :
    (accountOf cost credit state label n).credited =
      (accountOf credit cost state label n).spent := by
  induction n with
  | zero => rfl
  | succ n ih => simp only [accountOf, book, ih]

/-- If a costly step is always ahead, what is spent exceeds every bound. -/
theorem exists_spent (credit : σ → α → ℕ)
    (hahead : ∀ n, ∃ m, n ≤ m ∧ 0 < cost (state m) (label m)) (k : ℕ) :
    ∃ n, k ≤ (accountOf cost credit state label n).spent := by
  induction k with
  | zero => exact ⟨0, Nat.zero_le _⟩
  | succ k ih =>
    obtain ⟨n, hn⟩ := ih
    obtain ⟨m, hnm, hm⟩ := hahead n
    refine ⟨m + 1, ?_⟩
    have hmono := spent_mono cost credit state label hnm
    simp only [accountOf, book] at hmono ⊢
    omega

/-- If what is spent is bounded, no step is costly from some point on. -/
theorem exists_free (credit : σ → α → ℕ) {bound : ℕ}
    (hbound : ∀ n, (accountOf cost credit state label n).spent ≤ bound) :
    ∃ n, ∀ m, n ≤ m → cost (state m) (label m) = 0 := by
  by_contra hnone
  have hahead : ∀ n, ∃ m, n ≤ m ∧ 0 < cost (state m) (label m) := fun n => by
    by_contra hn
    exact hnone ⟨n, fun m hm => Nat.eq_zero_of_not_pos fun hpos => hn ⟨m, hm, hpos⟩⟩
  obtain ⟨n, hn⟩ := exists_spent credit hahead (bound + 1)
  have := hbound n
  omega

/-- A party that is owed a step, keeps its claim until it moves and does not
move is stopped in the end, if the run is fair to it. -/
theorem stops_of_due {due : σ → Prop} (stopped : σ → Prop) {party : α → Prop} {n : ℕ}
    (hquiet : ∀ m, n ≤ m → due (state m) → ¬ party (label m))
    (hlasts : ∀ m, n ≤ m → due (state m) → ¬ party (label m) →
      due (state (m + 1)) ∨ stopped (state (m + 1)))
    (hfair : Fair state label due party) {m : ℕ} (hm : n ≤ m) (hdue : due (state m)) :
    ∃ k, m ≤ k ∧ stopped (state k) := by
  by_contra hnone
  have hstays : ∀ k, m ≤ k → due (state k) := fun k hk => by
    induction k, hk using Nat.le_induction with
    | base => exact hdue
    | succ k hk ih =>
      have hn := hm.trans hk
      exact (hlasts k hn ih (hquiet k hn ih)).resolve_right fun hs => hnone ⟨k + 1, by omega, hs⟩
  obtain ⟨k, hk, hp⟩ := hfair m hstays
  exact hquiet k (hm.trans hk) (hstays k hk) hp

/-- The rule of rest. An infinite run that spends a bounded amount comes to a
point behind which a party is never due, if it is fair to the party, whose
steps are costly, and if the party stays due until it moves or is stopped for
good. -/
theorem eventually_at_rest {due : σ → Prop} (stopped : σ → Prop) {party : α → Prop} {bound : ℕ}
    (hbound : ∀ n, (accountOf cost credit state label n).spent ≤ bound)
    (hcost : ∀ n, party (label n) → 0 < cost (state n) (label n))
    (hlasts : ∀ n, due (state n) → ¬ party (label n) →
      due (state (n + 1)) ∨ stopped (state (n + 1)))
    (hstopped : ∀ n, stopped (state n) → ¬ due (state n) ∧ stopped (state (n + 1)))
    (hfair : Fair state label due party) : ∃ n, ∀ m, n ≤ m → ¬ due (state m) := by
  obtain ⟨n, hfree⟩ := exists_free credit hbound
  by_cases hstop : ∃ m, n ≤ m ∧ stopped (state m)
  · obtain ⟨m, -, hm⟩ := hstop
    refine ⟨m, fun k hk => ?_⟩
    suffices hlast : stopped (state k) from (hstopped k hlast).1
    induction k, hk using Nat.le_induction with
    | base => exact hm
    | succ k _ ih => exact (hstopped k ih).2
  · refine ⟨n, fun m hm hdue => ?_⟩
    have hquiet : ∀ k, n ≤ k → due (state k) → ¬ party (label k) := fun k hk _ hp =>
      absurd (hfree k hk) (Nat.pos_iff_ne_zero.mp (hcost k hp))
    obtain ⟨k, hk, hs⟩ := stops_of_due stopped hquiet (fun k _ => hlasts k) hfair hm hdue
    exact hstop ⟨k, hm.trans hk, hs⟩

/-- The rule of ranking. Behind some point, a party brings a fair run to its
goal if it can move as long as the goal is not met, and if its moves lower a
rank that no other step raises. -/
theorem eventually_of_rank (rank : σ → ℕ) (goal : σ → Prop) {party : α → Prop} {n : ℕ}
    (hcan : ∀ m, n ≤ m → ¬ goal (state m) → ∃ a, party a ∧ (step (state m) a).isSome = true)
    (hparty : ∀ m, n ≤ m → ¬ goal (state m) → ¬ goal (state (m + 1)) → party (label m) →
      rank (state (m + 1)) < rank (state m))
    (hother : ∀ m, n ≤ m → ¬ goal (state m) → ¬ goal (state (m + 1)) → ¬ party (label m) →
      rank (state (m + 1)) ≤ rank (state m))
    (hfair : WeaklyFair step state label party) : ∃ m, n ≤ m ∧ goal (state m) := by
  by_contra hnone
  have hopen : ∀ m, n ≤ m → ¬ goal (state m) := fun m hm hg => hnone ⟨m, hm, hg⟩
  have hfalls : ∀ m, n ≤ m → party (label m) → rank (state (m + 1)) < rank (state m) :=
    fun m hm => hparty m hm (hopen m hm) (hopen (m + 1) (by omega))
  have hmono : ∀ m, n ≤ m → ∀ k, m ≤ k → rank (state k) ≤ rank (state m) := fun m hm k hk => by
    induction k, hk using Nat.le_induction with
    | base => exact Nat.le_refl _
    | succ k hk ih =>
      refine Nat.le_trans ?_ ih
      have hn := hm.trans hk
      by_cases hp : party (label k)
      · exact (hfalls k hn hp).le
      · exact hother k hn (hopen k hn) (hopen (k + 1) (by omega)) hp
  -- every further move of the party takes one off the rank
  suffices hall : ∀ r m, n ≤ m → rank (state m) < r → False from
    hall _ n (Nat.le_refl n) (Nat.lt_succ_self _)
  intro r
  induction r with
  | zero => exact fun m _ hr => absurd hr (Nat.not_lt_zero _)
  | succ r ih =>
    intro m hm hr
    obtain ⟨k, hk, hp⟩ := hfair m fun k hk => hcan k (hm.trans hk) (hopen k (hm.trans hk))
    have hle := hmono m hm k hk
    have hlt := hfalls k (hm.trans hk) hp
    exact ih (k + 1) (by omega) (by omega)

/-- The liveness rule. An infinite run that spends a bounded amount meets its
goal, if it is fair to a party whose steps are costly and which can move as
long as the goal is not met. -/
theorem eventually_of_bounded (goal : σ → Prop) {party : α → Prop} {bound : ℕ}
    (hbound : ∀ n, (accountOf cost credit state label n).spent ≤ bound)
    (hcost : ∀ n, party (label n) → 0 < cost (state n) (label n))
    (hcan : ∀ n, ¬ goal (state n) → ∃ a, party a ∧ (step (state n) a).isSome = true)
    (hfair : WeaklyFair step state label party) : ∃ n, goal (state n) := by
  by_contra hnone
  obtain ⟨n, hfree⟩ := exists_free credit hbound
  obtain ⟨m, hnm, hm⟩ := hfair n fun m _ => hcan m fun hg => hnone ⟨m, hg⟩
  exact absurd (hfree m hnm) (Nat.pos_iff_ne_zero.mp (hcost m hm))

end EdenLogger.RunCosts
