import EdenLogger.LogCollector
import EdenLogger.RunRules

/-!
# Accounts of a capacity counter

A capacity counter is a word that claims are added to and returned from. An
account sets it against two totals: what was granted and not released, and
what failing claims added and have not taken back. Every access moves counter
and totals together, so the counter stands for their sum modulo the word size.
The sum is exact, and the granted total bounded by the capacity, as long as no
claim that adds first passes the largest word.
-/

namespace EdenLogger.CapacityAccount

open MachineWord LogCollector RunRules

/-- A counter with what it should stand for. -/
structure Account where
  /-- The counter's value. -/
  counter : ℕ
  /-- Granted claims that are not released. -/
  granted : ℕ
  /-- Failed claims that are not taken back. -/
  failed : ℕ

/-- One access of the counter, with what is known of the amounts added to it and
taken off it. -/
inductive AccountStep (capacity : ℕ) (adds takes : ℕ → Prop) (a b : Account) : Prop where
  | same (hc : b.counter = a.counter) (hg : b.granted = a.granted) (hf : b.failed = a.failed)
  | grant {k n : ℕ} (h : claimAmount a.counter capacity k = .granted n) (hk : adds k)
      (hc : b.counter = n) (hg : b.granted = a.granted + k) (hf : b.failed = a.failed)
  | overshoot {k n : ℕ} (h : claimAmount a.counter capacity k = .overshot n) (hk : adds k)
      (hc : b.counter = n) (hg : b.granted = a.granted) (hf : b.failed = a.failed + k)
  | undo {k : ℕ} (hk : takes k) (hc : b.counter = wrappingSub a.counter k)
      (hg : b.granted = a.granted) (hf : a.failed = b.failed + k)
  | giveBack {k : ℕ} (hk : takes k) (hc : b.counter = wrappingSub a.counter k)
      (hg : a.granted = b.granted + k) (hf : b.failed = a.failed)

variable {capacity : ℕ} {adds takes : ℕ → Prop} {a b : Account}

/-- The counter stands for the two totals modulo the word size. -/
def Account.Follows (a : Account) : Prop := a.counter = (a.granted + a.failed) % size

/-- The counter is the sum of the two totals, and no more than the capacity is
granted. -/
structure Account.Sound (capacity : ℕ) (a : Account) : Prop where
  /-- The counter is exact. -/
  exact : a.counter = a.granted + a.failed
  /-- The counter is a word. -/
  word : a.counter ≤ wordMax
  /-- The capacity bounds what is granted. -/
  bounded : a.granted ≤ capacity

/-- A counter that stands for its totals does so after every access. -/
theorem AccountStep.follows (h : AccountStep capacity adds takes a b) (ha : a.Follows) :
    b.Follows := by
  unfold Account.Follows at ha ⊢
  cases h with
  | same hc hg hf => rw [hc, hg, hf, ha]
  | grant h hk hc hg hf =>
    rw [hc, counter_of_granted h, ha, wrappingAdd_mod, hg, hf]
    congr 1
    omega
  | overshoot h hk hc hg hf =>
    rw [hc, counter_of_overshot h, ha, wrappingAdd_mod, hg, hf, Nat.add_assoc]
  | undo hk hc hg hf =>
    rw [hc, ha, hf, ← Nat.add_assoc, wrappingSub_mod, hg]
  | @giveBack k hk hc hg hf =>
    have hsum : a.granted + a.failed = b.granted + a.failed + k := by omega
    rw [hc, ha, hsum, wrappingSub_mod, hf]

/-- Weaker conditions on the amounts admit at least the same accesses. -/
theorem AccountStep.mono {adds' takes' : ℕ → Prop} (h : AccountStep capacity adds takes a b)
    (hadds : ∀ k, adds k → adds' k) (htakes : ∀ k, takes k → takes' k) :
    AccountStep capacity adds' takes' a b := by
  cases h with
  | same hc hg hf => exact .same hc hg hf
  | grant h hk hc hg hf => exact .grant h (hadds _ hk) hc hg hf
  | overshoot h hk hc hg hf => exact .overshoot h (hadds _ hk) hc hg hf
  | undo hk hc hg hf => exact .undo (htakes _ hk) hc hg hf
  | giveBack hk hc hg hf => exact .giveBack (htakes _ hk) hc hg hf

/-- A granted claim fits a word and the capacity. -/
theorem granted_fits {counter capacity amount n : ℕ} (hcap : capacity ≤ wordMax)
    (h : claimAmount counter capacity amount = .granted n) :
    n = counter + amount ∧ counter + amount ≤ capacity := by
  unfold claimAmount at h
  split_ifs at h with h1 h2 h3 h4
  · injection h with h
    exact ⟨h.symm, h3.2⟩
  · injection h with h
    have hle : counter + amount ≤ capacity := by omega
    refine ⟨?_, hle⟩
    rw [← h, wrappingAdd, Nat.mod_eq_of_lt]
    unfold wordMax at hcap
    unfold size
    omega

/-- A claim that is not granted finds the counter and its amount above the
capacity. -/
theorem lt_of_not_granted {counter capacity amount : ℕ} (hcap : capacity ≤ wordMax)
    (h : ∀ n, claimAmount counter capacity amount ≠ .granted n) : capacity < counter + amount := by
  by_contra hle
  unfold claimAmount at h
  split_ifs at h with h1 h2 h3 h4
  · omega
  · exact h _ rfl
  · exact h3 ⟨by omega, by omega⟩
  · exact h _ rfl
  · omega

/-- Only an optimistic addition overshoots. -/
theorem small_of_overshot {counter capacity amount n : ℕ}
    (h : claimAmount counter capacity amount = .overshot n) :
    amount ≤ capacity ∧ capacity ≤ wordMax / 2 := by
  unfold claimAmount at h
  split_ifs at h with h1 h2 h3 h4
  exact ⟨by omega, by omega⟩

/-- The optimistic addition of an amount fits a word. -/
def Fitting (capacity counter amount : ℕ) : Prop :=
  amount ≤ capacity → capacity ≤ wordMax / 2 → counter + amount ≤ wordMax

instance (capacity counter amount : ℕ) : Decidable (Fitting capacity counter amount) := by
  unfold Fitting
  infer_instance

/-- An exact account stays exact and bounded through every access whose
optimistic addition fits a word. -/
theorem AccountStep.sound (h : AccountStep capacity (Fitting capacity a.counter) takes a b)
    (hcap : capacity ≤ wordMax) (ha : a.Sound capacity) : b.Sound capacity := by
  obtain ⟨hex, hword, hbound⟩ := ha
  cases h with
  | same hc hg hf => exact ⟨by omega, by omega, by omega⟩
  | grant h hk hc hg hf =>
    obtain ⟨hn, hle⟩ := granted_fits hcap h
    exact ⟨by omega, by omega, by omega⟩
  | @overshoot k n h hk hc hg hf =>
    obtain ⟨hle, hsmall⟩ := small_of_overshot h
    have hfit := hk hle hsmall
    have hn : n = a.counter + k := by
      rw [counter_of_overshot h, wrappingAdd, Nat.mod_eq_of_lt]
      exact lt_of_le_of_lt hfit (by decide)
    exact ⟨by omega, by omega, by omega⟩
  | undo hk hc hg hf =>
    rw [wrappingSub_of_le (by omega) hword] at hc
    exact ⟨by omega, by omega, by omega⟩
  | giveBack hk hc hg hf =>
    rw [wrappingSub_of_le (by omega) hword] at hc
    exact ⟨by omega, by omega, by omega⟩

end EdenLogger.CapacityAccount
