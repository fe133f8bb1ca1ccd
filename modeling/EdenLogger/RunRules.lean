import Mathlib.Logic.Relation
import Mathlib.Order.Basic
import Mathlib.Data.Option.Basic

/-!
# Runs of a labelled step function

A system is a partial step function on states, driven by labels. A run is any
finite sequence of enabled labels, so a fact about every reachable state is a
fact about every interleaving of the parties the labels name. The rules below
turn one-step facts into facts about whole runs: plain invariants, invariants
proved with the help of others, runs whose steps meet a condition, runs that a
panic ends, and the replay of a concrete list of labels.
-/

namespace EdenLogger.RunRules

variable {σ α : Type*}

/-- One enabled step whose label meets the condition `ok` at its source. -/
def StepWhile (step : σ → α → Option σ) (ok : σ → α → Prop) (s t : σ) : Prop :=
  ∃ a, ok s a ∧ step s a = some t

/-- The states reached from `s` by steps that all meet `ok`. -/
def ReachWhile (step : σ → α → Option σ) (ok : σ → α → Prop) : σ → σ → Prop :=
  Relation.ReflTransGen (StepWhile step ok)

/-- The condition every step meets. -/
def anyStep (_ : σ) (_ : α) : Prop := True

/-- The states reached from `s` by any steps. -/
abbrev Reach (step : σ → α → Option σ) : σ → σ → Prop := ReachWhile step anyStep

variable {step : σ → α → Option σ} {ok ok' : σ → α → Prop} {s t u : σ}

/-- The empty run. -/
theorem ReachWhile.refl : ReachWhile step ok s s := Relation.ReflTransGen.refl

/-- A run is extended by one more step. -/
theorem ReachWhile.next {a : α} (h : ReachWhile step ok s t) (ha : ok t a)
    (hs : step t a = some u) : ReachWhile step ok s u :=
  Relation.ReflTransGen.tail h ⟨a, ha, hs⟩

/-- Runs compose. -/
theorem ReachWhile.trans (h : ReachWhile step ok s t) (h' : ReachWhile step ok t u) :
    ReachWhile step ok s u :=
  Relation.ReflTransGen.trans h h'

/-- A weaker condition admits at least the same runs. -/
theorem ReachWhile.mono (hok : ∀ s a, ok s a → ok' s a) (h : ReachWhile step ok s t) :
    ReachWhile step ok' s t := by
  induction h with
  | refl => exact ReachWhile.refl
  | tail _ hs ih =>
    obtain ⟨a, ha, hs⟩ := hs
    exact ih.next (hok _ _ ha) hs

/-- Every conditioned run is a run. -/
theorem ReachWhile.reach (h : ReachWhile step ok s t) : Reach step s t :=
  h.mono (fun _ _ _ => trivial)

/-- What holds at the start and is kept by every step holds after every run. -/
theorem ReachWhile.invariant {I : σ → Prop} (h0 : I s)
    (hstep : ∀ t u a, I t → ok t a → step t a = some u → I u)
    (h : ReachWhile step ok s t) : I t := by
  induction h with
  | refl => exact h0
  | tail _ hs ih =>
    obtain ⟨a, ha, hs⟩ := hs
    exact hstep _ _ a ih ha hs

/-- An invariant whose step case may use what is known of every reached state. -/
theorem ReachWhile.invariant_using {I J : σ → Prop}
    (hJ : ∀ t, ReachWhile step ok s t → J t) (h0 : I s)
    (hstep : ∀ t u a, J t → J u → I t → ok t a → step t a = some u → I u)
    (h : ReachWhile step ok s t) : I t := by
  induction h with
  | refl => exact h0
  | tail hr hs ih =>
    obtain ⟨a, ha, hs⟩ := hs
    exact hstep _ _ a (hJ _ hr) (hJ _ (ReachWhile.next hr ha hs)) ih ha hs

/-- Run a system together with a monitor that follows its steps. -/
def monitored {β : Type*} (step : σ → α → Option σ) (track : σ → α → σ → β → β) (s : σ × β)
    (a : α) : Option (σ × β) :=
  (step s.1 a).map fun t => (t, track s.1 a t s.2)

/-- A step under a monitor is a step of the system. -/
theorem of_monitored {β : Type*} {track : σ → α → σ → β → β} {p q : σ × β} {a : α}
    (h : monitored step track p a = some q) :
    step p.1 a = some q.1 ∧ q.2 = track p.1 a q.1 p.2 := by
  rw [monitored, Option.map_eq_some_iff] at h
  obtain ⟨t, ht, rfl⟩ := h
  exact ⟨ht, rfl⟩

/-- A run under a monitor is a run of the system. -/
theorem ReachWhile.unmonitored {β : Type*} {track : σ → α → σ → β → β}
    {okm : σ × β → α → Prop} {p q : σ × β} (hok : ∀ p a, okm p a → ok p.1 a)
    (h : ReachWhile (monitored step track) okm p q) : ReachWhile step ok p.1 q.1 := by
  induction h with
  | refl => exact ReachWhile.refl
  | tail _ hs ih =>
    obtain ⟨a, ha, hs⟩ := hs
    exact ih.next (hok _ _ ha) (of_monitored hs).1

/-- A run of a system under labels that carry more is a run of the system. -/
theorem ReachWhile.forget {β : Type*} {f : β → α} {okb : σ → β → Prop}
    (hok : ∀ s b, okb s b → ok s (f b)) (h : ReachWhile (fun s b => step s (f b)) okb s t) :
    ReachWhile step ok s t := by
  induction h with
  | refl => exact ReachWhile.refl
  | tail _ hs ih =>
    obtain ⟨b, hb, hs⟩ := hs
    exact ih.next (hok _ _ hb) hs

/-- Run a system some of whose steps panic: the step is not taken, and it is the last one. -/
def panicking (step : σ → α → Option σ) (panics : σ → α → Bool) (p : σ × Bool) (a : α) :
    Option (σ × Bool) :=
  if p.2 then none
  else (step p.1 a).map fun t => if panics p.1 a then (p.1, true) else (t, false)

/-- A step that does not panic is a step of the system. -/
theorem of_panicking {panics : σ → α → Bool} {p q : σ × Bool} {a : α}
    (h : panicking step panics p a = some q) (hsafe : panics p.1 a = false) :
    step p.1 a = some q.1 ∧ q.2 = false := by
  unfold panicking at h
  split at h
  · cases h
  · rw [Option.map_eq_some_iff] at h
    obtain ⟨t, ht, rfl⟩ := h
    rw [hsafe]
    exact ⟨ht, rfl⟩

/-- Steps that panic are enabled. -/
theorem enabled_of_panicking {panics : σ → α → Bool} {p q : σ × Bool} {a : α}
    (h : panicking step panics p a = some q) : ∃ t, step p.1 a = some t := by
  unfold panicking at h
  split at h
  · cases h
  · rw [Option.map_eq_some_iff] at h
    obtain ⟨t, ht, -⟩ := h
    exact ⟨t, ht⟩

/-- If no enabled step that meets the condition panics, runs of such steps are runs of the system
and none of them panics. -/
theorem ReachWhile.not_panicked {panics : σ → α → Bool} {q : σ × Bool}
    (hsafe : ∀ t u a, ReachWhile step ok s t → ok t a → step t a = some u → panics t a = false)
    (h : ReachWhile (panicking step panics) (fun p => ok p.1) (s, false) q) :
    ReachWhile step ok s q.1 ∧ q.2 = false := by
  induction h with
  | refl => exact ⟨ReachWhile.refl, rfl⟩
  | tail _ hs ih =>
    obtain ⟨a, ha, hs⟩ := hs
    obtain ⟨u, hu⟩ := enabled_of_panicking hs
    obtain ⟨hstep, hfalse⟩ := of_panicking hs (hsafe _ _ a ih.1 ha hu)
    exact ⟨ih.1.next ha hstep, hfalse⟩

/-- Execute a list of labels, each of which must pass a check. -/
def replay (step : σ → α → Option σ) (check : σ → α → Bool) : σ → List α → Option σ
  | s, [] => some s
  | s, a :: as => if check s a then (step s a).bind fun t => replay step check t as else none

/-- A check that passes every step. -/
def noCheck (_ : σ) (_ : α) : Bool := true

/-- Two systems whose steps correspond label by label replay every list of
labels alike: both refuse it, or both end in corresponding states. -/
theorem replay_rel {τ : Type*} {step' : τ → α → Option τ} {R : σ → τ → Prop}
    (hstep : ∀ s t a, R s t → Option.Rel R (step s a) (step' t a)) {s : σ} {t : τ} (h : R s t)
    (as : List α) : Option.Rel R (replay step noCheck s as) (replay step' noCheck t as) := by
  induction as generalizing s t with
  | nil => exact .some h
  | cons a as ih =>
    have hs := hstep s t a h
    simp only [replay, noCheck, if_true]
    revert hs
    cases step s a <;> cases step' t a <;> intro hs <;> cases hs
    · exact .none
    · rename_i hr
      exact ih hr

/-- A replayed list of labels is a run, on the condition that was checked. -/
theorem replay_reach {check : σ → α → Bool} (hc : ∀ s a, check s a = true → ok s a) {as : List α}
    (h : replay step check s as = some t) : ReachWhile step ok s t := by
  induction as generalizing s with
  | nil =>
    cases h
    exact ReachWhile.refl
  | cons a as ih =>
    rw [replay] at h
    split_ifs at h with ha
    rw [Option.bind_eq_some_iff] at h
    obtain ⟨u, hu, ht⟩ := h
    exact (ReachWhile.refl.next (hc s a ha) hu).trans (ih ht)

/-- Where an unchecked replay ends is reached. -/
theorem reach_getD {as : List α} (h : (replay step noCheck s as).isSome = true) :
    Reach step s ((replay step noCheck s as).getD s) := by
  obtain ⟨t, ht⟩ := Option.isSome_iff_exists.mp h
  rw [ht]
  exact replay_reach (fun _ _ _ => trivial) ht

/-- A checked replay that meets a test gives a reachable state that meets it. -/
theorem exists_reach_of_replay (step : σ → α → Option σ) {check : σ → α → Bool}
    (hc : ∀ s a, check s a = true → ok s a) (s : σ) (as : List α) (p : σ → Bool)
    (h : (replay step check s as).any p = true) : ∃ t, ReachWhile step ok s t ∧ p t = true := by
  cases hr : replay step check s as with
  | none => simp [hr] at h
  | some t => exact ⟨t, replay_reach hc hr, by simpa [hr] using h⟩

/-- An unchecked replay gives a reachable state. -/
theorem exists_reach (step : σ → α → Option σ) (s : σ) (as : List α) (p : σ → Bool)
    (h : (replay step noCheck s as).any p = true) : ∃ t, Reach step s t ∧ p t = true :=
  exists_reach_of_replay step (fun _ _ _ => trivial) s as p h

end EdenLogger.RunRules
