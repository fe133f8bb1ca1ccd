import Mathlib.Data.List.Nodup
import Mathlib.Data.List.Zip
import Mathlib.Logic.Function.Basic

/-!
# Blocks of bindings

Straight-line blocks whose expressions may change the world and may leave the
block. A scope says what a name stands for, and a binding hides an older one of
the same name. Expressions that do not ask for some names do not notice when a
block binds them.
-/

namespace EdenLogger.LetBlocks

/-- What the names in scope stand for. -/
abbrev Scope (V : Type) := String → Option V

/-- Bind a name. -/
def Scope.bind {V : Type} (ρ : Scope V) (x : String) (v : V) : Scope V :=
  Function.update ρ x (some v)

/-- Bind names one behind the other. -/
def Scope.bindAll {V : Type} (ρ : Scope V) (xs : List (String × V)) : Scope V :=
  xs.foldl (fun ρ p => ρ.bind p.1 p.2) ρ

/-- Blocks over expressions `E` and calls `C`. -/
inductive Block (E C : Type) where
  | done
  | letIn (x : String) (e : E) (rest : Block E C)
  | ifThen (e : E) (body rest : Block E C)
  | call (c : C) (rest : Block E C)

/-- Bindings in front of a block. -/
def Block.lets {E C : Type} (bs : List (String × E)) (rest : Block E C) : Block E C :=
  bs.foldr (fun b rest => .letIn b.1 b.2 rest) rest

/-- What expressions and calls do. -/
structure Machine (E C V W X : Type) where
  /-- An expression changes the world and has a value, unless it leaves. -/
  eval : E → Scope V → EStateM X W V
  /-- The truth of a value. -/
  test : V → EStateM X W Bool
  /-- A call. -/
  call : C → Scope V → EStateM X W Unit

variable {E C V W X : Type} (m : Machine E C V W X)

/-- Run a block. What a branch binds is gone behind it. -/
def exec : Block E C → Scope V → EStateM X W Unit
  | .done, _ => pure ()
  | .letIn x e rest, ρ => do
    let v ← m.eval e ρ
    exec rest (ρ.bind x v)
  | .ifThen e body rest, ρ => do
    let v ← m.eval e ρ
    let b ← m.test v
    if b then exec body ρ
    exec rest ρ
  | .call c rest, ρ => do
    m.call c ρ
    exec rest ρ

/-- The values of bindings, each in the scope of the ones before it. -/
def evalLets : List (String × E) → Scope V → EStateM X W (List V)
  | [], _ => pure []
  | (x, e) :: bs, ρ => do
    let v ← m.eval e ρ
    let vs ← evalLets bs (ρ.bind x v)
    pure (v :: vs)

/-- Scopes that agree on all names but some. -/
def AgreeOff (hidden : String → Prop) (ρ ρ' : Scope V) : Prop :=
  ∀ x, ¬ hidden x → ρ x = ρ' x

/-- An expression does not ask for some names. -/
def Avoids (hidden : String → Prop) (e : E) : Prop :=
  ∀ ρ ρ', AgreeOff hidden ρ ρ' → m.eval e ρ = m.eval e ρ'

/-! ## Scopes -/

theorem AgreeOff.refl (hidden : String → Prop) (ρ : Scope V) : AgreeOff hidden ρ ρ :=
  fun _ _ => rfl

/-- A hidden name may be bound. -/
theorem AgreeOff.bind {hidden : String → Prop} {ρ ρ' : Scope V} {x : String}
    (h : AgreeOff hidden ρ ρ') (hx : hidden x) (v : V) : AgreeOff hidden (ρ.bind x v) ρ' := by
  intro y hy
  have hne : y ≠ x := fun hxy => hy (hxy ▸ hx)
  rw [Scope.bind, Function.update_of_ne hne]
  exact h y hy

theorem AgreeOff.bindAll {hidden : String → Prop} {ρ ρ' : Scope V} {xs : List (String × V)}
    (h : AgreeOff hidden ρ ρ') (hx : ∀ p ∈ xs, hidden p.1) :
    AgreeOff hidden (ρ.bindAll xs) ρ' := by
  induction xs generalizing ρ with
  | nil => exact h
  | cons p xs ih =>
    exact ih (h.bind (hx p List.mem_cons_self) p.2) fun q hq => hx q (List.mem_cons_of_mem _ hq)

theorem bind_self (ρ : Scope V) (x : String) (v : V) : ρ.bind x v x = some v := by
  rw [Scope.bind, Function.update_self]

theorem bind_of_ne {x y : String} (h : y ≠ x) (ρ : Scope V) (v : V) : ρ.bind x v y = ρ y := by
  rw [Scope.bind, Function.update_of_ne h]

/-- A name that is not bound keeps its meaning. -/
theorem bindAll_of_notMem {xs : List (String × V)} {x : String} (hx : x ∉ xs.map Prod.fst)
    (ρ : Scope V) : ρ.bindAll xs x = ρ x := by
  induction xs generalizing ρ with
  | nil => rfl
  | cons p xs ih =>
    rw [List.map_cons, List.mem_cons, not_or] at hx
    have hrest := ih hx.2 (ρ.bind p.1 p.2)
    rw [bind_of_ne hx.1] at hrest
    exact hrest

/-- Of different names each stands for its own value. -/
theorem bindAll_of_mem {xs : List (String × V)} (hnodup : (xs.map Prod.fst).Nodup)
    {p : String × V} (hp : p ∈ xs) (ρ : Scope V) : ρ.bindAll xs p.1 = some p.2 := by
  induction xs generalizing ρ with
  | nil => exact absurd hp List.not_mem_nil
  | cons q xs ih =>
    obtain ⟨hfresh, hnodup⟩ := List.nodup_cons.mp hnodup
    rcases List.mem_cons.mp hp with rfl | hp
    · exact (bindAll_of_notMem hfresh _).trans (bind_self ρ _ _)
    · exact ih hnodup hp _

/-! ## Running -/

/-- A branch runs in front of what follows, if its test holds. -/
theorem exec_ifThen (e : E) (body rest : Block E C) (ρ : Scope V) :
    exec m (.ifThen e body rest) ρ =
      m.eval e ρ >>= fun v => m.test v >>= fun b =>
        (if b then exec m body ρ else pure ()) >>= fun _ => exec m rest ρ := by
  rw [exec]
  refine bind_congr fun v => bind_congr fun b => ?_
  cases b with
  | true => rfl
  | false => exact (pure_bind () fun _ => exec m rest ρ).symm

/-- There are as many values as bindings, whatever is done with them. -/
theorem evalLets_bind_congr {α : Type} {f g : List V → EStateM X W α} (bs : List (String × E))
    (ρ : Scope V) (h : ∀ vs, vs.length = bs.length → f vs = g vs) :
    (evalLets m bs ρ >>= f) = (evalLets m bs ρ >>= g) := by
  induction bs generalizing ρ f g with
  | nil => simp only [evalLets, pure_bind, h [] rfl]
  | cons b bs ih =>
    obtain ⟨x, e⟩ := b
    simp only [evalLets, bind_assoc, pure_bind]
    refine bind_congr fun v => ih _ fun vs hvs => h _ ?_
    rw [List.length_cons, List.length_cons, hvs]

/-- Bindings in front of a block are made before it runs. -/
theorem exec_lets (bs : List (String × E)) (rest : Block E C) (ρ : Scope V) :
    exec m (.lets bs rest) ρ =
      evalLets m bs ρ >>= fun vs => exec m rest (ρ.bindAll ((bs.map Prod.fst).zip vs)) := by
  induction bs generalizing ρ with
  | nil => exact (pure_bind [] fun _ => exec m rest ρ).symm
  | cons b bs ih =>
    obtain ⟨x, e⟩ := b
    have hlets : Block.lets ((x, e) :: bs) rest = .letIn x e (.lets bs rest) := rfl
    rw [hlets, exec]
    simp only [evalLets, bind_assoc, pure_bind]
    exact bind_congr fun v => ih _

/-- Bindings of hidden names are evaluated as if they stood side by side. -/
theorem evalLets_of_avoids {hidden : String → Prop} {bs : List (String × E)} {ρ ρ' : Scope V}
    (hnames : ∀ b ∈ bs, hidden b.1) (havoid : ∀ b ∈ bs, Avoids m hidden b.2)
    (h : AgreeOff hidden ρ ρ') : evalLets m bs ρ = bs.mapM fun b => m.eval b.2 ρ' := by
  induction bs generalizing ρ with
  | nil => rfl
  | cons b bs ih =>
    obtain ⟨hname, hnames⟩ := List.forall_mem_cons.mp hnames
    obtain ⟨hb, havoid⟩ := List.forall_mem_cons.mp havoid
    rw [List.mapM_cons, evalLets, hb ρ ρ' h]
    exact bind_congr fun v => congrArg (· >>= _) (ih hnames havoid (h.bind hname v))

end EdenLogger.LetBlocks
