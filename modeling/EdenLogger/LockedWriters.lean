import EdenLogger.RunRules
import Mathlib.Data.List.Basic
import Mathlib.Data.List.Flatten
import Mathlib.Logic.Function.Basic

/-!
# Writers behind one lock

Any number of writers put blocks into one stream. A writer takes the lock, its
block goes out in pieces of any size, and it gives the lock back. A piece may
fail, and then the rest of the block is lost. The log of a run says which block
was begun when and how much of it went out, and a reader who splits the stream
at a separator finds every block that went out whole behind a whole one.
-/

namespace EdenLogger.LockedWriters

open RunRules

/-- The writers, the lock and the stream. -/
structure State (ι β α : Type*) where
  /-- What each writer has still to write. -/
  pending : ι → List β
  /-- Who holds the lock, with the rest of the block. -/
  holder : Option (ι × List α)
  /-- What went out. -/
  out : List α

/-- Steps. -/
inductive Action (ι : Type*) where
  /-- A writer takes the lock for its next block. -/
  | lock (i : ι)
  /-- A piece of the block goes out. -/
  | write (n : ℕ)
  /-- The whole block is out. -/
  | unlock
  /-- The stream refuses a piece, and the rest is dropped. -/
  | fail

/-- A block that was begun. -/
structure Entry (ι β α : Type*) where
  writer : ι
  item : β
  /-- What went out. -/
  written : List α
  /-- What did not. -/
  left : List α

variable {ι β α : Type*} (text : β → List α)

section Runs

variable [DecidableEq ι]

/-- One step. -/
def step (s : State ι β α) : Action ι → Option (State ι β α)
  | .lock i =>
    match s.holder, s.pending i with
    | none, b :: bs =>
      some { s with holder := some (i, text b), pending := Function.update s.pending i bs }
    | _, _ => none
  | .write n =>
    match s.holder with
    | some (i, rest) =>
      if 0 < n ∧ n ≤ rest.length then
        some { s with holder := some (i, rest.drop n), out := s.out ++ rest.take n }
      else none
    | none => none
  | .unlock =>
    match s.holder with
    | some (_, []) => some { s with holder := none }
    | _ => none
  | .fail =>
    match s.holder with
    | some (_, _ :: _) => some { s with holder := none }
    | _ => none

/-- A log of the blocks that were begun, of which the last may be under way. -/
structure Ledger (programs : ι → List β) (s : State ι β α) (log : List (Entry ι β α))
    (current : Option (Entry ι β α)) : Prop where
  /-- Each writer's blocks are begun in its order. -/
  order : ∀ i, (((log ++ current.toList).filter fun e => e.writer = i).map Entry.item) ++
    s.pending i = programs i
  /-- The stream is what went out of them. -/
  out : s.out = (log ++ current.toList).flatMap Entry.written
  split : ∀ e ∈ log ++ current.toList, e.written ++ e.left = text e.item
  held : s.holder = current.map fun e => (e.writer, e.left)

/-- Nothing is begun at the start. -/
def start (programs : ι → List β) : State ι β α := ⟨programs, none, []⟩

/-- A step at which no piece fails. -/
def Accepted (_ : State ι β α) (a : Action ι) : Prop := a ≠ .fail

/-! ## What runs do -/

variable {text} {programs : ι → List β} {s s' : State ι β α} {log : List (Entry ι β α)}
  {current : Option (Entry ι β α)} {a : Action ι}

theorem ledger_start : Ledger text programs (start programs : State ι β α) [] none where
  order _ := rfl
  out := rfl
  split _ he := absurd he List.not_mem_nil
  held := rfl

/-- The block of a writer that takes the lock is logged. -/
theorem Ledger.lock {i : ι} {b : β} {bs : List β} (h : Ledger text programs s log none)
    (hb : s.pending i = b :: bs) :
    Ledger text programs
      { s with holder := some (i, text b), pending := Function.update s.pending i bs }
      log (some ⟨i, b, [], text b⟩) where
  order j := by
    have horder := h.order j
    rw [Option.toList_none, List.append_nil] at horder
    rw [Option.toList_some, List.filter_append, List.map_append, List.append_assoc]
    dsimp only
    by_cases hij : i = j
    · subst hij
      rw [Function.update_self, ← horder, hb]
      simp
    · rw [Function.update_of_ne (Ne.symm hij), ← horder]
      simp [hij]
  out := by
    have hout := h.out
    rw [Option.toList_none, List.append_nil] at hout
    dsimp only
    rw [Option.toList_some, List.flatMap_append, ← hout]
    exact (List.append_nil s.out).symm
  split e he := by
    rcases List.mem_append.mp he with he | he
    · exact h.split e (List.mem_append_left _ he)
    · cases List.mem_singleton.mp he
      rfl
  held := rfl

/-- A piece goes from what is left to what went out. -/
theorem Ledger.write {e : Entry ι β α} (h : Ledger text programs s log (some e)) (n : ℕ) :
    Ledger text programs
      { s with holder := some (e.writer, e.left.drop n), out := s.out ++ e.left.take n }
      log (some { e with written := e.written ++ e.left.take n, left := e.left.drop n }) where
  order j := by
    have horder := h.order j
    rw [Option.toList_some, List.filter_append] at horder ⊢
    rw [← horder]
    by_cases hj : e.writer = j <;> simp [hj]
  out := by
    have hout := h.out
    rw [Option.toList_some, List.flatMap_append, List.flatMap_singleton] at hout ⊢
    dsimp only
    rw [hout, List.append_assoc]
  split e' he' := by
    rcases List.mem_append.mp he' with he' | he'
    · exact h.split e' (List.mem_append_left _ he')
    · cases List.mem_singleton.mp he'
      have hsplit := h.split e (List.mem_append_right _ (List.mem_singleton_self e))
      rw [← hsplit, List.append_assoc, List.take_append_drop]
  held := rfl

/-- A writer that gives the lock back leaves its block in the log. -/
theorem Ledger.release {e : Entry ι β α} (h : Ledger text programs s log (some e)) :
    Ledger text programs { s with holder := none } (log ++ [e]) none where
  order j := by
    rw [Option.toList_none, List.append_nil]
    exact h.order j
  out := by
    rw [Option.toList_none, List.append_nil]
    exact h.out
  split e' he' := by
    rw [Option.toList_none, List.append_nil] at he'
    exact h.split e' he'
  held := rfl

/-- What a step adds to the log. Without a failure it is a whole block. -/
theorem Ledger.step (h : Ledger text programs s log current)
    (hs : step text s a = some s') :
    ∃ log' current', Ledger text programs s' log' current' ∧
      (Accepted s a → (∀ e ∈ log, e.left = []) → ∀ e ∈ log', e.left = []) := by
  have hheld := h.held
  cases a with
  | lock i =>
    simp only [LockedWriters.step] at hs
    split at hs
    case h_1 b bs hfree hb =>
      cases hs
      rw [hfree] at hheld
      cases current with
      | some e => cases hheld
      | none => exact ⟨log, _, h.lock hb, fun _ hlog => hlog⟩
    · cases hs
  | write n =>
    simp only [LockedWriters.step] at hs
    split at hs
    case h_1 i rest hholder =>
      split at hs
      · cases hs
        rw [hholder] at hheld
        cases current with
        | none => cases hheld
        | some e =>
          cases hheld
          exact ⟨log, _, h.write n, fun _ hlog => hlog⟩
      · cases hs
    · cases hs
  | unlock =>
    simp only [LockedWriters.step] at hs
    split at hs
    case h_1 i hholder =>
      cases hs
      rw [hholder] at hheld
      cases current with
      | none => cases hheld
      | some e =>
        refine ⟨log ++ [e], none, h.release, fun _ hlog => ?_⟩
        rw [Option.map_some, Option.some.injEq, Prod.mk.injEq] at hheld
        exact List.forall_mem_append.mpr ⟨hlog, List.forall_mem_singleton.mpr hheld.2.symm⟩
    · cases hs
  | fail =>
    simp only [LockedWriters.step] at hs
    split at hs
    case h_1 i c rest hholder =>
      cases hs
      rw [hholder] at hheld
      cases current with
      | none => cases hheld
      | some e => exact ⟨log ++ [e], none, h.release, fun hok => absurd rfl hok⟩
    · cases hs

/-- What is logged was in a program. -/
theorem Ledger.mem_programs (h : Ledger text programs s log current) {e : Entry ι β α}
    (he : e ∈ log ++ current.toList) : e.item ∈ programs e.writer := by
  rw [← h.order e.writer]
  exact List.mem_append_left _
    (List.mem_map_of_mem (List.mem_filter.mpr ⟨he, decide_eq_true rfl⟩))

/-- Every state that is reached has a log. -/
theorem exists_ledger (h : Reach (LockedWriters.step text) (start programs) s) :
    ∃ log current, Ledger text programs s log current :=
  ReachWhile.invariant (I := fun s => ∃ log current, Ledger text programs s log current)
    ⟨[], none, ledger_start⟩
    (fun _ _ _ ⟨_, _, hl⟩ _ hs => by
      obtain ⟨log', current', hl', -⟩ := hl.step hs
      exact ⟨log', current', hl'⟩) h

/-- Where no piece has failed, every block but one under way is out. -/
theorem exists_ledger_whole
    (h : ReachWhile (LockedWriters.step text) Accepted (start programs) s) :
    ∃ log current, Ledger text programs s log current ∧ ∀ e ∈ log, e.left = [] :=
  ReachWhile.invariant
    (I := fun s => ∃ log current, Ledger text programs s log current ∧ ∀ e ∈ log, e.left = [])
    ⟨[], none, ledger_start, fun _ he => absurd he List.not_mem_nil⟩
    (fun _ _ _ ⟨_, _, hl, hwhole⟩ ha hs => by
      obtain ⟨log', current', hl', hw⟩ := hl.step hs
      exact ⟨log', current', hl', hw ha hwhole⟩) h

end Runs

/-! ## What a reader finds -/

/-- Split what went out, behind something that was begun. -/
def frames : List α → List (Entry ι β α) → List (List α)
  | carry, [] => [carry]
  | carry, e :: log =>
    if e.left = [] then (carry ++ e.written.dropLast) :: frames [] log
    else frames (carry ++ e.written) log

/-- A block is a line, if it ends in the only separator that it holds. -/
def IsLine (sep : α) (block : List α) : Prop := ∃ line, sep ∉ line ∧ block = line ++ [sep]

/-- A block that is cut short holds no separator. -/
theorem IsLine.cut {sep : α} {block written left : List α} (h : IsLine sep block)
    (hsplit : written ++ left = block) (hleft : left ≠ []) : sep ∉ written := by
  obtain ⟨line, hsep, rfl⟩ := h
  obtain ⟨left', c, rfl⟩ := (List.eq_nil_or_concat' left).resolve_left hleft
  rw [← List.append_assoc] at hsplit
  have hline := (List.append_inj' hsplit rfl).1
  rw [← hline] at hsep
  exact fun hmem => hsep (List.mem_append_left _ hmem)

/-- A block that went out whole is its line and the separator. -/
theorem IsLine.whole {sep : α} {block written left : List α} (h : IsLine sep block)
    (hsplit : written ++ left = block) (hleft : left = []) :
    sep ∉ written.dropLast ∧ written = written.dropLast ++ [sep] := by
  obtain ⟨line, hsep, rfl⟩ := h
  rw [hleft, List.append_nil] at hsplit
  rw [hsplit, List.dropLast_concat]
  exact ⟨hsep, rfl⟩

variable {text} in
/-- A reader finds the frames of the log. -/
theorem splitOn_written [DecidableEq α] {sep : α} {carry : List α} (hcarry : sep ∉ carry)
    {log : List (Entry ι β α)} (hline : ∀ e ∈ log, IsLine sep (text e.item))
    (hsplit : ∀ e ∈ log, e.written ++ e.left = text e.item) :
    (carry ++ log.flatMap Entry.written).splitOn sep = frames carry log := by
  induction log generalizing carry with
  | nil =>
    rw [List.flatMap_nil, List.append_nil, frames]
    exact List.splitOn_eq_singleton hcarry
  | cons e log ih =>
    obtain ⟨he, hline⟩ := List.forall_mem_cons.mp hline
    obtain ⟨hs, hsplit⟩ := List.forall_mem_cons.mp hsplit
    rw [List.flatMap_cons, frames]
    split
    case isTrue hwhole =>
      obtain ⟨hfree, hwritten⟩ := he.whole hs hwhole
      have hfront : sep ∉ carry ++ e.written.dropLast := fun hmem =>
        (List.mem_append.mp hmem).elim hcarry hfree
      have hrest := ih List.not_mem_nil hline hsplit
      rw [List.nil_append] at hrest
      rw [← hrest, hwritten, List.dropLast_concat, List.append_assoc, List.singleton_append,
        ← List.append_assoc]
      exact List.splitOn_append_cons_self_of_not_mem hfront _
    case isFalse hcut =>
      have hfree := he.cut hs hcut
      rw [← List.append_assoc]
      exact ih (fun hmem => (List.mem_append.mp hmem).elim hcarry hfree) hline hsplit

/-- Behind a whole block a whole block is a frame of its own, which the whole
blocks before it number. -/
theorem getElem_frames {carry : List α} {before : List (Entry ι β α)}
    (behind : List (Entry ι β α)) {e : Entry ι β α} (he : e.left = [])
    (hcarry : before = [] → carry = []) (hlast : ∀ p ∈ before.getLast?, p.left = []) :
    (frames carry (before ++ e :: behind))[before.countP fun p => p.left = []]? =
      some e.written.dropLast := by
  induction before generalizing carry with
  | nil =>
    rw [List.nil_append, frames, if_pos he, hcarry rfl, List.nil_append]
    rfl
  | cons p before ih =>
    have hlast' : ∀ q ∈ before.getLast?, q.left = [] := by
      intro q hq
      refine hlast q ?_
      rw [List.getLast?_cons]
      rw [Option.mem_def] at hq ⊢
      rw [hq, Option.getD_some]
    rw [List.cons_append, frames]
    by_cases hp : p.left = []
    · rw [if_pos hp, List.countP_cons_of_pos (by simp [hp]), List.getElem?_cons_succ]
      exact ih (fun _ => rfl) hlast'
    · rw [if_neg hp, List.countP_cons_of_neg (by simp [hp])]
      refine ih (fun hnil => ?_) hlast'
      subst hnil
      exact absurd (hlast p rfl) hp

/-- Whole blocks are the frames, and nothing is left behind them. -/
theorem frames_whole {log : List (Entry ι β α)} (hwhole : ∀ e ∈ log, e.left = []) :
    frames [] log = log.map (fun e => e.written.dropLast) ++ [[]] := by
  induction log with
  | nil => rfl
  | cons e log ih =>
    obtain ⟨he, hwhole⟩ := List.forall_mem_cons.mp hwhole
    rw [frames, if_pos he, ih hwhole, List.nil_append]
    rfl

end EdenLogger.LockedWriters
