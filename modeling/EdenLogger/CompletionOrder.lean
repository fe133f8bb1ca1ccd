import EdenLogger.GenerationStep
import Mathlib.Order.Bounds.Defs
import Mathlib.Order.Bounds.Basic

/-!
# Completions in any order

The tracker is called for one ticket or for the tickets of a batch. What it
publishes and what it keeps depend only on which tickets were completed, so the
order of the calls, their grouping and repetitions make no difference.
-/

namespace EdenLogger.CompletionOrder

open MachineWord Watermark CompletionTracking GenerationState GenerationStep

/-! ## The loop ends -/

/-- With a round for each waiting ticket and one more, the loop ends by its own condition, and
further rounds change nothing; wherever the watermark stands. -/
theorem catchUp_ends (t : CompletionTracker) {fuel : ℕ} (hf : t.outOfOrder.length < fuel) :
    saturatingAdd (catchUp fuel t).watermark 1 ∉ (catchUp fuel t).outOfOrder ∧
      catchUp fuel t = catchUp (t.outOfOrder.length + 1) t := by
  induction fuel generalizing t with
  | zero => omega
  | succ fuel ih =>
    rw [catchUp, catchUp]
    split
    · rename_i hm
      have hlen := List.length_erase_of_mem hm
      have hpos := List.length_pos_of_mem hm
      have hnext := ih
        ⟨saturatingAdd t.watermark 1, t.outOfOrder.erase (saturatingAdd t.watermark 1)⟩
        (by dsimp only; omega)
      dsimp only at hnext
      rw [hlen, Nat.sub_add_cancel hpos] at hnext
      exact hnext
    · rename_i hm
      exact ⟨hm, rfl⟩

/-! ## Tickets are kept -/

/-- The tracker has a ticket as completed. -/
def Has (t : CompletionTracker) (n : ℕ) : Prop := n ≤ t.watermark ∨ n ∈ t.outOfOrder

/-- The loop loses no ticket. -/
theorem catchUp_has (t : CompletionTracker) (fuel : ℕ) {n : ℕ} (hword : t.watermark ≤ wordMax)
    (h : Has t n) : (catchUp fuel t).watermark ≤ wordMax ∧ Has (catchUp fuel t) n := by
  induction fuel generalizing t with
  | zero => exact ⟨hword, h⟩
  | succ fuel ih =>
    rw [catchUp]
    split
    · have hle : t.watermark ≤ saturatingAdd t.watermark 1 := by
        unfold saturatingAdd
        omega
      refine ih _ (Nat.min_le_right _ _) ?_
      rcases h with h | h
      · exact Or.inl (h.trans hle)
      · by_cases hn : n = saturatingAdd t.watermark 1
        · exact Or.inl (Nat.le_of_eq hn)
        · exact Or.inr ((List.mem_erase_of_ne hn).mpr h)
    · exact ⟨hword, h⟩

/-- A ticket that is ignored is there. -/
theorem has_of_ignored {t : CompletionTracker} {ticket : ℕ} (h : t.complete ticket = none) :
    Has t ticket := by
  unfold CompletionTracker.complete at h
  split at h
  · exact Or.inl ‹_›
  · cases h

/-- A ticket that is completed is there, and no other is lost. -/
theorem has_of_completed {t t' : CompletionTracker} {ticket : ℕ} (hword : t.watermark ≤ wordMax)
    (h : t.complete ticket = some t') :
    t'.watermark ≤ wordMax ∧ Has t' ticket ∧ ∀ n, Has t n → Has t' n := by
  unfold CompletionTracker.complete at h
  split at h
  · cases h
  · obtain rfl := Option.some.inj h
    have hwaiting : ∀ n, n = ticket ∨ Has t n →
        Has ⟨t.watermark, t.outOfOrder.insert ticket⟩ n := by
      rintro n (rfl | hn | hn)
      · exact Or.inr List.mem_insert_self
      · exact Or.inl hn
      · exact Or.inr (List.mem_insert_of_mem hn)
    have hkeep : ∀ n, n = ticket ∨ Has t n → _ := fun n hn =>
      catchUp_has ⟨t.watermark, t.outOfOrder.insert ticket⟩
        ((t.outOfOrder.insert ticket).length + 1) hword (hwaiting n hn)
    have hself := hkeep ticket (Or.inl rfl)
    exact ⟨hself.1, hself.2, fun n hn => (hkeep n (Or.inr hn)).2⟩

/-! ## Calls -/

/-- The tracker and the ticket it has published. -/
structure Published where
  tracker : CompletionTracker
  completedTicket : ℕ

/-- `complete`: a ticket above the watermark is completed and published. -/
def Published.complete (p : Published) (ticket : ℕ) : Published :=
  match p.tracker.complete ticket with
  | none => p
  | some t => ⟨t, t.watermark⟩

/-- `complete_all`. -/
def Published.completeAll (p : Published) (tickets : List ℕ) : Published :=
  tickets.foldl Published.complete p

/-- The worker completes a ticket like that. -/
theorem completeTicket_published {L : Type} (w : World L) (k : Worker L) (resume : Resume)
    (r : MappedLog) (rest : List MappedLog) :
    (⟨(completeTicket w k resume r rest).2.completions,
      (completeTicket w k resume r rest).1.completedTicket⟩ : Published) =
      Published.complete ⟨k.completions, w.completedTicket⟩ r.ticket := by
  unfold completeTicket Published.complete
  dsimp only
  cases k.completions.complete r.ticket <;> rfl

/-- A call. -/
inductive Call where
  | complete (ticket : UInt64)
  | completeAll (tickets : List UInt64)

/-- Make a call. -/
def Published.call (p : Published) : Call → Published
  | .complete ticket => p.complete ticket.toNat
  | .completeAll tickets => p.completeAll (tickets.map UInt64.toNat)

/-- The calls one after the other, from watermark zero. -/
def run (calls : List Call) : Published := calls.foldl Published.call ⟨.new 0, 0⟩

/-- The tickets of a call. -/
def Call.tickets : Call → List ℕ
  | .complete ticket => [ticket.toNat]
  | .completeAll tickets => tickets.map UInt64.toNat

/-- The tickets that calls complete. -/
def completed (calls : List Call) : Set ℕ := {n | ∃ call ∈ calls, n ∈ call.tickets}

/-- The published ticket is the watermark, and both are exact for what was completed. -/
structure Current (p : Published) (tickets : List ℕ) : Prop where
  exact : Exact p.tracker tickets
  published : p.completedTicket = p.tracker.watermark

/-- A ticket is completed. -/
theorem Current.complete {p : Published} {tickets : List ℕ} (h : Current p tickets) {ticket : ℕ}
    (hword : ticket ≤ wordMax) : Current (p.complete ticket) (tickets ++ [ticket]) := by
  unfold Published.complete
  cases hc : p.tracker.complete ticket with
  | none => exact ⟨h.exact.complete_none hword hc, h.published⟩
  | some t => exact ⟨h.exact.complete_some hword hc, rfl⟩

/-- Tickets are completed. -/
theorem Current.completeAll {p : Published} {tickets : List ℕ} (h : Current p tickets)
    {more : List ℕ} (hwords : ∀ n ∈ more, n ≤ wordMax) :
    Current (p.completeAll more) (tickets ++ more) := by
  unfold Published.completeAll
  induction more generalizing p tickets with
  | nil =>
    rw [List.append_nil]
    exact h
  | cons n more ih =>
    obtain ⟨hn, hmore⟩ := List.forall_mem_cons.mp hwords
    have htail := ih (h.complete hn) hmore
    rwa [List.append_assoc, List.singleton_append] at htail

/-- A call completes its tickets. -/
theorem Current.call {p : Published} {tickets : List ℕ} (h : Current p tickets) (call : Call) :
    Current (p.call call) (tickets ++ call.tickets) := by
  have hword : ∀ ticket : UInt64, ticket.toNat ≤ wordMax := by
    intro ticket
    have hlt := ticket.toNat_lt
    unfold wordMax
    omega
  cases call with
  | complete ticket => exact h.complete (hword ticket)
  | completeAll tickets =>
    exact h.completeAll (List.forall_mem_map.mpr fun ticket _ => hword ticket)

/-- Calls complete their tickets. -/
theorem current_run (calls : List Call) : Current (run calls) (calls.flatMap Call.tickets) := by
  have hrun : ∀ (calls : List Call) (p : Published) (tickets : List ℕ), Current p tickets →
      Current (calls.foldl Published.call p) (tickets ++ calls.flatMap Call.tickets) := by
    intro calls
    induction calls with
    | nil =>
      intro p tickets h
      rw [List.flatMap_nil, List.append_nil]
      exact h
    | cons call calls ih =>
      intro p tickets h
      have htail := ih _ _ (h.call call)
      rwa [List.append_assoc, ← List.flatMap_cons] at htail
  exact hrun calls ⟨.new 0, 0⟩ [] ⟨exact_new, rfl⟩

/-- An exact watermark is the greatest ticket up to which everything is completed. -/
theorem isGreatest_of_isWatermark {seen : Set ℕ} {w : ℕ} (h : IsWatermark seen w) :
    IsGreatest {w | ∀ n, 0 < n → n ≤ w → n ∈ seen} w := by
  refine ⟨h.covered, fun v hv => ?_⟩
  by_contra hlt
  exact h.next_missing (hv (w + 1) (Nat.succ_pos w) (by omega))

/-- States that are current for the same tickets are the same, up to the order in which the
waiting tickets are listed. -/
theorem Current.determined {p q : Published} {tickets others : List ℕ} (h : Current p tickets)
    (h' : Current q others) (hsame : ∀ n, n ∈ tickets ↔ n ∈ others) :
    p.completedTicket = q.completedTicket ∧ p.tracker.watermark = q.tracker.watermark ∧
      p.tracker.outOfOrder.Perm q.tracker.outOfOrder := by
  have hexact := h'.exact.congr hsame
  have hwatermark := h.exact.isWatermark.unique hexact.isWatermark
  refine ⟨?_, hwatermark, ?_⟩
  · rw [h.published, h'.published, hwatermark]
  · refine (List.perm_ext_iff_of_nodup h.exact.nodup hexact.nodup).mpr fun n => ?_
    rw [h.exact.waiting, hexact.waiting, hwatermark]

/-- The watermark is exact and does not depend on the order of completions. After any calls the
published ticket is the greatest up to which everything is completed, the tracker keeps the
completed tickets above it, later calls never lower it, and calls that complete the same tickets,
in any order, end alike. The loop behind a call ends, at the largest word too. -/
theorem completion_watermark_exact (calls : List Call) :
    IsGreatest {w | ∀ n, 0 < n → n ≤ w → n ∈ completed calls} (run calls).completedTicket ∧
    (run calls).tracker.watermark = (run calls).completedTicket ∧
    (run calls).tracker.outOfOrder.Nodup ∧
    (∀ n, n ∈ (run calls).tracker.outOfOrder ↔
      n ∈ completed calls ∧ (run calls).completedTicket < n) ∧
    (∀ later, (run calls).completedTicket ≤ (run (calls ++ later)).completedTicket) ∧
    (∀ others, others.Perm calls →
      (run others).completedTicket = (run calls).completedTicket ∧
      (run others).tracker.watermark = (run calls).tracker.watermark ∧
      (run others).tracker.outOfOrder.Perm (run calls).tracker.outOfOrder) ∧
    (∀ (t : CompletionTracker) (fuel : ℕ), t.outOfOrder.length < fuel →
      saturatingAdd (catchUp fuel t).watermark 1 ∉ (catchUp fuel t).outOfOrder ∧
        catchUp fuel t = catchUp (t.outOfOrder.length + 1) t) := by
  have hmem : ∀ calls n, n ∈ calls.flatMap Call.tickets ↔ n ∈ completed calls := fun calls n =>
    List.mem_flatMap
  have hset : ∀ calls, {n | n ∈ calls.flatMap Call.tickets} = completed calls := fun calls =>
    Set.ext (hmem calls)
  have h := current_run calls
  refine ⟨?_, h.published.symm, h.exact.nodup, fun n => ?_, fun later => ?_, fun others hperm => ?_,
    fun t fuel hf => catchUp_ends t hf⟩
  · rw [h.published, ← hset]
    exact isGreatest_of_isWatermark h.exact.isWatermark
  · rw [h.exact.waiting, hmem, h.published]
  · have hlater := current_run (calls ++ later)
    rw [h.published, hlater.published]
    refine h.exact.isWatermark.mono (fun n hn => ?_) hlater.exact.isWatermark
    rw [Set.mem_ofPred_eq, List.flatMap_append]
    exact List.mem_append_left _ hn
  · exact (current_run others).determined h fun n => (hperm.flatMap_right _).mem_iff

end EdenLogger.CompletionOrder
