import EdenLogger.MachineWord
import EdenLogger.Watermark
import Mathlib.Data.List.Nodup

/-!
# Completion tracking

The worker's tracker turns completions in any order into one contiguous
ticket. Tickets above the watermark wait in a set, and the watermark moves
over them as soon as the gap below is closed.
-/

namespace EdenLogger.CompletionTracking

open MachineWord Watermark

/-- The worker's view of what has been completed. -/
structure CompletionTracker where
  /-- Every ticket up to this one is completed. -/
  watermark : ℕ
  /-- Completed tickets above the watermark, without repetition. -/
  outOfOrder : List ℕ
  deriving DecidableEq

/-- A tracker that starts at the published ticket. -/
def CompletionTracker.new (completedTicket : ℕ) : CompletionTracker := ⟨completedTicket, []⟩

/-- Move the watermark while the next ticket is waiting. Each round removes
one waiting ticket. -/
def catchUp : ℕ → CompletionTracker → CompletionTracker
  | 0, t => t
  | fuel + 1, t =>
    if saturatingAdd t.watermark 1 ∈ t.outOfOrder then
      catchUp fuel
        ⟨saturatingAdd t.watermark 1, t.outOfOrder.erase (saturatingAdd t.watermark 1)⟩
    else t

/-- Complete one ticket. A ticket at or below the watermark is ignored, and
then nothing is published. -/
def CompletionTracker.complete (t : CompletionTracker) (ticket : ℕ) : Option CompletionTracker :=
  if ticket ≤ t.watermark then none
  else
    let waiting := t.outOfOrder.insert ticket
    some (catchUp (waiting.length + 1) ⟨t.watermark, waiting⟩)

/-- The tracker knows the completed tickets: those up to the watermark by the
watermark, the others by the waiting set. -/
structure Tracks (t : CompletionTracker) (completed : List ℕ) : Prop where
  /-- Nothing up to the watermark is missing. -/
  covered : ∀ n, 0 < n → n ≤ t.watermark → n ∈ completed
  /-- The waiting tickets are the completed ones above the watermark. -/
  waiting : ∀ n, n ∈ t.outOfOrder ↔ n ∈ completed ∧ t.watermark < n
  /-- The waiting set has no repetition. -/
  nodup : t.outOfOrder.Nodup
  /-- Tickets are words. -/
  words : ∀ n ∈ completed, n ≤ wordMax

/-- One round of the loop keeps the tracker in step. -/
theorem Tracks.advance {t : CompletionTracker} {completed : List ℕ} (h : Tracks t completed)
    (hm : t.watermark + 1 ∈ t.outOfOrder) :
    Tracks ⟨t.watermark + 1, t.outOfOrder.erase (t.watermark + 1)⟩ completed := by
  have hc := ((h.waiting _).mp hm).1
  refine ⟨fun n hn hle => ?_, fun n => ?_, h.nodup.erase _, h.words⟩
  · rcases Nat.lt_or_ge t.watermark n with hlt | hge
    · have : n = t.watermark + 1 := by
        dsimp only at hle
        omega
      exact this ▸ hc
    · exact h.covered n hn hge
  · dsimp only
    rw [h.nodup.mem_erase_iff, h.waiting n]
    constructor
    · rintro ⟨hne, hn, hlt⟩
      exact ⟨hn, by omega⟩
    · rintro ⟨hn, hlt⟩
      exact ⟨by omega, hn, by omega⟩

/-- With enough rounds the loop ends at the watermark. -/
theorem Tracks.catchUp {t : CompletionTracker} {completed : List ℕ} (h : Tracks t completed)
    {fuel : ℕ} (hf : t.outOfOrder.length < fuel) :
    Tracks (catchUp fuel t) completed ∧
      (CompletionTracking.catchUp fuel t).watermark + 1 ∉ completed := by
  induction fuel generalizing t with
  | zero => omega
  | succ fuel ih =>
    rw [CompletionTracking.catchUp]
    split
    · rename_i hm
      -- a waiting ticket is a word above the watermark, so adding one is exact
      have hw := (h.waiting _).mp hm
      have hb := h.words _ hw.1
      have he : saturatingAdd t.watermark 1 = t.watermark + 1 := by
        unfold saturatingAdd at hw ⊢
        omega
      rw [he] at hm ⊢
      have hl := List.length_erase_of_mem hm
      have hp := List.length_pos_of_mem hm
      exact ih (h.advance hm) (by dsimp only; omega)
    · rename_i hm
      refine ⟨h, fun hc => hm ?_⟩
      have hb := h.words _ hc
      rw [saturatingAdd_of_le hb]
      exact (h.waiting _).mpr ⟨hc, Nat.lt_succ_self _⟩

/-- The tracker of a generation: in step, with the next ticket missing. -/
structure Exact (t : CompletionTracker) (completed : List ℕ) : Prop extends
    Tracks t completed where
  /-- The ticket after the watermark is not completed. -/
  next_missing : t.watermark + 1 ∉ completed

/-- An exact tracker's watermark is the watermark of the completed tickets. -/
theorem Exact.isWatermark {t : CompletionTracker} {completed : List ℕ}
    (h : Exact t completed) : IsWatermark {n | n ∈ completed} t.watermark :=
  ⟨h.covered, h.next_missing⟩

/-- A fresh tracker is exact for no completions. -/
theorem exact_new : Exact (.new 0) [] where
  covered := fun n hn hle => absurd hn (Nat.not_lt.mpr hle)
  waiting := by simp [CompletionTracker.new]
  nodup := List.nodup_nil
  words := by simp
  next_missing := by simp

/-- The tracker only depends on which tickets are completed. -/
theorem Exact.congr {t : CompletionTracker} {completed later : List ℕ} (h : Exact t completed)
    (hm : ∀ n, n ∈ later ↔ n ∈ completed) : Exact t later where
  covered := fun n hn hle => (hm n).mpr (h.covered n hn hle)
  waiting := fun n => by rw [h.waiting, hm]
  nodup := h.nodup
  words := fun n hn => h.words n ((hm n).mp hn)
  next_missing := fun hn => h.next_missing ((hm _).mp hn)

/-- An ignored ticket was completed before, or is none that is waited for. -/
theorem Exact.complete_none {t : CompletionTracker} {completed : List ℕ} {ticket : ℕ}
    (h : Exact t completed) (hword : ticket ≤ wordMax) (hc : t.complete ticket = none) :
    Exact t (completed ++ [ticket]) := by
  unfold CompletionTracker.complete at hc
  split at hc
  · rename_i hle
    have hmem : ∀ n, n ∈ completed ++ [ticket] ↔ n ∈ completed ∨ n = ticket := by simp
    refine {
      covered := fun n hn hw => (hmem n).mpr (Or.inl (h.covered n hn hw))
      waiting := fun n => ?_
      nodup := h.nodup
      words := fun n hn => ((hmem n).mp hn).elim (h.words n) fun he => he ▸ hword
      next_missing := fun hn => ((hmem _).mp hn).elim h.next_missing fun he => by omega }
    rw [h.waiting, hmem]
    refine and_congr_left fun hlt => (or_iff_left fun he => ?_).symm
    omega
  · exact absurd hc (by simp)

/-- Completing a ticket keeps the tracker exact. -/
theorem Exact.complete_some {t t' : CompletionTracker} {completed : List ℕ} {ticket : ℕ}
    (h : Exact t completed) (hword : ticket ≤ wordMax) (hc : t.complete ticket = some t') :
    Exact t' (completed ++ [ticket]) := by
  unfold CompletionTracker.complete at hc
  split at hc
  · exact absurd hc (by simp)
  · rename_i hgt
    have hins : Tracks ⟨t.watermark, t.outOfOrder.insert ticket⟩ (completed ++ [ticket]) := by
      refine ⟨fun n hn hle => ?_, fun n => ?_, List.Nodup.insert h.nodup, fun n hn => ?_⟩
      · exact List.mem_append_left _ (h.covered n hn hle)
      · dsimp only
        rw [List.mem_insert_iff, h.waiting n, List.mem_append, List.mem_singleton]
        constructor
        · rintro (rfl | hn)
          · exact ⟨Or.inr rfl, by omega⟩
          · exact ⟨Or.inl hn.1, hn.2⟩
        · rintro ⟨hn | rfl, hw⟩
          · exact Or.inr ⟨hn, hw⟩
          · exact Or.inl rfl
      · rcases List.mem_append.mp hn with hn | hn
        · exact h.words n hn
        · exact List.mem_singleton.mp hn ▸ hword
    injection hc with hc
    subst hc
    obtain ⟨ht, hn⟩ := hins.catchUp (Nat.lt_succ_self _)
    exact ⟨ht, hn⟩

end EdenLogger.CompletionTracking
