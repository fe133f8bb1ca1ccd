import EdenLogger.MachineWord
import EdenLogger.RetryDelay
import EdenLogger.RunRules
import Mathlib.Data.List.Infix

/-!
# Emergency diagnostics

A call reads the clock, loads the time of the last diagnostic, and gives up if
too little time has passed. It then exchanges the loaded time for its own and
prints if the exchange succeeds. Calls run concurrently. A load, and an
exchange that fails, may see any value the atomic ever held; an exchange that
succeeds replaces the newest one. Clock readings are arbitrary.
-/

namespace EdenLogger.EmergencyDiagnostics

open MachineWord RetryDelay RunRules

/-- `unix_millis` of a reading in nanoseconds. Readings before the epoch are zero. -/
def unixMillis (clock : ℤ) : ℕ := min (asMillis clock.toNat) wordMax

/-- `duration_millis` of a duration in nanoseconds. -/
def durationMillis (duration : ℕ) : ℕ := min (asMillis duration) wordMax

/-- Whether too little time has passed. The subtraction saturates. -/
def tooSoon (interval now previous : ℕ) : Bool := decide (now - previous < interval)

/-- What `eprintln` writes. -/
def diagnosticLine (message : String) : String := "[eden_logger_export emergency] " ++ message

/-- Where a call of `emergency` is. -/
inductive Call where
  /-- It has read the clock. -/
  | started (message : String) (now : ℕ)
  /-- It has loaded the last time, which is long enough ago. -/
  | loaded (message : String) (now previous : ℕ)
  /-- Its exchange has succeeded. -/
  | exchanged (message : String)
  | returned

/-- A time that a call recorded. -/
structure Stamp where
  call : ℕ
  millis : ℕ

/-- The atomic, the calls and their output. -/
structure Diagnostics where
  /-- Successful exchanges, in order. -/
  recorded : List Stamp
  /-- All calls so far. -/
  calls : List Call
  /-- Calls that printed, with their lines. -/
  printed : List (ℕ × String)

/-- No call yet. -/
def Diagnostics.new : Diagnostics := ⟨[], [], []⟩

/-- The values that `last_diagnostic_millis` has held, in order. -/
def Diagnostics.values (s : Diagnostics) : List ℕ := 0 :: s.recorded.map Stamp.millis

/-- Put a call elsewhere. -/
def Diagnostics.at (s : Diagnostics) (i : ℕ) (call : Call) : Diagnostics :=
  { s with calls := s.calls.set i call }

/-- Atomic accesses, and the arrival and the output of calls. -/
inductive Access where
  /-- A call starts at a reading of the clock. -/
  | enter (message : String) (clock : ℤ)
  /-- A call loads the `k`-th value. -/
  | load (i k : ℕ)
  /-- A call's exchange sees the `k`-th value. -/
  | compareExchange (i k : ℕ)
  /-- A call prints. -/
  | print (i : ℕ)

/-- One step of some call. -/
def step (interval : ℕ) (s : Diagnostics) : Access → Option Diagnostics
  | .enter message clock =>
    some { s with calls := s.calls ++ [.started message (unixMillis clock)] }
  | .load i k =>
    match s.calls[i]?, s.values[k]? with
    | some (.started message now), some previous =>
      if tooSoon interval now previous then some (s.at i .returned)
      else some (s.at i (.loaded message now previous))
    | _, _ => none
  | .compareExchange i k =>
    match s.calls[i]?, s.values[k]? with
    | some (.loaded message now previous), some value =>
      if value ≠ previous then some (s.at i .returned)
      -- a successful exchange sees the newest value
      else if k + 1 = s.values.length then
        some { s.at i (.exchanged message) with recorded := s.recorded ++ [⟨i, now⟩] }
      else none
    | _, _ => none
  | .print i =>
    match s.calls[i]? with
    | some (.exchanged message) =>
      some { s.at i .returned with printed := s.printed ++ [(i, diagnosticLine message)] }
    | _ => none

/-- A later time is at least an interval after an earlier one. -/
def Spaced (interval : ℕ) (earlier later : ℕ) : Prop :=
  earlier < later ∧ interval ≤ later - earlier

/-- A call that has not exchanged has no stamp, and one that may exchange read
a time that is an interval ago. -/
def Call.Ok (interval : ℕ) (s : Diagnostics) (i : ℕ) : Call → Prop
  | .started _ _ => ∀ stamp ∈ s.recorded, stamp.call ≠ i
  | .loaded _ now previous =>
    Spaced interval previous now ∧ ∀ stamp ∈ s.recorded, stamp.call ≠ i
  | .exchanged _ => (∃ stamp ∈ s.recorded, stamp.call = i) ∧ ∀ line ∈ s.printed, line.1 ≠ i
  | .returned => True

/-- What holds after every step. -/
structure Inv (interval : ℕ) (s : Diagnostics) : Prop where
  spaced : s.values.Pairwise (Spaced interval)
  calls : ∀ (i : ℕ) (call : Call), s.calls[i]? = some call → call.Ok interval s i
  known : ∀ stamp ∈ s.recorded, stamp.call < s.calls.length
  once : (s.recorded.map Stamp.call).Nodup
  printed : ∀ line ∈ s.printed, ∃ stamp ∈ s.recorded, stamp.call = line.1
  printedOnce : (s.printed.map Prod.fst).Nodup

/-- Spacing adds up. -/
theorem Spaced.trans {interval a b c : ℕ} (hab : Spaced interval a b) (hbc : Spaced interval b c) :
    Spaced interval a c := by
  unfold Spaced at *
  omega

/-- A call that finds enough time passed is spaced from the time it loaded. -/
theorem spaced_of_not_tooSoon {interval now previous : ℕ} (hi : 0 < interval)
    (h : tooSoon interval now previous = false) : Spaced interval previous now := by
  unfold tooSoon at h
  have hle := of_decide_eq_false h
  unfold Spaced
  omega

/-- A value spaced from the newest one is spaced from all. -/
theorem pairwise_concat {interval previous now k : ℕ} {values : List ℕ}
    (h : values.Pairwise (Spaced interval)) (hk : values[k]? = some previous)
    (hlast : k + 1 = values.length) (hnow : Spaced interval previous now) :
    (values ++ [now]).Pairwise (Spaced interval) := by
  refine List.pairwise_append.mpr ⟨h, List.pairwise_singleton _ _, fun a ha b hb => ?_⟩
  rw [List.mem_singleton] at hb
  subst hb
  obtain ⟨j, hj, rfl⟩ := List.mem_iff_getElem.mp ha
  obtain ⟨hk', rfl⟩ := List.getElem?_eq_some_iff.mp hk
  rcases Nat.lt_or_ge j k with hjk | hjk
  · exact (List.pairwise_iff_getElem.mp h j k hj hk' hjk).trans hnow
  · obtain rfl : j = k := by omega
    exact hnow

/-- An element behind a list is in it, or is the new one. -/
theorem mem_behind {α : Type} {l : List α} {a b : α} (h : a ∈ l ++ [b]) : a ∈ l ∨ a = b :=
  (List.mem_append.mp h).imp_right List.mem_singleton.mp

/-- A new number behind distinct ones. -/
theorem nodup_behind {l : List ℕ} {i : ℕ} (h : l.Nodup) (hi : i ∉ l) : (l ++ [i]).Nodup :=
  List.concat_eq_append ▸ h.concat hi

/-- A move keeps the number of calls. -/
@[simp] theorem at_length (s : Diagnostics) (i : ℕ) (call : Call) :
    (s.at i call).calls.length = s.calls.length := List.length_set

/-- Stamps and lines of other calls do not concern a call. -/
theorem Call.Ok.frame {interval j : ℕ} {s s' : Diagnostics} {call : Call}
    (h : call.Ok interval s j) (hkeep : s.recorded ⊆ s'.recorded)
    (hrecorded : ∀ stamp ∈ s'.recorded, stamp ∈ s.recorded ∨ stamp.call ≠ j)
    (hprinted : ∀ line ∈ s'.printed, line ∈ s.printed ∨ line.1 ≠ j) : call.Ok interval s' j := by
  cases call with
  | started message now => exact fun stamp hs => (hrecorded stamp hs).elim (h stamp) id
  | loaded message now previous =>
    exact ⟨h.1, fun stamp hs => (hrecorded stamp hs).elim (h.2 stamp) id⟩
  | exchanged message =>
    obtain ⟨⟨stamp, hs, hcall⟩, hlines⟩ := h
    exact ⟨⟨stamp, hkeep hs, hcall⟩, fun line hl => (hprinted line hl).elim (hlines line) id⟩
  | returned => trivial

/-- One call moves, and nothing but its own stamps and lines is new. -/
theorem calls_at {interval i : ℕ} {s s' : Diagnostics} {call : Call} (h : Inv interval s)
    (hcalls : s'.calls = s.calls.set i call) (hcall : call.Ok interval s' i)
    (hkeep : s.recorded ⊆ s'.recorded)
    (hrecorded : ∀ stamp ∈ s'.recorded, stamp ∈ s.recorded ∨ stamp.call = i)
    (hprinted : ∀ line ∈ s'.printed, line ∈ s.printed ∨ line.1 = i) :
    ∀ (j : ℕ) (other : Call), s'.calls[j]? = some other → other.Ok interval s' j := by
  intro j other hj
  rw [hcalls, List.getElem?_set] at hj
  split_ifs at hj with hij hlt
  · cases hj
    exact hij ▸ hcall
  · refine (h.calls j other hj).frame hkeep (fun stamp hs => ?_) fun line hl => ?_
    · exact (hrecorded stamp hs).imp_right fun heq hj => hij (heq.symm.trans hj)
    · exact (hprinted line hl).imp_right fun heq hj => hij (heq.symm.trans hj)

/-- A move that records and prints nothing keeps the invariant. -/
theorem Inv.at {interval i : ℕ} {s : Diagnostics} {call : Call} (h : Inv interval s)
    (hcall : call.Ok interval s i) : Inv interval (s.at i call) where
  spaced := h.spaced
  calls := by
    have hcall' : call.Ok interval (s.at i call) i :=
      hcall.frame (List.Subset.refl _) (fun _ hs => Or.inl hs) fun _ hl => Or.inl hl
    exact calls_at h rfl hcall' (List.Subset.refl _) (fun _ hs => Or.inl hs) fun _ hl => Or.inl hl
  known stamp hs := by
    rw [at_length]
    exact h.known stamp hs
  once := h.once
  printed := h.printed
  printedOnce := h.printedOnce

/-- A new call has no stamp. -/
theorem Inv.enter {interval : ℕ} {s : Diagnostics} (h : Inv interval s) (message : String)
    (now : ℕ) : Inv interval { s with calls := s.calls ++ [.started message now] } where
  spaced := h.spaced
  calls j other hj := by
    rcases Nat.lt_or_ge j s.calls.length with hlt | hge
    · rw [List.getElem?_append_left hlt] at hj
      exact (h.calls j other hj).frame (List.Subset.refl _) (fun _ hs => Or.inl hs)
        fun _ hl => Or.inl hl
    · rw [List.getElem?_append_right hge, List.getElem?_singleton] at hj
      split_ifs at hj with h0
      cases hj
      intro stamp hs
      have hlt := h.known stamp hs
      omega
  known stamp hs := by
    rw [List.length_append]
    exact Nat.lt_add_right _ (h.known stamp hs)
  once := h.once
  printed := h.printed
  printedOnce := h.printedOnce

/-- A successful exchange records a time that is spaced from all earlier ones. -/
theorem Inv.exchange {interval i k now previous : ℕ} {message : String} {s : Diagnostics}
    (h : Inv interval s) (hi : s.calls[i]? = some (.loaded message now previous))
    (hk : s.values[k]? = some previous) (hlast : k + 1 = s.values.length) :
    Inv interval { s.at i (.exchanged message) with recorded := s.recorded ++ [⟨i, now⟩] } where
  spaced := by
    have hpair := pairwise_concat h.spaced hk hlast (h.calls i _ hi).1
    have hvalues : s.values ++ [now] =
        0 :: (s.recorded ++ [(⟨i, now⟩ : Stamp)]).map Stamp.millis := by
      simp only [Diagnostics.values, List.map_append, List.map_singleton, List.cons_append]
    rw [hvalues] at hpair
    exact hpair
  calls := by
    refine calls_at h rfl ?_ (List.subset_append_left _ _) (fun stamp hs => ?_)
      fun _ hl => Or.inl hl
    · refine ⟨⟨⟨i, now⟩, List.mem_append_right _ (List.mem_singleton_self _), rfl⟩, ?_⟩
      intro line hl heq
      obtain ⟨stamp, hs, hcall⟩ := h.printed line hl
      exact (h.calls i _ hi).2 stamp hs (hcall.trans heq)
    · exact (mem_behind hs).imp_right fun heq => by rw [heq]
  known stamp hs := by
    rw [at_length]
    rcases mem_behind hs with hs | rfl
    · exact h.known stamp hs
    · exact (List.getElem?_eq_some_iff.mp hi).1
  once := by
    rw [List.map_append]
    refine nodup_behind h.once fun hmem => ?_
    obtain ⟨stamp, hs, heq⟩ := List.mem_map.mp hmem
    exact (h.calls i _ hi).2 stamp hs heq
  printed line hl := by
    obtain ⟨stamp, hs, hcall⟩ := h.printed line hl
    exact ⟨stamp, List.mem_append_left _ hs, hcall⟩
  printedOnce := h.printedOnce

/-- A call prints once, and only after it recorded its time. -/
theorem Inv.print {interval i : ℕ} {message : String} {s : Diagnostics} (h : Inv interval s)
    (hi : s.calls[i]? = some (.exchanged message)) :
    Inv interval { s.at i .returned with
      printed := s.printed ++ [(i, diagnosticLine message)] } where
  spaced := h.spaced
  calls := by
    refine calls_at h rfl trivial (List.Subset.refl _) (fun _ hs => Or.inl hs) fun line hl => ?_
    exact (mem_behind hl).imp_right fun heq => by rw [heq]
  known stamp hs := by
    rw [at_length]
    exact h.known stamp hs
  once := h.once
  printed line hl := by
    rcases mem_behind hl with hl | rfl
    · exact h.printed line hl
    · exact (h.calls i _ hi).1
  printedOnce := by
    rw [List.map_append]
    refine nodup_behind h.printedOnce fun hmem => ?_
    obtain ⟨line, hl, heq⟩ := List.mem_map.mp hmem
    exact (h.calls i _ hi).2 line hl heq

/-- Every step keeps the invariant. -/
theorem inv_step {interval : ℕ} (hpos : 0 < interval) {s s' : Diagnostics} {a : Access}
    (h : Inv interval s) (hs : step interval s a = some s') : Inv interval s' := by
  cases a with
  | enter message clock =>
    cases hs
    exact h.enter message _
  | load i k =>
    simp only [step] at hs
    split at hs
    · rename_i message now previous hi hk
      split_ifs at hs with hsoon
      · cases hs
        exact h.at trivial
      · cases hs
        have hspaced := spaced_of_not_tooSoon hpos (Bool.eq_false_iff.mpr hsoon)
        exact h.at ⟨hspaced, h.calls i _ hi⟩
    · cases hs
  | compareExchange i k =>
    simp only [step] at hs
    split at hs
    · rename_i message now previous value hi hk
      split_ifs at hs with hne hlast
      · cases hs
        exact h.at trivial
      · cases hs
        rw [not_not] at hne
        exact h.exchange hi (hne ▸ hk) hlast
    · cases hs
  | print i =>
    simp only [step] at hs
    split at hs
    · rename_i message hi
      cases hs
      exact h.print hi
    · cases hs

/-- Nothing was recorded or printed. -/
theorem inv_new (interval : ℕ) : Inv interval Diagnostics.new where
  spaced := List.pairwise_singleton _ _
  calls i call hi := by
    rw [Diagnostics.new, List.getElem?_nil] at hi
    cases hi
  known _ hs := by cases hs
  once := List.nodup_nil
  printed _ hl := by cases hl
  printedOnce := List.nodup_nil

/-- An interval of a millisecond or more is not rounded to zero. -/
theorem durationMillis_pos {duration : ℕ} (h : 1000000 ≤ duration) :
    0 < durationMillis duration := by
  unfold durationMillis asMillis wordMax
  omega

/-- Emergency diagnostics are rate limited. In every run of concurrent calls,
whatever the clock reads, the recorded times increase and are an interval
apart, and each line belongs to a call of its own that recorded a time. -/
theorem diagnostics_rate_limited {diagnosticInterval : ℕ} (h : 1000000 ≤ diagnosticInterval)
    {s : Diagnostics} (hr : Reach (step (durationMillis diagnosticInterval)) Diagnostics.new s) :
    (s.recorded.map Stamp.millis).Pairwise
        (fun earlier later => earlier < later ∧
          durationMillis diagnosticInterval ≤ later - earlier) ∧
      (s.recorded.map Stamp.call).Nodup ∧
      (s.printed.map Prod.fst).Subperm (s.recorded.map Stamp.call) := by
  have hinv : Inv (durationMillis diagnosticInterval) s :=
    hr.invariant (inv_new _) fun _ _ _ hi _ hs => inv_step (durationMillis_pos h) hi hs
  refine ⟨(List.pairwise_cons.mp hinv.spaced).2, hinv.once, ?_⟩
  refine List.subperm_of_subset hinv.printedOnce fun call hcall => ?_
  obtain ⟨line, hl, rfl⟩ := List.mem_map.mp hcall
  obtain ⟨stamp, hs, heq⟩ := hinv.printed line hl
  exact List.mem_map.mpr ⟨stamp, hs, heq⟩

/-- A second call loads the first call's time and reads a clock that went
back, a third one comes an interval later. -/
theorem diagnostics_rate_limited_three :
    ∃ s, Reach (step (durationMillis 2000000)) Diagnostics.new s ∧
      s.recorded.map Stamp.millis = [5, 7] ∧
      (s.recorded.map Stamp.millis).Pairwise
        (fun earlier later => earlier < later ∧ durationMillis 2000000 ≤ later - earlier) := by
  obtain ⟨s, hr, hs⟩ := exists_reach (step (durationMillis 2000000)) Diagnostics.new
    [.enter "a" 5000000, .load 0 0, .compareExchange 0 0, .enter "b" (-1), .load 1 1,
      .enter "c" 7000000, .load 2 1, .print 0, .compareExchange 2 1, .print 2]
    (fun s => decide (s.recorded.map Stamp.millis = [5, 7])) rfl
  exact ⟨s, hr, of_decide_eq_true hs, (diagnostics_rate_limited (by decide) hr).1⟩

end EdenLogger.EmergencyDiagnostics
