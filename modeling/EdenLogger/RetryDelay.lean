import EdenLogger.GenerationStep

/-!
# Retry backoff

The delay before a retry doubles with every failure up to a cap and is jittered
by the clock. It is computed in whole milliseconds, while the configured
durations are checked in nanoseconds, so what the truncation loses decides
whether the delay stays inside its envelope.
-/

namespace EdenLogger.RetryDelay

open MachineWord ExporterConfig GenerationStep

/-! ## Durations -/

/-- The largest 128-bit word. -/
def u128Max : ℕ := 340282366920938463463374607431768211455

/-- `saturating_mul` of two 128-bit words. -/
def saturatingMul (a b : ℕ) : ℕ := min (a * b) u128Max

/-- The longest duration: its seconds are a word. -/
def durationMax : ℕ := wordMax * 1000000000 + 999999999

/-- Whole milliseconds of a duration. -/
def asMillis (duration : ℕ) : ℕ := duration / 1000000

/-- A duration of whole milliseconds. -/
def fromMillis (millis : ℕ) : ℕ := millis * 1000000

theorem asMillis_fromMillis (millis : ℕ) : asMillis (fromMillis millis) = millis :=
  Nat.mul_div_cancel millis (by decide)

/-! ## The delay -/

/-- Doublings after a number of failures. -/
def exponent (failures : ℕ) : ℕ := min (failures - 1) 20

/-- The delay before jitter, in milliseconds. -/
def baseMillis (failures initial maximum : ℕ) : ℕ :=
  min (saturatingMul (asMillis initial) (1 <<< exponent failures)) (asMillis maximum)

/-- Jitter of a clock reading, in percent. -/
def jitterPercent (nanos : ℕ) : ℕ := 75 + nanos % 51

/-- The jittered delay after a number of failures. -/
def retryDelay (failures initial maximum nanos : ℕ) : ℕ :=
  fromMillis (min (saturatingMul (baseMillis failures initial maximum) (jitterPercent nanos) / 100)
    wordMax)

/-- What `export_batch` sleeps before a retry: the collector's `Retry-After`, or the jittered
delay, and no longer than the configured maximum. -/
def sleepDelay (c : Config) (failures nanos : ℕ) (retryAfter : Option ℕ) : ℕ :=
  min (retryAfter.getD (retryDelay failures c.retryInitial c.retryMax nanos)) c.retryMax

/-! ## The envelope -/

/-- Doubled and capped, in any unit. -/
def backoff (failures initial maximum : ℕ) : ℕ := min (initial * 2 ^ exponent failures) maximum

/-- The delay is positive and between three and five quarters of the exact backoff, both rounded
down to milliseconds. -/
structure InEnvelope (failures initial maximum nanos : ℕ) : Prop where
  positive : 0 < retryDelay failures initial maximum nanos
  lower : asMillis (75 * backoff failures initial maximum / 100) ≤
    asMillis (retryDelay failures initial maximum nanos)
  upper : asMillis (retryDelay failures initial maximum nanos) ≤
    asMillis (125 * backoff failures initial maximum / 100)

/-- No product of the delay's computation saturates. -/
structure NoOverflow (failures initial maximum nanos : ℕ) : Prop where
  doubled : asMillis initial * 2 ^ exponent failures ≤ u128Max
  jittered : baseMillis failures initial maximum * jitterPercent nanos ≤ u128Max

/-- The backoff of the durations' whole milliseconds. -/
def wholeBackoff (failures initial maximum : ℕ) : ℕ :=
  backoff failures (asMillis initial) (asMillis maximum)

/-- What the exact backoff has more, in nanoseconds. -/
def lostNanos (failures initial maximum : ℕ) : ℕ :=
  backoff failures initial maximum - fromMillis (wholeBackoff failures initial maximum)

/-- How many quarters of a millisecond three quarters of some milliseconds lie below the next
whole one. -/
def spareQuarters (millis : ℕ) : ℕ := if 4 ∣ millis then 4 else millis % 4

/-- Durations whose backoff survives the cut to whole milliseconds: two of them are left, three
quarters of what is lost stay below the next millisecond, and three quarters of the backoff are a
word of milliseconds. -/
structure MillisSuffice (failures initial maximum : ℕ) : Prop where
  whole : 2 ≤ wholeBackoff failures initial maximum
  lost : 3 * lostNanos failures initial maximum <
    1000000 * spareQuarters (wholeBackoff failures initial maximum)
  fits : 3 * backoff failures initial maximum < 4000000 * size

variable {failures initial maximum : ℕ}

/-- At most twenty doublings. -/
theorem doublings_le (failures : ℕ) : 2 ^ exponent failures ≤ 2 ^ 20 :=
  Nat.pow_le_pow_right (by decide) (Nat.min_le_right _ _)

/-- A jitter is between three and five quarters. -/
theorem jitterPercent_bounds (nanos : ℕ) :
    75 ≤ jitterPercent nanos ∧ jitterPercent nanos ≤ 125 := by
  unfold jitterPercent
  omega

/-- The doubled milliseconds of a duration are far from the largest word. -/
theorem doubled_le (hi : initial ≤ durationMax) (failures : ℕ) :
    asMillis initial * 2 ^ exponent failures ≤ u128Max := by
  have hmillis : asMillis initial ≤ durationMax / 1000000 := Nat.div_le_div_right hi
  calc asMillis initial * 2 ^ exponent failures
      ≤ durationMax / 1000000 * 2 ^ 20 := Nat.mul_le_mul hmillis (doublings_le failures)
    _ ≤ u128Max := by decide

/-- The delay before jitter is the backoff of the whole milliseconds. -/
theorem baseMillis_eq (hi : initial ≤ durationMax) (failures maximum : ℕ) :
    baseMillis failures initial maximum = wholeBackoff failures initial maximum := by
  rw [baseMillis, wholeBackoff, backoff, saturatingMul, Nat.one_shiftLeft,
    Nat.min_eq_left (doubled_le hi failures)]

/-- Nor does the jittered product saturate. -/
theorem jittered_le (hm : maximum ≤ durationMax) (failures initial nanos : ℕ) :
    baseMillis failures initial maximum * jitterPercent nanos ≤ u128Max := by
  have hbase : baseMillis failures initial maximum ≤ durationMax / 1000000 :=
    (Nat.min_le_right _ _).trans (Nat.div_le_div_right hm)
  calc baseMillis failures initial maximum * jitterPercent nanos
      ≤ durationMax / 1000000 * 125 := Nat.mul_le_mul hbase (jitterPercent_bounds nanos).2
    _ ≤ u128Max := by decide

/-- The delay in milliseconds. -/
theorem asMillis_retryDelay (hi : initial ≤ durationMax) (hm : maximum ≤ durationMax)
    (failures nanos : ℕ) :
    asMillis (retryDelay failures initial maximum nanos) =
      min (wholeBackoff failures initial maximum * jitterPercent nanos / 100) wordMax := by
  rw [retryDelay, asMillis_fromMillis, saturatingMul,
    Nat.min_eq_left (jittered_le hm failures initial nanos), baseMillis_eq hi]

/-- Truncation only shortens the backoff. -/
theorem backoff_eq_whole_add (failures initial maximum : ℕ) :
    backoff failures initial maximum =
      1000000 * wholeBackoff failures initial maximum + lostNanos failures initial maximum := by
  have hinitial : 1000000 * asMillis initial ≤ initial := Nat.mul_div_le initial 1000000
  have hmaximum : 1000000 * asMillis maximum ≤ maximum := Nat.mul_div_le maximum 1000000
  have hdoubled : 1000000 * (asMillis initial * 2 ^ exponent failures) ≤
      initial * 2 ^ exponent failures := by
    rw [← Nat.mul_assoc]
    exact Nat.mul_le_mul_right _ hinitial
  unfold lostNanos fromMillis wholeBackoff backoff
  omega

/-- Durations of whole milliseconds lose nothing. -/
theorem lostNanos_of_dvd (hi : 1000000 ∣ initial) (hm : 1000000 ∣ maximum) (failures : ℕ) :
    lostNanos failures initial maximum = 0 := by
  obtain ⟨i, rfl⟩ := hi
  obtain ⟨m, rfl⟩ := hm
  have hwhole : ∀ n, asMillis (1000000 * n) = n := fun n => Nat.mul_div_cancel_left n (by decide)
  rw [lostNanos, wholeBackoff, hwhole, hwhole, backoff, backoff, fromMillis, Nat.mul_assoc]
  omega

/-- A delay that is zero is zero milliseconds. -/
theorem retryDelay_pos (failures initial maximum nanos : ℕ) :
    0 < retryDelay failures initial maximum nanos ↔
      0 < asMillis (retryDelay failures initial maximum nanos) := by
  rw [retryDelay, asMillis_fromMillis, fromMillis]
  omega

/-- The delay never leaves the envelope upwards. -/
theorem delay_le_upper (hi : initial ≤ durationMax) (hm : maximum ≤ durationMax)
    (failures nanos : ℕ) :
    asMillis (retryDelay failures initial maximum nanos) ≤
      asMillis (125 * backoff failures initial maximum / 100) := by
  have hwhole := backoff_eq_whole_add failures initial maximum
  have hjitter : wholeBackoff failures initial maximum * jitterPercent nanos ≤
      wholeBackoff failures initial maximum * 125 :=
    Nat.mul_le_mul_left _ (jitterPercent_bounds nanos).2
  rw [asMillis_retryDelay hi hm]
  unfold asMillis
  omega

/-- The clock reading without jitter on top gives the shortest delay. -/
theorem shortest_delay (hi : initial ≤ durationMax) (hm : maximum ≤ durationMax)
    (failures nanos : ℕ) :
    asMillis (retryDelay failures initial maximum 0) ≤
      asMillis (retryDelay failures initial maximum nanos) := by
  have hjitter : wholeBackoff failures initial maximum * jitterPercent 0 ≤
      wholeBackoff failures initial maximum * jitterPercent nanos :=
    Nat.mul_le_mul_left _ (jitterPercent_bounds nanos).1
  rw [asMillis_retryDelay hi hm, asMillis_retryDelay hi hm]
  omega

/-- At that reading the delay is positive and inside the envelope exactly when the whole
milliseconds suffice. -/
theorem shortest_inEnvelope_iff (hi : initial ≤ durationMax) (hm : maximum ≤ durationMax)
    (failures : ℕ) :
    InEnvelope failures initial maximum 0 ↔ MillisSuffice failures initial maximum := by
  have hexact := backoff_eq_whole_add failures initial maximum
  have hdelay := asMillis_retryDelay hi hm failures 0
  have hpos := retryDelay_pos failures initial maximum 0
  have hspare : spareQuarters (wholeBackoff failures initial maximum) =
      4 - 3 * wholeBackoff failures initial maximum % 4 := by
    unfold spareQuarters
    split <;> omega
  have hquarters : asMillis (75 * backoff failures initial maximum / 100) =
      3 * backoff failures initial maximum / 4000000 := by
    unfold asMillis
    omega
  have hshare : wholeBackoff failures initial maximum * 75 / 100 =
      3 * wholeBackoff failures initial maximum / 4 := by omega
  rw [show jitterPercent 0 = 75 from rfl, hshare] at hdelay
  unfold wordMax at hdelay
  constructor
  · intro h
    have hzero := hpos.mp h.positive
    have hlower := h.lower
    rw [hquarters] at hlower
    refine ⟨by omega, ?_, ?_⟩
    · rw [hspare]
      omega
    · unfold size
      omega
  · intro h
    have hwhole := h.whole
    have hlost := h.lost
    have hfits := h.fits
    rw [hspare] at hlost
    unfold size at hfits
    refine ⟨hpos.mpr (by omega), ?_, delay_le_upper hi hm failures 0⟩
    rw [hquarters]
    omega

/-- At every clock reading the delay is positive and inside the envelope exactly when the whole
milliseconds suffice. -/
theorem always_inEnvelope_iff (hi : initial ≤ durationMax) (hm : maximum ≤ durationMax)
    (failures : ℕ) :
    (∀ nanos, InEnvelope failures initial maximum nanos) ↔
      MillisSuffice failures initial maximum := by
  rw [← shortest_inEnvelope_iff hi hm]
  refine ⟨fun h => h 0, fun h nanos => ?_⟩
  have hshort := shortest_delay hi hm failures nanos
  have hzero := (retryDelay_pos failures initial maximum 0).mp h.positive
  exact ⟨(retryDelay_pos failures initial maximum nanos).mpr (hzero.trans_le hshort),
    h.lower.trans hshort, delay_le_upper hi hm failures nanos⟩

/-- For durations of whole milliseconds the delay at a clock reading is positive and inside the
envelope exactly when the backoff is two milliseconds, or one that the jitter does not shorten. -/
theorem whole_inEnvelope_iff (hi : initial ≤ durationMax) (hm : maximum ≤ durationMax)
    (hwi : 1000000 ∣ initial) (hwm : 1000000 ∣ maximum) (failures nanos : ℕ) :
    InEnvelope failures initial maximum nanos ↔
      (fromMillis 2 ≤ backoff failures initial maximum ∨
          backoff failures initial maximum = fromMillis 1 ∧ 25 ≤ nanos % 51) ∧
        3 * backoff failures initial maximum < 4000000 * size := by
  have hexact := backoff_eq_whole_add failures initial maximum
  have hdelay := asMillis_retryDelay hi hm failures nanos
  have hpos := retryDelay_pos failures initial maximum nanos
  have hquarters : asMillis (75 * backoff failures initial maximum / 100) =
      3 * backoff failures initial maximum / 4000000 := by
    unfold asMillis
    omega
  obtain ⟨hleast, hmost⟩ := jitterPercent_bounds nanos
  have hshare := Nat.mul_le_mul_left (wholeBackoff failures initial maximum) hleast
  have hone : wholeBackoff failures initial maximum = 1 →
      wholeBackoff failures initial maximum * jitterPercent nanos =
        jitterPercent nanos := fun h => by rw [h, Nat.one_mul]
  have hnone : wholeBackoff failures initial maximum = 0 →
      wholeBackoff failures initial maximum * jitterPercent nanos = 0 := fun h => by
        rw [h, Nat.zero_mul]
  have hpercent : jitterPercent nanos = 75 + nanos % 51 := rfl
  rw [lostNanos_of_dvd hwi hwm, Nat.add_zero] at hexact
  unfold wordMax at hdelay
  unfold fromMillis size
  constructor
  · intro h
    have hzero := hpos.mp h.positive
    have hlower := h.lower
    rw [hquarters] at hlower
    omega
  · intro h
    refine ⟨hpos.mpr (by omega), ?_, delay_le_upper hi hm failures nanos⟩
    rw [hquarters]
    omega

/-- For a validated configuration the delay is positive and inside the envelope at every clock
reading exactly when the whole milliseconds suffice. With durations of whole milliseconds that is
so from two milliseconds on, and at one millisecond for the readings that do not shorten it. No
product overflows, and no sleep is longer than the configured maximum, with or without a
`Retry-After`. -/
theorem retry_delay_envelope {c : Config} (hv : c.validate = .ok ()) (hm : c.retryMax ≤ durationMax)
    (failures : ℕ) :
    ((∀ nanos, InEnvelope failures c.retryInitial c.retryMax nanos) ↔
        MillisSuffice failures c.retryInitial c.retryMax) ∧
      (1000000 ∣ c.retryInitial → 1000000 ∣ c.retryMax →
        ∀ nanos, InEnvelope failures c.retryInitial c.retryMax nanos ↔
          (fromMillis 2 ≤ backoff failures c.retryInitial c.retryMax ∨
              backoff failures c.retryInitial c.retryMax = fromMillis 1 ∧ 25 ≤ nanos % 51) ∧
            3 * backoff failures c.retryInitial c.retryMax < 4000000 * size) ∧
      ∀ nanos, NoOverflow failures c.retryInitial c.retryMax nanos ∧
        ∀ retryAfter, sleepDelay c failures nanos retryAfter ≤ c.retryMax := by
  have hi : c.retryInitial ≤ durationMax := (Config.validate_retry hv).trans hm
  exact ⟨always_inEnvelope_iff hi hm failures,
    fun hwi hwm => whole_inEnvelope_iff hi hm hwi hwm failures, fun nanos =>
    ⟨⟨doubled_le hi failures, jittered_le hm failures _ nanos⟩, fun _ => Nat.min_le_right _ _⟩⟩

/-- The sample configuration with other retry durations. -/
def retryConfig (initial maximum : ℕ) : Config :=
  { sample.config with retryInitial := initial, retryMax := maximum }

/-- From a quarter of a second up to thirty seconds, the delay after the fourth failure is inside
the envelope at every clock reading; 2.9 milliseconds lose too much. -/
theorem retry_delay_seconds :
    (∀ nanos, InEnvelope 4 250000000 30000000000 nanos) ∧
      ¬ ∀ nanos, InEnvelope 1 2900000 2900000 nanos := by
  have hsuffice : MillisSuffice 4 250000000 30000000000 :=
    ⟨by decide +kernel, by decide +kernel, by decide +kernel⟩
  obtain ⟨hall, -⟩ := retry_delay_envelope (c := retryConfig 250000000 30000000000)
    (by decide +kernel) (by decide +kernel) 4
  obtain ⟨hnone, -⟩ := retry_delay_envelope (c := retryConfig 2900000 2900000)
    (by decide +kernel) (by decide +kernel) 1
  exact ⟨hall.mpr hsuffice, fun h => absurd (hnone.mp h).lost (by decide +kernel)⟩

/-- Half a millisecond is a valid initial duration, and the first retry does not wait at all. -/
theorem retry_delay_zero :
    (retryConfig 500000 30000000000).validate = .ok () ∧
      retryDelay 1 500000 30000000000 0 = 0 ∧ ¬ InEnvelope 1 500000 30000000000 0 := by
  have hzero : retryDelay 1 500000 30000000000 0 = 0 := by decide +kernel
  exact ⟨by decide +kernel, hzero, fun h => absurd h.positive (by rw [hzero]; decide)⟩

end EdenLogger.RetryDelay
