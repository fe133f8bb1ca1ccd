import EdenLogger.TimestampText

/-!
# Transparency of the timestamp cache

A thread keeps the text of its last timestamp and reuses it in the same
millisecond. Readings of one millisecond show the same fields, before 1970 as
well as after, and no reading has the millisecond of an empty cache. So every
call writes what formatting its own reading would write.
-/

namespace EdenLogger.TimestampCaching

open Gregorian LogRecord TimestampText

/-- Nanoseconds since the start of 1970. -/
def instant (v : DateTimeUtc) : Instant :=
  (daysSinceEpoch v.year v.month v.day * 86400 + v.secs) * 1000000000 + v.frac

/-- A call that reads this from the clock. -/
def nowCached (cache : TimestampCache) (now : DateTimeUtc) : TimestampCache :=
  writeTimestampNowCached (fun _ => now.calendar) cache (instant now)

/-- What the calls of a thread write, one reading each. -/
def writtenBy : TimestampCache → List DateTimeUtc → List Text
  | _, [] => []
  | cache, now :: readings =>
    let cache' := nowCached cache now
    cache'.formatted :: writtenBy cache' readings

/-- The millisecond of a reading, with its days, seconds and fraction apart. -/
theorem timestampMillis_instant (v : DateTimeUtc) :
    timestampMillis (instant v) =
      (daysSinceEpoch v.year v.month v.day * 86400 + v.secs) * 1000 + (v.frac / 1000000 : ℕ) := by
  unfold timestampMillis instant
  omega

/-- Readings of one millisecond show the same fields. -/
theorem calendar_of_millis {a b : DateTimeUtc} (ha : a.Ordinary) (hb : b.Ordinary)
    (h : timestampMillis (instant a) = timestampMillis (instant b)) :
    a.calendar = b.calendar := by
  have hasecs := a.secs_lt
  have hbsecs := b.secs_lt
  unfold DateTimeUtc.Ordinary at ha hb
  rw [timestampMillis_instant, timestampMillis_instant] at h
  have hdays : daysSinceEpoch a.year a.month a.day = daysSinceEpoch b.year b.month b.day := by
    omega
  have hsecs : a.secs = b.secs := by omega
  have hmillis : a.frac / 1000000 = b.frac / 1000000 := by omega
  obtain ⟨hyear, hmonth, hday⟩ := daysSinceEpoch_inj a.date b.date hdays
  unfold DateTimeUtc.calendar
  rw [hyear, hmonth, hday, hsecs, hmillis]

/-- No reading has the millisecond of an empty cache. -/
theorem new_lt_timestampMillis (v : DateTimeUtc) :
    TimestampCache.new.lastMillis < timestampMillis (instant v) := by
  have hyear := v.year_range.1
  have hmono := daysBeforeYear_mono hyear
  have hfirst : daysBeforeYear (-262143) = -95746130 := by decide
  rw [hfirst] at hmono
  rw [timestampMillis_instant]
  unfold daysSinceEpoch
  show (-9223372036854775808 : ℤ) < _
  omega

/-- The cache is empty or holds the text of a reading of its millisecond. -/
def CacheOk (cache : TimestampCache) : Prop :=
  cache.lastMillis = TimestampCache.new.lastMillis ∨
    ∃ v : DateTimeUtc, v.Ordinary ∧ cache.lastMillis = timestampMillis (instant v) ∧
      cache.formatted = v.text

/-- A call writes the text of its reading, and leaves a cache that holds it. -/
theorem nowCached_ok {cache : TimestampCache} (h : CacheOk cache) {now : DateTimeUtc}
    (hnow : now.Ordinary) :
    (nowCached cache now).formatted = now.text ∧ CacheOk (nowCached cache now) := by
  unfold nowCached writeTimestampNowCached
  split
  · exact ⟨rfl, Or.inr ⟨now, hnow, rfl, rfl⟩⟩
  · rename_i hhit
    rw [not_not] at hhit
    rcases h with hnew | ⟨v, hv, hmillis, htext⟩
    · have hlt := new_lt_timestampMillis now
      rw [← hhit, hnew] at hlt
      exact absurd hlt (lt_irrefl _)
    · have hsame := calendar_of_millis hv hnow (hmillis.symm.trans hhit)
      refine ⟨?_, Or.inr ⟨v, hv, hmillis, htext⟩⟩
      rw [htext]
      exact congrArg writeTimestampRfc3339 hsame

/-- From any such cache on, calls write the texts of their readings. -/
theorem writtenBy_eq {cache : TimestampCache} (h : CacheOk cache) {readings : List DateTimeUtc}
    (hr : ∀ v ∈ readings, v.Ordinary) :
    writtenBy cache readings = readings.map fun v => writeTimestampRfc3339 v.calendar := by
  induction readings generalizing cache with
  | nil => rfl
  | cons now readings ih =>
    obtain ⟨hnow, hrest⟩ := List.forall_mem_cons.mp hr
    obtain ⟨htext, hok⟩ := nowCached_ok h hnow
    rw [writtenBy, List.map_cons, ih hok hrest, htext]
    rfl

/-- The timestamp cache is transparent. On every thread, every call writes what
formatting its reading writes, whatever the clock does between calls. -/
theorem timestamp_cache_transparent (readings : List DateTimeUtc)
    (h : ∀ v ∈ readings, v.Ordinary) :
    writtenBy TimestampCache.new readings =
      readings.map fun v => writeTimestampRfc3339 v.calendar :=
  writtenBy_eq (Or.inl rfl) h

/-- A clock that repeats a reading, goes back to year 0 and returns. -/
theorem timestamp_cache_transparent_jumps :
    writtenBy TimestampCache.new [lastInstant, lastInstant, firstInstant, lastInstant] =
      [lastInstant, lastInstant, firstInstant, lastInstant].map fun v =>
        writeTimestampRfc3339 v.calendar :=
  timestamp_cache_transparent _ (by decide)

end EdenLogger.TimestampCaching
