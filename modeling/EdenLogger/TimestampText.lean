import EdenLogger.FixedWidth
import EdenLogger.Gregorian
import EdenLogger.LogRecord

/-!
# Timestamps as text

A timestamp is written with padded fields, so its text has a fixed layout and
sorts as the instants do. The millisecond field is padded to three digits but
a leap second has milliseconds from 1000 on. Its text is a character too long.
-/

namespace EdenLogger.TimestampText

open FixedWidth Gregorian JsonText LogRecord

/-- `DateTime<Utc>`: a date, seconds of the day and a fraction of a second in
nanoseconds. The fraction passes one second in a leap second. -/
structure DateTimeUtc where
  year : ℤ
  month : ℕ
  day : ℕ
  secs : ℕ
  frac : ℕ
  year_range : -262143 ≤ year ∧ year ≤ 262142
  date : ValidDate year month day
  secs_lt : secs < 86400
  frac_lt : frac < 2000000000

/-- The fields that the accessors return. -/
def DateTimeUtc.calendar (v : DateTimeUtc) : Calendar where
  year := v.year
  month := v.month
  day := v.day
  hour := v.secs / 3600
  minute := v.secs / 60 % 60
  second := v.secs % 60
  -- `timestamp_subsec_millis`
  millis := v.frac / 1000000

/-- Not a leap second. -/
def DateTimeUtc.Ordinary (v : DateTimeUtc) : Prop := v.frac < 1000000000

instance (v : DateTimeUtc) : Decidable v.Ordinary :=
  inferInstanceAs (Decidable (v.frac < 1000000000))

/-- The value without what is below a millisecond. -/
def DateTimeUtc.truncate (v : DateTimeUtc) : DateTimeUtc :=
  { v with
    frac := v.frac - v.frac % 1000000
    frac_lt := (Nat.sub_le _ _).trans_lt v.frac_lt }

/-- Order of values: date, second and fraction. -/
def DateTimeUtc.Before (a b : DateTimeUtc) : Prop :=
  a.year < b.year ∨ a.year = b.year ∧
    (a.month < b.month ∨ a.month = b.month ∧
      (a.day < b.day ∨ a.day = b.day ∧
        (a.secs < b.secs ∨ a.secs = b.secs ∧ a.frac < b.frac)))

/-- The fields that a text has to show. A leap second is second 60. -/
def DateTimeUtc.shown (v : DateTimeUtc) : Calendar :=
  if v.Ordinary then v.calendar
  else { v.calendar with second := v.secs % 60 + 1, millis := v.frac / 1000000 - 1000 }

/-- The text has the form `YYYY-MM-DDTHH:MM:SS.mmmZ` and its fields are these. -/
def Denotes (text : Text) (c : Calendar) : Prop :=
  ∃ year month day hour minute second millis : Text,
    text = year ++ '-' :: (month ++ '-' :: (day ++ 'T' :: (hour ++ ':' ::
      (minute ++ ':' :: (second ++ '.' :: (millis ++ ['Z'])))))) ∧
    Digits 4 year c.year.toNat ∧ Digits 2 month c.month ∧ Digits 2 day c.day ∧
    Digits 2 hour c.hour ∧ Digits 2 minute c.minute ∧ Digits 2 second c.second ∧
    Digits 3 millis c.millis

/-- The text of a value. -/
def DateTimeUtc.text (v : DateTimeUtc) : Text := writeTimestampRfc3339 v.calendar

/-- The text is 24 characters long and shows the value. -/
def DateTimeUtc.Faithful (v : DateTimeUtc) : Prop := v.text.length = 24 ∧ Denotes v.text v.shown

/-- The year field. -/
def yearText (year : ℤ) : Text :=
  (if year < 1000 then List.replicate (4 - digitCount (asU64 year)) '0' else []) ++ itoa year

/-- The millisecond field. -/
def millisText (millis : ℕ) : Text :=
  (if millis < 100 then ['0'] else []) ++ (if millis < 10 then ['0'] else []) ++ decimal millis

/-- The fields and the marks between them. -/
theorem writeTimestamp_eq (ts : Calendar) :
    writeTimestampRfc3339 ts =
      yearText ts.year ++ '-' :: (twoDigits ts.month ++ '-' :: (twoDigits ts.day ++ 'T' ::
        (twoDigits ts.hour ++ ':' :: (twoDigits ts.minute ++ ':' ::
          (twoDigits ts.second ++ '.' :: (millisText ts.millis ++ ['Z'])))))) := by
  unfold writeTimestampRfc3339 yearText millisText
  simp only [List.append_assoc, List.cons_append, List.nil_append]

/-- Numbers of up to `k` digits are below the power. -/
theorem decimal_length_le {n k : ℕ} (hk : 0 < k) : (decimal n).length ≤ k ↔ n < 10 ^ k :=
  Nat.length_toDigits_le_iff (by decide) hk

/-- A number has a digit. -/
theorem decimal_length_pos (n : ℕ) : 0 < (decimal n).length := Nat.length_toDigits_pos

/-- Up to four digits are counted. -/
theorem digitCount_eq {n : ℕ} (h : n ≤ 9999) : digitCount n = (decimal n).length := by
  have hpos := decimal_length_pos n
  have hone := @decimal_length_le n 1 (by decide)
  have htwo := @decimal_length_le n 2 (by decide)
  have hthree := @decimal_length_le n 3 (by decide)
  have hfour := @decimal_length_le n 4 (by decide)
  unfold digitCount
  split_ifs <;> omega

/-- The year is padded to four digits. -/
theorem digits_yearText {year : ℤ} (h0 : 0 ≤ year) (h : year ≤ 9999) :
    Digits 4 (yearText year) year.toNat := by
  obtain ⟨n, rfl⟩ := Int.eq_ofNat_of_zero_le h0
  have hn : n ≤ 9999 := by omega
  have hu : asU64 (n : ℤ) = n := by
    unfold asU64
    omega
  have hle := (@decimal_length_le n 4 (by decide)).mpr (by omega)
  have hthree := @decimal_length_le n 3 (by decide)
  unfold yearText
  rw [hu, digitCount_eq hn]
  split
  · exact Digits.padded (by unfold decimal at hle ⊢; omega)
  · have hlen : 0 + (Nat.toDigits 10 n).length = 4 := by
      unfold decimal at hle hthree
      omega
    exact Digits.padded hlen

/-- Numbers below 100 are padded to two digits. -/
theorem digits_twoDigits {n : ℕ} (h : n < 100) : Digits 2 (twoDigits n) n := by
  have hpos := decimal_length_pos n
  have hone := @decimal_length_le n 1 (by decide)
  have htwo := (@decimal_length_le n 2 (by decide)).mpr (by omega)
  unfold decimal at hpos hone htwo
  unfold twoDigits
  split
  · exact @Digits.padded 2 1 n (by omega)
  · exact @Digits.padded 2 0 n (by omega)

/-- Numbers below 1000 are padded to three digits. -/
theorem digits_millisText {n : ℕ} (h : n < 1000) : Digits 3 (millisText n) n := by
  have hpos := decimal_length_pos n
  have hone := @decimal_length_le n 1 (by decide)
  have htwo := @decimal_length_le n 2 (by decide)
  have hthree := (@decimal_length_le n 3 (by decide)).mpr (by omega)
  unfold decimal at hpos hone htwo hthree
  unfold millisText
  split
  · split
    · exact @Digits.padded 3 2 n (by omega)
    · exact @Digits.padded 3 1 n (by omega)
  · split
    · omega
    · exact @Digits.padded 3 0 n (by omega)

/-- The parts of a text of one layout have the widths of their fields. -/
theorem Denotes.length {text : Text} {c : Calendar} (h : Denotes text c) : text.length = 24 := by
  obtain ⟨year, month, day, hour, minute, second, millis, rfl, hy, hmo, hd, hh, hmi, hs, hms⟩ := h
  simp only [List.length_append, List.length_cons, List.length_nil, hy.length, hmo.length,
    hd.length, hh.length, hmi.length, hs.length, hms.length]

/-- The fields between year and milliseconds have two digits at most. -/
theorem calendar_lt (v : DateTimeUtc) :
    v.calendar.month < 100 ∧ v.calendar.day < 100 ∧ v.calendar.hour < 100 ∧
      v.calendar.minute < 100 ∧ v.calendar.second < 100 := by
  have hmonth := v.date.month_le
  have hday := v.date.day_le.trans (daysInMonth_le v.year v.month)
  have hsecs := v.secs_lt
  unfold DateTimeUtc.calendar
  dsimp only
  omega

/-- The text of a value that is not a leap second shows its fields. -/
theorem denotes_text {v : DateTimeUtc} (h0 : 0 ≤ v.year) (h : v.year ≤ 9999) (hv : v.Ordinary) :
    Denotes v.text v.calendar := by
  obtain ⟨hmonth, hday, hhour, hminute, hsecond⟩ := calendar_lt v
  have hmillis : v.calendar.millis < 1000 := Nat.div_lt_of_lt_mul hv
  exact ⟨_, _, _, _, _, _, _, writeTimestamp_eq v.calendar, digits_yearText h0 h,
    digits_twoDigits hmonth, digits_twoDigits hday, digits_twoDigits hhour,
    digits_twoDigits hminute, digits_twoDigits hsecond, digits_millisText hmillis⟩

/-- All but the milliseconds take 21 characters. -/
theorem text_length {v : DateTimeUtc} (h0 : 0 ≤ v.year) (h : v.year ≤ 9999) :
    v.text.length = 21 + (millisText v.calendar.millis).length := by
  obtain ⟨hmonth, hday, hhour, hminute, hsecond⟩ := calendar_lt v
  have hyear : (yearText v.calendar.year).length = 4 := (digits_yearText h0 h).length
  unfold DateTimeUtc.text
  rw [writeTimestamp_eq]
  simp only [List.length_append, List.length_cons, List.length_nil, hyear,
    (digits_twoDigits hmonth).length, (digits_twoDigits hday).length,
    (digits_twoDigits hhour).length, (digits_twoDigits hminute).length,
    (digits_twoDigits hsecond).length]
  omega

/-- The milliseconds of a leap second take four digits. -/
theorem millisText_length {n : ℕ} (h : 1000 ≤ n) : 4 ≤ (millisText n).length := by
  have hthree := @decimal_length_le n 3 (by decide)
  unfold millisText
  rw [List.length_append]
  omega

/-- The text of a leap second is too long. -/
theorem text_length_leap {v : DateTimeUtc} (h0 : 0 ≤ v.year) (h : v.year ≤ 9999)
    (hv : ¬ v.Ordinary) : 24 < v.text.length := by
  have hfrac : 1000 * 1000000 ≤ v.frac := Nat.le_of_not_lt hv
  have hmillis : 1000 ≤ v.calendar.millis := (Nat.le_div_iff_mul_le (by decide)).mpr hfrac
  have hlong := millisText_length hmillis
  rw [text_length h0 h]
  omega

/-- A text is faithful exactly if the value is not a leap second. -/
theorem faithful_iff {v : DateTimeUtc} (h0 : 0 ≤ v.year) (h : v.year ≤ 9999) :
    v.Faithful ↔ v.Ordinary := by
  constructor
  · intro hfaithful
    by_contra hv
    have hlong := text_length_leap h0 h hv
    rw [hfaithful.1] at hlong
    exact Nat.lt_irrefl _ hlong
  · intro hv
    have hdenotes := denotes_text h0 h hv
    have hshown : v.shown = v.calendar := if_pos hv
    exact ⟨hdenotes.length, hshown ▸ hdenotes⟩

/-- Fields in the order of the text. -/
def CalendarBefore (c d : Calendar) : Prop :=
  c.year.toNat < d.year.toNat ∨ c.year.toNat = d.year.toNat ∧
    (c.month < d.month ∨ c.month = d.month ∧ (c.day < d.day ∨ c.day = d.day ∧
      (c.hour < d.hour ∨ c.hour = d.hour ∧ (c.minute < d.minute ∨ c.minute = d.minute ∧
        (c.second < d.second ∨ c.second = d.second ∧ c.millis < d.millis)))))

/-- Texts of the layout are ordered as their fields. -/
theorem Denotes.lt_iff {text text' : Text} {c d : Calendar} (h : Denotes text c)
    (h' : Denotes text' d) : text < text' ↔ CalendarBefore c d := by
  obtain ⟨_, _, _, _, _, _, _, rfl, hy, hmo, hd, hh, hmi, hs, hms⟩ := h
  obtain ⟨_, _, _, _, _, _, _, rfl, hy', hmo', hd', hh', hmi', hs', hms'⟩ := h'
  have hend : ¬ ([] : Text) < [] := List.lt_irrefl _
  rw [hy.append_lt_iff hy', hmo.append_lt_iff hmo', hd.append_lt_iff hd', hh.append_lt_iff hh',
    hmi.append_lt_iff hmi', hs.append_lt_iff hs', hms.append_lt_iff hms']
  unfold CalendarBefore
  simp only [hend, and_false, or_false]

/-- The fields are ordered as the truncated values. -/
theorem calendarBefore_iff {a b : DateTimeUtc} (ha : 0 ≤ a.year) (hb : 0 ≤ b.year) :
    CalendarBefore a.calendar b.calendar ↔ a.truncate.Before b.truncate := by
  have hyear : a.year.toNat < b.year.toNat ↔ a.year < b.year := by omega
  have hyear' : a.year.toNat = b.year.toNat ↔ a.year = b.year := by omega
  have htime : (a.secs / 3600 < b.secs / 3600 ∨ a.secs / 3600 = b.secs / 3600 ∧
      (a.secs / 60 % 60 < b.secs / 60 % 60 ∨ a.secs / 60 % 60 = b.secs / 60 % 60 ∧
        (a.secs % 60 < b.secs % 60 ∨ a.secs % 60 = b.secs % 60 ∧
          a.frac / 1000000 < b.frac / 1000000))) ↔
      (a.secs < b.secs ∨ a.secs = b.secs ∧
        a.frac - a.frac % 1000000 < b.frac - b.frac % 1000000) := by
    omega
  unfold CalendarBefore DateTimeUtc.Before DateTimeUtc.calendar DateTimeUtc.truncate
  dsimp only
  rw [hyear, hyear', htime]

/-- Timestamps are faithful and sort as their values exactly if neither value
is a leap second. -/
theorem timestamp_faithful_iff (a b : DateTimeUtc) (ha : 0 ≤ a.year ∧ a.year ≤ 9999)
    (hb : 0 ≤ b.year ∧ b.year ≤ 9999) :
    (a.Faithful ∧ b.Faithful ∧ (a.text < b.text ↔ a.truncate.Before b.truncate)) ↔
      a.Ordinary ∧ b.Ordinary := by
  rw [faithful_iff ha.1 ha.2, faithful_iff hb.1 hb.2]
  refine ⟨fun h => ⟨h.1, h.2.1⟩, fun ⟨hao, hbo⟩ => ⟨hao, hbo, ?_⟩⟩
  rw [(denotes_text ha.1 ha.2 hao).lt_iff (denotes_text hb.1 hb.2 hbo)]
  exact calendarBefore_iff ha.1 hb.1

/-- The start of year 0. -/
def firstInstant : DateTimeUtc where
  year := 0
  month := 1
  day := 1
  secs := 0
  frac := 0
  year_range := by decide
  date := ⟨by decide, by decide, by decide, by decide⟩
  secs_lt := by decide
  frac_lt := by decide

/-- The end of year 9999. -/
def lastInstant : DateTimeUtc where
  year := 9999
  month := 12
  day := 31
  secs := 86399
  frac := 999999999
  year_range := by decide
  date := ⟨by decide, by decide, by decide, by decide⟩
  secs_lt := by decide
  frac_lt := by decide

/-- Both ends of the range are faithful and in order. -/
theorem timestamp_faithful_ends : firstInstant.Faithful ∧ lastInstant.Faithful ∧
    (firstInstant.text < lastInstant.text ↔ firstInstant.truncate.Before lastInstant.truncate) :=
  (timestamp_faithful_iff firstInstant lastInstant (by decide) (by decide)).mpr
    ⟨by decide, by decide⟩

/-- The last millisecond of an ordinary second. -/
def beforeLeapSecond : DateTimeUtc where
  year := 2016
  month := 12
  day := 31
  secs := 86399
  frac := 999000000
  year_range := by decide
  date := ⟨by decide, by decide, by decide, by decide⟩
  secs_lt := by decide
  frac_lt := by decide

/-- Half a second into the leap second that follows. -/
def leapSecond : DateTimeUtc :=
  { beforeLeapSecond with
    frac := 1500000000
    frac_lt := by decide }

/-- The leap second is written with four millisecond digits, and its text sorts
before that of an earlier value. -/
theorem leap_second_unfaithful :
    leapSecond.text = "2016-12-31T23:59:59.1500Z".toList ∧ ¬ leapSecond.Faithful ∧
      beforeLeapSecond.truncate.Before leapSecond.truncate ∧
      ¬ beforeLeapSecond.text < leapSecond.text := by
  have htext : leapSecond.text = "2016-12-31T23:59:59.1500Z".toList := by decide
  have hbefore : beforeLeapSecond.text = "2016-12-31T23:59:59.999Z".toList := by decide
  refine ⟨htext, fun hfaithful => ?_, ?_, ?_⟩
  · have hlength := hfaithful.1
    rw [htext] at hlength
    exact absurd hlength (by decide)
  · unfold DateTimeUtc.Before
    decide
  · rw [htext, hbefore]
    decide

end EdenLogger.TimestampText
