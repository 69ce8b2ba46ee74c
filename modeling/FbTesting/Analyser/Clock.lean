import FbTesting.Analyser.Timestamp

/-!
# The stored clock

On the face of a twelve-hour clock twelve comes before one: 12:30am is half past
midnight and 12:30pm is half past noon.  `extract` lowers every hour by one
instead, so that twelve is stored as the last hour of its half of the day.  The
hours of one half are thereby stored in a rotated order.

Nothing is lost by this.  A stored moment determines the reading it came from
(`stored_injective`), and between different halves of days the order stays.  Within
one half the order of two readings is kept exactly when both or neither of them are
of the hour twelve.
-/

namespace Analyser

open Base Python

namespace Timestamp

/-! ## What a timestamp denotes -/

/-- The hour of the day of a reading. -/
def hourOfDay (ts : Timestamp) : Nat := if ts.pm then ts.hour % 12 + 12 else ts.hour % 12

theorem denoted_valid (ts : Timestamp) :
    ValidFields ts.year ts.month ts.day ts.hourOfDay ts.minute 0 := by
  have hd := ts.date_valid
  refine ⟨hd.1, hd.2.1, hd.2.2, ?_, ts.time_valid.2, by decide⟩
  unfold hourOfDay
  split <;> omega

/-- The moment that a timestamp denotes, in its own time zone. -/
def denoted (ts : Timestamp) : DateTime :=
  ⟨ts.year, ts.month, ts.day, ts.hourOfDay, ts.minute, 0, ts.denoted_valid⟩

/-- The half of a day that a reading is of. -/
def halfDay (ts : Timestamp) : (Nat × Nat × Nat) × Bool := ((ts.year, ts.month, ts.day), ts.pm)

/-- The reading of a timestamp, without its weekday and time zone. -/
def reading (ts : Timestamp) : Nat × Nat × Nat × Nat × Nat × Bool :=
  (ts.year, ts.month, ts.day, ts.hour, ts.minute, ts.pm)

/-! ## The order of two readings -/

/-- In different halves of one day both clocks go by the half. -/
theorem before_of_pm_ne {a b : Timestamp} (hdate : a.denoted.date = b.denoted.date)
    (hpm : a.pm ≠ b.pm) : a.denoted.Before b.denoted ↔ a.stored.Before b.stored := by
  have ha := a.time_valid
  have hb := b.time_valid
  have hstored : a.stored.date = b.stored.date := hdate
  rw [DateTime.before_of_date_eq hdate, DateTime.before_of_date_eq hstored]
  simp only [denoted, stored, hourOfDay, storedHour]
  cases hpa : a.pm with
  | true =>
      have hpb : b.pm = false := by simpa [hpa] using hpm.symm
      simp only [hpb, if_true, Bool.false_eq_true, if_false]
      omega
  | false =>
      have hpb : b.pm = true := by simpa [hpa] using hpm.symm
      simp only [hpb, if_true, Bool.false_eq_true, if_false]
      omega

/-- In one half of a day twelve is read first and stored last. -/
theorem before_of_halfDay_eq {a b : Timestamp} (hdate : a.denoted.date = b.denoted.date)
    (hpm : a.pm = b.pm) :
    (a.denoted.Before b.denoted ↔ a.stored.Before b.stored) ↔ (a.hour = 12 ↔ b.hour = 12) := by
  have ha := a.time_valid
  have hb := b.time_valid
  have hstored : a.stored.date = b.stored.date := hdate
  rw [DateTime.before_of_date_eq hdate, DateTime.before_of_date_eq hstored]
  simp only [denoted, stored, hourOfDay, storedHour, hpm]
  cases b.pm with
  | true =>
      simp only [if_true]
      omega
  | false =>
      simp only [Bool.false_eq_true, if_false]
      omega

theorem before_stored_iff (a b : Timestamp) :
    (a.denoted.Before b.denoted ↔ a.stored.Before b.stored) ↔
      (a.halfDay = b.halfDay → (a.hour = 12 ↔ b.hour = 12)) := by
  by_cases hdate : a.denoted.date = b.denoted.date
  · by_cases hpm : a.pm = b.pm
    · rw [before_of_halfDay_eq hdate hpm]
      exact ⟨fun h _ => h, fun h => h (Prod.ext hdate hpm)⟩
    · exact iff_of_true (before_of_pm_ne hdate hpm) fun h => absurd (congrArg Prod.snd h) hpm
  · exact iff_of_true (DateTime.before_of_date_ne rfl rfl hdate)
      fun h => absurd (congrArg Prod.fst h) hdate

end Timestamp

/-- The dates that `extract` stores for two timestamps of one time zone are in the
order of the moments they denote, unless the two are of one half of a day and the
hour of exactly one of them is twelve. -/
theorem stored_order_iff (a b : Timestamp) :
    ∃ d e, extractDate a.text = .ok d ∧ extractDate b.text = .ok e ∧
      ((a.denoted.Before b.denoted ↔ d.Before e) ↔
        (a.halfDay = b.halfDay → (a.hour = 12 ↔ b.hour = 12))) :=
  ⟨a.stored, b.stored, extractDate_text a, extractDate_text b, a.before_stored_iff b⟩

/-- Friday, January 17, 2014, at some time of the morning. -/
def morningStamp (hour minute : Nat) (h : (1 ≤ hour ∧ hour ≤ 12) ∧ minute < 60) : Timestamp where
  weekday := "Friday".toList
  year := 2014
  month := 1
  day := 17
  hour := hour
  minute := minute
  pm := false
  tz := "EST".toList
  date_valid := by decide
  time_valid := h
  words := by decide

/-- Half past midnight. -/
def halfPastMidnight : Timestamp := morningStamp 12 30 (by decide)

/-- One in the morning. -/
def oneInTheMorning : Timestamp := morningStamp 1 0 (by decide)

/-- Half past midnight comes before one o'clock and is stored after it. -/
theorem midnight_stored_last :
    ¬∃ d e, extractDate halfPastMidnight.text = .ok d ∧ extractDate oneInTheMorning.text = .ok e ∧
      (halfPastMidnight.denoted.Before oneInTheMorning.denoted ↔ d.Before e) := by
  rintro ⟨d, e, hd, he, horder⟩
  rw [extractDate_text] at hd he
  cases hd
  cases he
  revert horder
  decide

/-! ## What a stored moment says of its reading -/

/-- The stored hours from twelve on are those after noon. -/
theorem Timestamp.twelve_le_storedHour (ts : Timestamp) : 12 ≤ ts.storedHour ↔ ts.pm = true := by
  have ht := ts.time_valid
  rw [Timestamp.storedHour]
  split
  · rename_i hpm
    exact iff_of_true (by omega) hpm
  · rename_i hpm
    exact iff_of_false (by omega) hpm

/-- The hours of the day from twelve on are those after noon. -/
theorem Timestamp.twelve_le_hourOfDay (ts : Timestamp) : 12 ≤ ts.hourOfDay ↔ ts.pm = true := by
  rw [Timestamp.hourOfDay]
  split
  · rename_i hpm
    exact iff_of_true (by omega) hpm
  · rename_i hpm
    exact iff_of_false (by omega) hpm

theorem Timestamp.stored_injective {a b : Timestamp} (h : a.stored = b.stored) :
    a.reading = b.reading := by
  have ha := a.time_valid
  have hb := b.time_valid
  obtain ⟨hy, hm, hd, hh, hmi, _⟩ := DateTime.mk.inj h
  have hpm : a.pm = b.pm := by
    rw [Bool.eq_iff_iff, ← a.twelve_le_storedHour, ← b.twelve_le_storedHour, hh]
  have hhour : a.hour = b.hour := by
    rw [Timestamp.storedHour, Timestamp.storedHour, hpm] at hh
    split at hh <;> omega
  simp only [Timestamp.reading, hy, hm, hd, hmi, hpm, hhour]

/-- A denoted moment determines the reading too. -/
theorem Timestamp.denoted_injective {a b : Timestamp} (h : a.denoted = b.denoted) :
    a.reading = b.reading := by
  have ha := a.time_valid
  have hb := b.time_valid
  obtain ⟨hy, hm, hd, hh, hmi, _⟩ := DateTime.mk.inj h
  have hpm : a.pm = b.pm := by
    rw [Bool.eq_iff_iff, ← a.twelve_le_hourOfDay, ← b.twelve_le_hourOfDay, hh]
  have hhour : a.hour = b.hour := by
    rw [Timestamp.hourOfDay, Timestamp.hourOfDay, hpm] at hh
    split at hh <;> omega
  simp only [Timestamp.reading, hy, hm, hd, hmi, hpm, hhour]

/-- Two timestamps are stored alike exactly when they denote one moment. -/
theorem Timestamp.stored_eq_iff {a b : Timestamp} :
    a.stored = b.stored ↔ a.denoted = b.denoted := by
  constructor
  · intro h
    obtain ⟨hy, hm, hd, hh, hmi, hpm⟩ :
        a.year = b.year ∧ a.month = b.month ∧ a.day = b.day ∧ a.hour = b.hour ∧
          a.minute = b.minute ∧ a.pm = b.pm := by
      simpa [Timestamp.reading] using Timestamp.stored_injective h
    simp only [Timestamp.denoted, Timestamp.hourOfDay, hy, hm, hd, hh, hmi, hpm]
  · intro h
    obtain ⟨hy, hm, hd, hh, hmi, hpm⟩ :
        a.year = b.year ∧ a.month = b.month ∧ a.day = b.day ∧ a.hour = b.hour ∧
          a.minute = b.minute ∧ a.pm = b.pm := by
      simpa [Timestamp.reading] using Timestamp.denoted_injective h
    simp only [Timestamp.stored, Timestamp.storedHour, hy, hm, hd, hh, hmi, hpm]

/-- `strptime` tells stored moments apart. -/
theorem str_injective {d e : DateTime} (h : d.str = e.str) : d = e := by
  have hd := strptime_str d
  rw [h, strptime_str] at hd
  exact (Except.ok.inj hd).symm

/-- Reading a timestamp raises nothing, the stored text is read back to the same
moment, and it determines the reading. -/
theorem timestamp_stored_exactly (a : Timestamp) :
    ∃ d, extractDate a.text = .ok d ∧ d.hour < 24 ∧ strptime d.str = .ok d ∧
      (d.year, d.month, d.day, d.minute) = (a.year, a.month, a.day, a.minute) ∧
      ∀ b e, extractDate (Timestamp.text b) = .ok e → e.str = d.str → b.reading = a.reading := by
  refine ⟨a.stored, extractDate_text a, a.stored.valid.2.2.2.1, strptime_str _, rfl, ?_⟩
  intro b e he hstr
  rw [extractDate_text] at he
  cases he
  exact Timestamp.stored_injective (str_injective hstr)

end Analyser
