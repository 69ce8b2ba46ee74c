import FbTesting.Python.Datetime

/-!
# Timestamps

The analyser takes a timestamp apart by splitting at blanks and slicing, and
builds a `datetime` from the pieces (`extractDate`).  Every step can raise.

A `Timestamp` is what Facebook writes, `Weekday, Month D, YYYY at H:MMam|pm TZ`,
with a valid date and a valid reading of the twelve-hour clock.
`extractDate_text` says that nothing is raised on one, and which moment is
stored: the clock hour is lowered by one, and raised by twelve after noon.
-/

namespace Analyser

open Base Python

/-! ## Taking a timestamp apart -/

/-- The dictionary `months`. -/
def months : List (Text × Nat) :=
  [("January".toList, 1), ("February".toList, 2), ("March".toList, 3), ("April".toList, 4),
    ("May".toList, 5), ("June".toList, 6), ("July".toList, 7), ("August".toList, 8),
    ("September".toList, 9), ("October".toList, 10), ("November".toList, 11),
    ("December".toList, 12)]

/-- `months[name]`. -/
def monthNumber (name : Text) : Except PyError Nat :=
  match months.lookup name with
  | some n => .ok n
  | none => .error .keyError

/-- `l[i]` for an index that is not negative. -/
def item (l : List Text) (i : Nat) : Except PyError Text :=
  match l[i]? with
  | some t => .ok t
  | none => .error .indexError

/-- `t[:-k]`. -/
def dropEnd (k : Nat) (t : Text) : Text := t.take (t.length - k)

/-- `t[-k:]`. -/
def takeEnd (k : Nat) (t : Text) : Text := t.drop (t.length - k)

/-- The moment `extract` reads off the text of a timestamp. -/
def extractDate (date : Text) : Except PyError DateTime := do
  let dateSplit := date.splitOn ' '
  let year ← int (← item dateSplit 3)
  let day ← int (dropEnd 1 (← item dateSplit 2))
  let month ← monthNumber (← item dateSplit 1)
  let time := (← item dateSplit 5).splitOn ':'
  let hour := (← int (← item time 0)) - 1
  let minute ← int (dropEnd 2 (← item time 1))
  let meridian := takeEnd 2 (← item time 1)
  let _tz ← item dateSplit 6
  let hour := if meridian = "pm".toList then hour + 12 else hour
  datetime year month day hour minute 0

/-! ## Timestamps as Facebook writes them -/

/-- The name of a month. -/
def monthName (m : Nat) : Text := ((months.map Prod.fst)[m - 1]?).getD []

/-- A valid timestamp. -/
structure Timestamp where
  weekday : Text
  year : Nat
  month : Nat
  day : Nat
  /-- The hour on the clock face. -/
  hour : Nat
  minute : Nat
  pm : Bool
  tz : Text
  /-- The date is one of the calendar. -/
  date_valid : (1 ≤ year ∧ year ≤ 9999) ∧ (1 ≤ month ∧ month ≤ 12) ∧
    (1 ≤ day ∧ day ≤ daysInMonth year month)
  /-- The time is one of the twelve-hour clock. -/
  time_valid : (1 ≤ hour ∧ hour ≤ 12) ∧ minute < 60
  /-- The words at both ends are single words. -/
  words : ' ' ∉ weekday ∧ ' ' ∉ tz
deriving DecidableEq

namespace Timestamp

/-- `am` or `pm`. -/
def meridian (ts : Timestamp) : Text := if ts.pm then "pm".toList else "am".toList

/-- The clock time with its meridian. -/
def clock (ts : Timestamp) : Text :=
  decimal ts.hour ++ ':' :: (padded 2 ts.minute ++ ts.meridian)

/-- The text of a timestamp. -/
def text (ts : Timestamp) : Text :=
  ts.weekday ++ [','] ++ ' ' :: (monthName ts.month ++ ' ' :: (decimal ts.day ++ [','] ++ ' ' ::
    (padded 4 ts.year ++ ' ' :: ("at".toList ++ ' ' :: (ts.clock ++ ' ' :: ts.tz)))))

/-- The hour that is stored. -/
def storedHour (ts : Timestamp) : Nat := if ts.pm then ts.hour - 1 + 12 else ts.hour - 1

theorem stored_valid (ts : Timestamp) :
    ValidFields ts.year ts.month ts.day ts.storedHour ts.minute 0 := by
  have hd := ts.date_valid
  have ht := ts.time_valid
  refine ⟨hd.1, hd.2.1, hd.2.2, ?_, ht.2, by decide⟩
  unfold storedHour
  split <;> omega

/-- The moment that is stored. -/
def stored (ts : Timestamp) : DateTime :=
  ⟨ts.year, ts.month, ts.day, ts.storedHour, ts.minute, 0, ts.stored_valid⟩

end Timestamp

/-! ## The pieces of a timestamp -/

theorem monthName_spec {m : Nat} (h : 1 ≤ m ∧ m ≤ 12) :
    ' ' ∉ monthName m ∧ monthNumber (monthName m) = .ok m := by
  have hall : ∀ m ≤ 12, 1 ≤ m → ' ' ∉ monthName m ∧ monthNumber (monthName m) = .ok m := by
    decide
  exact hall m h.2 h.1

theorem blank_not_mem_decimal (n : Nat) : ' ' ∉ decimal n :=
  not_mem_of_digits (by decide) fun _ => isDigit_of_mem_decimal

theorem blank_not_mem_padded (w n : Nat) : ' ' ∉ padded w n :=
  not_mem_of_digits (by decide) fun _ => isDigit_of_mem_padded

theorem Timestamp.blank_not_mem_clock (ts : Timestamp) : ' ' ∉ ts.clock := by
  have hm : ' ' ∉ ts.meridian := by unfold meridian; split <;> decide
  simp only [clock, List.mem_append, List.mem_cons, not_or]
  exact ⟨blank_not_mem_decimal _, by decide, blank_not_mem_padded _ _, hm⟩

/-- The pieces between the blanks. -/
theorem Timestamp.splitOn_text (ts : Timestamp) :
    ts.text.splitOn ' ' = [ts.weekday ++ [','], monthName ts.month, decimal ts.day ++ [','],
      padded 4 ts.year, "at".toList, ts.clock, ts.tz] := by
  have hw : ' ' ∉ ts.weekday ++ [','] := by simp [ts.words.1]
  have hd : ' ' ∉ decimal ts.day ++ [','] := by simp [blank_not_mem_decimal]
  rw [text, splitOn_append_cons hw, splitOn_append_cons (monthName_spec ts.date_valid.2.1).1,
    splitOn_append_cons hd, splitOn_append_cons (blank_not_mem_padded _ _),
    splitOn_append_cons (by decide), splitOn_append_cons ts.blank_not_mem_clock,
    splitOn_of_not_mem ts.words.2]

theorem Timestamp.splitOn_clock (ts : Timestamp) :
    ts.clock.splitOn ':' = [decimal ts.hour, padded 2 ts.minute ++ ts.meridian] := by
  have hh : ':' ∉ decimal ts.hour := not_mem_of_digits (by decide) fun _ => isDigit_of_mem_decimal
  have hm : ':' ∉ padded 2 ts.minute ++ ts.meridian := by
    have hp : ':' ∉ padded 2 ts.minute :=
      not_mem_of_digits (by decide) fun _ => isDigit_of_mem_padded
    simp only [List.mem_append, not_or]
    refine ⟨hp, ?_⟩
    unfold meridian
    split <;> decide
  rw [clock, splitOn_append_cons hh, splitOn_of_not_mem hm]

theorem dropEnd_append {k : Nat} {t u : Text} (h : u.length = k) : dropEnd k (t ++ u) = t := by
  rw [dropEnd, List.length_append, h, Nat.add_sub_cancel, List.take_left]

theorem takeEnd_append {k : Nat} {t u : Text} (h : u.length = k) : takeEnd k (t ++ u) = u := by
  rw [takeEnd, List.length_append, h, Nat.add_sub_cancel, List.drop_left]

theorem Timestamp.length_meridian (ts : Timestamp) : ts.meridian.length = 2 := by
  unfold meridian
  split <;> rfl

theorem Timestamp.meridian_eq_pm (ts : Timestamp) :
    ts.meridian = "pm".toList ↔ ts.pm = true := by
  unfold meridian
  split
  · rename_i h; simp [h]
  · rename_i h; simp [h]

/-- Reading a valid timestamp raises nothing and gives the stored moment. -/
theorem extractDate_text (ts : Timestamp) : extractDate ts.text = .ok ts.stored := by
  have hday : dropEnd 1 (decimal ts.day ++ [',']) = decimal ts.day := dropEnd_append rfl
  have hmin : dropEnd 2 (padded 2 ts.minute ++ ts.meridian) = padded 2 ts.minute :=
    dropEnd_append ts.length_meridian
  have hmer : takeEnd 2 (padded 2 ts.minute ++ ts.meridian) = ts.meridian :=
    takeEnd_append ts.length_meridian
  have hmonth := (monthName_spec ts.date_valid.2.1).2
  have hhour : (if ts.meridian = "pm".toList then (ts.hour : Int) - 1 + 12 else (ts.hour : Int) - 1) =
      (ts.storedHour : Int) := by
    have ht := ts.time_valid
    rw [Timestamp.storedHour]
    by_cases hpm : ts.pm = true
    · rw [if_pos (ts.meridian_eq_pm.mpr hpm), if_pos hpm]
      omega
    · rw [if_neg (fun h => hpm (ts.meridian_eq_pm.mp h)), if_neg hpm]
      omega
  simp only [extractDate, ts.splitOn_text, item, List.getElem?_cons_succ, List.getElem?_cons_zero,
    hday, int_padded, int_decimal, hmonth, ts.splitOn_clock, hmin, hmer, bind, Except.bind, hhour]
  exact datetime_valid ts.stored_valid

end Analyser
