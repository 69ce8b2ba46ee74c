import FbTesting.Base.Text

/-!
# Python exceptions, `int` and `datetime`

The built-ins the analyser reads timestamps with.  `int` strips white space,
takes a sign and then wants decimal digits.  `datetime` accepts the proleptic
Gregorian dates of the years 1 to 9999 and the clock times of a day; a value of
the type carries the proof that it is one of them.

`str` prints a moment without microseconds as `YYYY-MM-DD HH:MM:SS`, each field
padded.  `strptime` is `datetime.strptime` at the format
`%Y-%m-%d %H:%M:%S`: four digits for the year, one or two for every other field.
`strptime_str` says that it reads back what `str` prints.
-/

namespace Python

open Base

/-- The exceptions the analyser can raise. -/
inductive PyError where
  | indexError
  | keyError
  | valueError
  | attributeError
  /-- An `IOError`, with its `errno` and `strerror` as they print. -/
  | ioError (errno strerror : Text)
  /-- The error lxml raises on a document it cannot read. -/
  | xmlError
deriving DecidableEq, Repr

/-! ## `int` -/

/-- White space, as `str.strip` has it. -/
def isSpace (c : Char) : Bool := c ∈ [' ', '\t', '\n', '\r', '\x0b', '\x0c']

/-- `str.strip`. -/
def strip (t : Text) : Text := ((t.dropWhile isSpace).reverse.dropWhile isSpace).reverse

/-- The number of an unsigned decimal literal. -/
def digits (t : Text) : Except PyError Nat :=
  if isDecimal t then .ok (decimalValue t) else .error .valueError

/-- `int` of a string. -/
def int (t : Text) : Except PyError Int :=
  match strip t with
  | [] => .error .valueError
  | c :: r =>
      if c = '-' then (digits r).map fun n => -(n : Int)
      else if c = '+' then (digits r).map fun n => (n : Int)
      else (digits (c :: r)).map fun n => (n : Int)

theorem isSpace_of_isDigit {c : Char} (h : c.isDigit = true) : isSpace c = false := by
  cases hs : isSpace c with
  | false => rfl
  | true =>
      simp only [isSpace, List.mem_cons, List.not_mem_nil, or_false, decide_eq_true_eq] at hs
      rcases hs with rfl | rfl | rfl | rfl | rfl | rfl <;> exact absurd h (by decide)

theorem dropWhile_isSpace_digits {t : Text} (h : ∀ c ∈ t, c.isDigit = true) :
    t.dropWhile isSpace = t := by
  cases t with
  | nil => rfl
  | cons c r => simp [isSpace_of_isDigit (h c (by simp))]

theorem strip_digits {t : Text} (h : ∀ c ∈ t, c.isDigit = true) : strip t = t := by
  have hrev : ∀ c ∈ t.reverse, c.isDigit = true := fun c hc => h c (List.mem_reverse.mp hc)
  rw [strip, dropWhile_isSpace_digits h, dropWhile_isSpace_digits hrev, List.reverse_reverse]

/-- `int` reads a plain decimal literal. -/
theorem int_digits {t : Text} (hne : t ≠ []) (h : ∀ c ∈ t, c.isDigit = true) :
    int t = .ok (decimalValue t : Int) := by
  cases t with
  | nil => exact absurd rfl hne
  | cons c r =>
      have hc := h c (by simp)
      have hminus : c ≠ '-' := by rintro rfl; exact absurd hc (by decide)
      have hplus : c ≠ '+' := by rintro rfl; exact absurd hc (by decide)
      simp [int, strip_digits h, hminus, hplus, digits, isDecimal_of_digits hne h, Except.map]

theorem int_decimal (n : Nat) : int (decimal n) = .ok (n : Int) := by
  rw [int_digits (decimal_ne_nil n) fun _ => isDigit_of_mem_decimal, decimalValue_decimal]

theorem int_padded (w n : Nat) : int (padded w n) = .ok (n : Int) := by
  rw [int_digits (padded_ne_nil w n) fun _ => isDigit_of_mem_padded, decimalValue_padded]

/-! ## Dates -/

/-- The leap years of the Gregorian calendar. -/
def isLeap (year : Nat) : Bool := year % 4 == 0 && (year % 100 != 0 || year % 400 == 0)

/-- The number of days of a month. -/
def daysInMonth (year month : Nat) : Nat :=
  if month = 2 then (if isLeap year then 29 else 28)
  else if month = 4 ∨ month = 6 ∨ month = 9 ∨ month = 11 then 30
  else 31

/-- The fields `datetime` accepts. -/
def ValidFields (year month day hour minute second : Nat) : Prop :=
  (1 ≤ year ∧ year ≤ 9999) ∧ (1 ≤ month ∧ month ≤ 12) ∧
    (1 ≤ day ∧ day ≤ daysInMonth year month) ∧ hour < 24 ∧ minute < 60 ∧ second < 60

instance (y mo d h mi s : Nat) : Decidable (ValidFields y mo d h mi s) :=
  inferInstanceAs (Decidable (_ ∧ _))

/-- A `datetime` without microseconds and without a time zone. -/
structure DateTime where
  year : Nat
  month : Nat
  day : Nat
  hour : Nat
  minute : Nat
  second : Nat
  /-- The fields are in range. -/
  valid : ValidFields year month day hour minute second
deriving DecidableEq

/-- The constructor `datetime(year, month, day, hour, minute, second)`. -/
def datetime (year month day hour minute second : Int) : Except PyError DateTime :=
  if h : (0 ≤ year ∧ 0 ≤ month ∧ 0 ≤ day ∧ 0 ≤ hour ∧ 0 ≤ minute ∧ 0 ≤ second) ∧
      ValidFields year.toNat month.toNat day.toNat hour.toNat minute.toNat second.toNat then
    .ok ⟨year.toNat, month.toNat, day.toNat, hour.toNat, minute.toNat, second.toNat, h.2⟩
  else .error .valueError

theorem datetime_valid {y mo d h mi s : Nat} (hv : ValidFields y mo d h mi s) :
    datetime y mo d h mi s = .ok ⟨y, mo, d, h, mi, s, hv⟩ := by
  simp [datetime, hv]

/-- `str` of a `datetime`. -/
def DateTime.str (d : DateTime) : Text :=
  padded 4 d.year ++ '-' :: (padded 2 d.month ++ '-' :: (padded 2 d.day ++ ' ' ::
    (padded 2 d.hour ++ ':' :: (padded 2 d.minute ++ ':' :: padded 2 d.second))))

/-- The calendar day of a `datetime`. -/
def DateTime.date (d : DateTime) : Nat × Nat × Nat := (d.year, d.month, d.day)

/-- `<` of two `datetime`s, field by field from the year down. -/
def DateTime.Before (d e : DateTime) : Prop :=
  d.year < e.year ∨ d.year = e.year ∧ (d.month < e.month ∨ d.month = e.month ∧ (d.day < e.day ∨
    d.day = e.day ∧ (d.hour < e.hour ∨ d.hour = e.hour ∧ (d.minute < e.minute ∨
      d.minute = e.minute ∧ d.second < e.second))))

instance (d e : DateTime) : Decidable (d.Before e) := inferInstanceAs (Decidable (_ ∨ _))

/-- Of two different `datetime`s one is before the other. -/
theorem DateTime.eq_of_not_before {d e : DateTime} (h : ¬d.Before e) (h' : ¬e.Before d) :
    d = e := by
  obtain ⟨y, mo, da, ho, mi, s, hd⟩ := d
  obtain ⟨y', mo', da', ho', mi', s', he⟩ := e
  simp only [DateTime.Before] at h h'
  simp only [DateTime.mk.injEq]
  omega

/-- On one day the time of day decides. -/
theorem DateTime.before_of_date_eq {d e : DateTime} (h : d.date = e.date) :
    d.Before e ↔ d.hour < e.hour ∨ d.hour = e.hour ∧ (d.minute < e.minute ∨
      d.minute = e.minute ∧ d.second < e.second) := by
  obtain ⟨hy, hm, hd⟩ : d.year = e.year ∧ d.month = e.month ∧ d.day = e.day := by
    simpa [DateTime.date] using h
  simp only [DateTime.Before, hy, hm, hd, Nat.lt_irrefl, true_and, false_or]

/-- On two days the time of day does not matter. -/
theorem DateTime.before_of_date_ne {d e d' e' : DateTime} (hd : d.date = d'.date)
    (he : e.date = e'.date) (hne : d.date ≠ e.date) : d.Before e ↔ d'.Before e' := by
  simp only [DateTime.date, Prod.mk.injEq, ne_eq] at hd he hne
  obtain ⟨hy, hm, hday⟩ := hd
  obtain ⟨hy', hm', hday'⟩ := he
  simp only [DateTime.Before, ← hy, ← hm, ← hday, ← hy', ← hm', ← hday']
  omega

theorem daysInMonth_le (y m : Nat) : daysInMonth y m ≤ 31 := by
  unfold daysInMonth
  split_ifs <;> omega

/-! ## `strptime` -/

/-- A run of digits of an admitted length, with its value in an admitted range. -/
def field (lens : List Nat) (lo hi : Nat) (t : Text) : Option (Nat × Text) :=
  let ds := t.takeWhile Char.isDigit
  if ds.length ∈ lens ∧ lo ≤ decimalValue ds ∧ decimalValue ds ≤ hi then
    some (decimalValue ds, t.drop ds.length)
  else none

/-- A literal character of the format. -/
def literal (c : Char) : Text → Option Text
  | [] => none
  | x :: r => if x = c then some r else none

/-- White space in the format stands for one or more white space characters. -/
def spaces : Text → Option Text
  | [] => none
  | x :: r => if isSpace x then some (r.dropWhile isSpace) else none

/-- The six fields of the format, with nothing left after them.  Seconds 60 and
61 pass here and are refused by `datetime`. -/
def strptimeFields (t : Text) : Option (Nat × Nat × Nat × Nat × Nat × Nat) := do
  let (y, t) ← field [4] 0 9999 t
  let t ← literal '-' t
  let (mo, t) ← field [1, 2] 1 12 t
  let t ← literal '-' t
  let (d, t) ← field [1, 2] 1 31 t
  let t ← spaces t
  let (h, t) ← field [1, 2] 0 23 t
  let t ← literal ':' t
  let (mi, t) ← field [1, 2] 0 59 t
  let t ← literal ':' t
  let (s, t) ← field [1, 2] 0 61 t
  if t = [] then some (y, mo, d, h, mi, s) else none

/-- `datetime.strptime(t, '%Y-%m-%d %H:%M:%S')`. -/
def strptime (t : Text) : Except PyError DateTime :=
  match strptimeFields t with
  | some (y, mo, d, h, mi, s) => datetime y mo d h mi s
  | none => .error .valueError

/-- A text that does not begin with a digit. -/
def NoDigit (r : Text) : Prop := ∀ c ∈ r.head?, c.isDigit = false

theorem field_padded {lens : List Nat} {lo hi w n : Nat} {r : Text} (hw : 0 < w)
    (hlens : w ∈ lens) (hlo : lo ≤ n) (hhi : n ≤ hi) (hn : n < 10 ^ w) (hr : NoDigit r) :
    field lens lo hi (padded w n ++ r) = some (n, r) := by
  have htake : (padded w n ++ r).takeWhile Char.isDigit = padded w n :=
    takeWhile_append_eq_iff.mpr ⟨fun c => isDigit_of_mem_padded, hr⟩
  simp only [field, htake, length_padded hw hn, decimalValue_padded, hlens, hlo, hhi, and_self,
    if_true, Option.some.injEq, Prod.mk.injEq, true_and]
  rw [List.drop_append_of_le_length (by rw [length_padded hw hn]),
    List.drop_of_length_le (by rw [length_padded hw hn]), List.nil_append]

theorem noDigit_nil : NoDigit [] := by simp [NoDigit]

theorem noDigit_cons {c : Char} {r : Text} (h : c.isDigit = false) : NoDigit (c :: r) := by
  simpa [NoDigit] using h

theorem spaces_padded {w n : Nat} {r : Text} :
    spaces (' ' :: (padded w n ++ r)) = some (padded w n ++ r) := by
  have hp : padded w n ≠ [] := padded_ne_nil w n
  cases hd : padded w n with
  | nil => exact absurd hd hp
  | cons c ds =>
      have hc : c.isDigit = true := isDigit_of_mem_padded (w := w) (n := n) (by simp [hd])
      have hspace : isSpace ' ' = true := by decide
      simp [spaces, hspace, isSpace_of_isDigit hc]

/-- `strptime` reads back what `str` prints. -/
theorem strptime_str (d : DateTime) : strptime d.str = .ok d := by
  obtain ⟨y, mo, da, h, mi, s, hv⟩ := d
  have hday := daysInMonth_le y mo
  obtain ⟨hy, hmo, hda, hh, hmi, hs⟩ := id hv
  have hfields : strptimeFields (DateTime.str ⟨y, mo, da, h, mi, s, hv⟩) =
      some (y, mo, da, h, mi, s) := by
    have hlast : field [1, 2] 0 61 (padded 2 s) = some (s, []) := by
      have hs' : field [1, 2] 0 61 (padded 2 s ++ []) = some (s, []) :=
        field_padded (by decide) (by decide) (by omega) (by omega) (by omega) noDigit_nil
      rwa [List.append_nil] at hs'
    simp only [strptimeFields, DateTime.str]
    rw [field_padded (by decide) (by decide) (by omega) (by omega) (by omega)
      (noDigit_cons (by decide))]
    simp only [Option.bind_eq_bind, Option.bind_some, literal, if_true]
    rw [field_padded (by decide) (by decide) (by omega) (by omega) (by omega)
      (noDigit_cons (by decide))]
    simp only [Option.bind_some, if_true]
    rw [field_padded (by decide) (by decide) (by omega) (by omega) (by omega)
      (noDigit_cons (by decide))]
    simp only [Option.bind_some, spaces_padded]
    rw [field_padded (by decide) (by decide) (by omega) (by omega) (by omega)
      (noDigit_cons (by decide))]
    simp only [Option.bind_some, if_true]
    rw [field_padded (by decide) (by decide) (by omega) (by omega) (by omega)
      (noDigit_cons (by decide))]
    simp only [Option.bind_some, if_true, hlast]
  rw [strptime, hfields]
  exact datetime_valid hv

end Python
