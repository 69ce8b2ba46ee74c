import FbTesting.Analyser.Clock
import FbTesting.Analyser.Stream

/-!
# Reported percentages

Each of the three passes divides a counter by the size of what it goes through and
prints the quotient, once a round.  A pass may be left early, by the exception of a date
that cannot be read, so the number of its rounds is at most the size (`MakesRounds`).

The counters do not start alike.  Those of `extract` and `timeline` start at 0, and the
last quotient is at most 100.  That of `hour_histogram` starts at 1 and is incremented
before the quotient is printed all the same, so that the last of `n` rounds prints
`100 * (n + 1) / n`, which is more than 100 unless `n` is.
-/

namespace Analyser

open Base Python

/-! ## Percentages -/

/-- The number that a line of progress shows.  These lines, and no other text, end
with a carriage return. -/
def percentage (t : Text) : Option Nat :=
  if t.getLast? = some '\r' then some (decimalValue (t.filter Char.isDigit)) else none

/-- The numbers that are printed as progress, in order. -/
def percentages (acts : List Act) : List Nat :=
  acts.filterMap fun
    | .stdout t => percentage t
    | _ => none

/-- The values of a pass over `size` things are percentages.  Each of them is a
quotient by the size, so none may be printed where that is zero. -/
structure Percentages (size : Nat) (values : List Nat) : Prop where
  divisor : values ≠ [] → size ≠ 0
  le_hundred : ∀ v ∈ values, v ≤ 100
  increasing : values.Pairwise (· ≤ ·)

/-- What the three passes print as progress are percentages. -/
structure ReportsPercentages (H : HashOrder) (user : Text) (doc : Document)
    (messages : List Message) : Prop where
  extract : Percentages doc.length (percentages (extract H user doc).acts)
  timeline : Percentages messages.length (percentages (timeline messages).acts)
  hour_histogram : Percentages messages.length (percentages (hour_histogram messages).acts)

theorem percentages_append (as bs : List Act) :
    percentages (as ++ bs) = percentages as ++ percentages bs := List.filterMap_append

theorem percentages_dumpTo (f : OutFile) (v : Json) : percentages (dumpTo f v).acts = [] := rfl

theorem percentages_say {t : Text} (h : percentage t = none) : percentages (say t).acts = [] := by
  have hnone : percentages [Act.stdout t, .flush] = percentages [.flush] :=
    List.filterMap_cons_none h
  rw [acts_say, hnone]
  rfl

/-- What follows a loop and prints no percentage does not matter. -/
theorem percentages_bind {α β : Type} {x : Script α} {f : α → Script β}
    (h : ∀ a, percentages (f a).acts = []) : percentages (x >>= f).acts = percentages x.acts := by
  cases hx : x.result with
  | error e => rw [Traced.bind_error hx]
  | ok a => rw [Traced.bind_ok hx, percentages_append, h a, List.append_nil]

/-- The number between two texts without digits is the one that is read. -/
theorem percentage_line {before after : Text} (hb : before.filter Char.isDigit = [])
    (ha : after.filter Char.isDigit = []) (hcr : after.getLast? = some '\r') (n : Nat) :
    percentage (before ++ decimal n ++ after) = some n := by
  have hlast : (before ++ decimal n ++ after).getLast? = some '\r' := by
    rw [List.getLast?_append, hcr, Option.some_or]
  have hdigits : (before ++ decimal n ++ after).filter Char.isDigit = decimal n := by
    rw [List.filter_append, List.filter_append, hb, ha, List.nil_append, List.append_nil]
    exact List.filter_eq_self.mpr fun _ => isDigit_of_mem_decimal
  rw [percentage, if_pos hlast, hdigits, decimalValue_decimal]

/-! ## Quotients -/

/-- The quotients of `j` rounds. -/
def quotients (size count j : Nat) : List Nat :=
  (List.range' (count + 1) j).map fun i => 100 * i / size

theorem percentages_rounds {line : Nat → Text} {size : Nat}
    (h : ∀ i, percentage (line i) = some (100 * i / size)) (count j : Nat) :
    percentages (rounds line count j) = quotients size count j := by
  rw [rounds, quotients]
  induction List.range' (count + 1) j with
  | nil => rfl
  | cons i is ih =>
      have hline : percentages [Act.stdout (line i), .flush] = [100 * i / size] :=
        List.filterMap_cons_some (h i)
      rw [List.flatMap_cons, percentages_append, hline, ih]
      rfl

/-- The quotients never decrease, so the last one decides. -/
theorem percentages_quotients_iff (size count j : Nat) :
    Percentages size (quotients size count j) ↔
      (j ≠ 0 → size ≠ 0 ∧ 100 * (count + j) / size ≤ 100) := by
  have hmem : ∀ v, v ∈ quotients size count j ↔
      ∃ i, (count + 1 ≤ i ∧ i < count + 1 + j) ∧ 100 * i / size = v := by
    intro v
    rw [quotients, List.mem_map]
    simp only [List.mem_range'_1]
  constructor
  · intro h hj
    have hlast := (hmem _).mpr ⟨count + j, ⟨by omega, by omega⟩, rfl⟩
    exact ⟨h.divisor (List.ne_nil_of_mem hlast), h.le_hundred _ hlast⟩
  · intro h
    refine ⟨fun hne => ?_, fun v hv => ?_, ?_⟩
    · refine (h fun hj => hne ?_).1
      rw [quotients, hj]
      rfl
    · obtain ⟨i, ⟨hlo, hhi⟩, rfl⟩ := (hmem v).mp hv
      calc 100 * i / size ≤ 100 * (count + j) / size :=
            Nat.div_le_div_right (Nat.mul_le_mul_left 100 (by omega))
        _ ≤ 100 := (h (by omega)).2
    · rw [quotients, List.pairwise_map]
      refine List.Pairwise.imp (fun hlt => ?_) List.pairwise_lt_range'
      exact Nat.div_le_div_right (Nat.mul_le_mul_left 100 (Nat.le_of_lt hlt))

/-- A counter that does not pass the size gives percentages. -/
theorem percentages_quotients {size count j : Nat} (h : count + j ≤ size) :
    Percentages size (quotients size count j) := by
  refine (percentages_quotients_iff size count j).mpr fun hj => ?_
  have hsize : size ≠ 0 := by omega
  refine ⟨hsize, ?_⟩
  calc 100 * (count + j) / size ≤ 100 * size / size :=
        Nat.div_le_div_right (Nat.mul_le_mul_left 100 h)
    _ = 100 := Nat.mul_div_cancel 100 (Nat.pos_of_ne_zero hsize)

/-! ## The passes -/

/-- The loop ends with a value exactly when every date is read. -/
theorem hourLoop_isOk (size : Nat) (ms : List Message) : ∀ (count : Nat) (d : Dict Nat Nat),
    (hourLoop size ms count d).result.isOk = true ↔ ∀ m ∈ ms, (strptime m.date).isOk = true := by
  induction ms with
  | nil => exact fun _ _ => iff_of_true rfl fun _ hm => absurd hm List.not_mem_nil
  | cons m ms ih =>
      intro count d
      rw [hourLoop, List.forall_mem_cons]
      cases strptime m.date with
      | error e =>
          refine iff_of_false (fun h => ?_) fun h => ?_
          · cases h
          · cases h.1
      | ok date =>
          refine (ih (count + 1) (countHour d date.hour)).trans ?_
          exact (and_iff_right rfl).symm

/-- The percentages of `extract`: its counter goes from 1 to the number of threads. -/
theorem percentages_extract (H : HashOrder) (user : Text) (doc : Document) :
    ∃ j ≤ doc.length,
      percentages (extract H user doc).acts = quotients doc.length 0 j := by
  obtain ⟨j, hj, hacts, _⟩ := threadLoop_rounds H doc.length doc 0 .empty
  refine ⟨j, hj, ?_⟩
  have hline : ∀ i, percentage (progressLine i doc.length) = some (100 * i / doc.length) :=
    fun i => @percentage_line [] ['\r'] rfl (by decide) rfl (100 * i / doc.length)
  rw [extract, percentages_bind, hacts, percentages_rounds hline]
  intro chats
  rw [percentages_bind]
  · exact percentages_dumpTo _ _
  · intro _
    rw [percentages_bind fun _ => rfl]
    exact percentages_say (by decide)

/-- Those of `timeline`: its first message is not counted. -/
theorem percentages_timeline (messages : List Message) :
    ∃ j ≤ messages.length,
      percentages (timeline messages).acts = quotients messages.length 0 j := by
  have hentries : ∃ j ≤ messages.length, (timelineEntries messages).acts =
      rounds (fun i => timelineLine i messages.length) 0 j := by
    cases messages with
    | nil => exact ⟨0, Nat.le_refl 0, rfl⟩
    | cons m ms =>
        rw [timelineEntries]
        cases strptime m.date with
        | error e => exact ⟨0, Nat.zero_le _, rfl⟩
        | ok date =>
            obtain ⟨j, hj, hacts, _⟩ :=
              timelineLoop_rounds (m :: ms).length ms date (wordCount m.text) 0 []
            exact ⟨j, Nat.le_succ_of_le hj, hacts⟩
  obtain ⟨j, hj, hacts⟩ := hentries
  refine ⟨j, hj, ?_⟩
  have hline : ∀ i, percentage (timelineLine i messages.length) =
      some (100 * i / messages.length) :=
    fun i => percentage_line (by decide) (by decide) rfl _
  have hstart : (say "Starting analysis for time line plot...".toList).result = .ok () := rfl
  rw [timeline, Traced.bind_ok hstart, percentages_append, percentages_say (by decide),
    List.nil_append, percentages_bind, hacts, percentages_rounds hline]
  intro es
  rw [percentages_bind]
  · exact percentages_say (by decide)
  · intro _
    rw [percentages_bind fun _ => percentages_say (by decide)]
    exact percentages_dumpTo _ _

/-- Those of `hour_histogram`: the counter is 2 in the first round. -/
theorem percentages_hour_histogram (messages : List Message) :
    ∃ j ≤ messages.length,
      percentages (hour_histogram messages).acts = quotients messages.length 1 j ∧
      (j = messages.length ↔ ∀ m ∈ messages, (strptime m.date).isOk = true) := by
  obtain ⟨j, hj, hacts, hall⟩ := hourLoop_rounds messages.length messages 1 .empty
  refine ⟨j, hj, ?_, hall.symm.trans (hourLoop_isOk _ _ _ _)⟩
  have hline : ∀ i, percentage (hourLine i messages.length) = some (100 * i / messages.length) :=
    fun i => percentage_line (by decide) (by decide) rfl _
  rw [hour_histogram, percentages_bind, hacts, percentages_rounds hline]
  intro d
  rw [percentages_bind fun _ => percentages_say (by decide)]
  exact percentages_dumpTo _ _

/-- One more than the size, in hundredths of the size. -/
theorem hundred_succ_div {n : Nat} (h : n ≠ 0) : 100 * (1 + n) / n ≤ 100 ↔ 100 < n := by
  have hdiv : 100 * (1 + n) / n = 100 / n + 100 := by
    rw [Nat.mul_add, Nat.mul_one, Nat.add_mul_div_right _ _ (Nat.pos_of_ne_zero h)]
  have hzero : ∀ q : Nat, q + 100 ≤ 100 ↔ q = 0 := by omega
  rw [hdiv, hzero, Nat.div_eq_zero_iff, or_iff_right h]

/-- The passes report percentages exactly when the messages, if all of their dates are
read, are none or more than a hundred. -/
theorem reportsPercentages_iff (H : HashOrder) (user : Text) (doc : Document)
    (messages : List Message) :
    ReportsPercentages H user doc messages ↔
      ((∀ m ∈ messages, (strptime m.date).isOk = true) →
        messages.length = 0 ∨ 100 < messages.length) := by
  obtain ⟨j, hj, hextract⟩ := percentages_extract H user doc
  obtain ⟨k, hk, htimeline⟩ := percentages_timeline messages
  obtain ⟨l, hl, hhour, hall⟩ := percentages_hour_histogram messages
  rw [← hall]
  constructor
  · intro h hlast
    have hpass := h.hour_histogram
    rw [hhour, percentages_quotients_iff, hlast] at hpass
    by_cases hzero : messages.length = 0
    · exact Or.inl hzero
    · exact Or.inr ((hundred_succ_div hzero).mp (hpass hzero).2)
  · intro h
    refine ⟨?_, ?_, ?_⟩
    · rw [hextract]
      exact percentages_quotients (by omega)
    · rw [htimeline]
      exact percentages_quotients (by omega)
    · rw [hhour]
      by_cases hlast : l = messages.length
      · refine (percentages_quotients_iff _ _ _).mpr fun hzero => ?_
        rw [hlast] at hzero ⊢
        exact ⟨hzero, (hundred_succ_div hzero).mpr ((h hlast).resolve_left hzero)⟩
      · -- the loop is left before its last round
        exact percentages_quotients (by omega)

/-- A message of one in the morning, as it is stored. -/
def nightMessage : Message := ⟨none, oneInTheMorning.stored.str, "Hi".toList⟩

/-- Over one message, `hour_histogram` reports 200 percent. -/
theorem hour_histogram_reports_twoHundred :
    percentages (hour_histogram [nightMessage]).acts = [200] ∧
      ¬ReportsPercentages .insertion "0a1b".toList
        [[⟨none, some oneInTheMorning.text, some "Hi".toList⟩]] [nightMessage] := by
  have hdates : ∀ m ∈ [nightMessage], (strptime m.date).isOk = true := by
    intro m hm
    rw [List.mem_singleton.mp hm, show nightMessage.date = oneInTheMorning.stored.str from rfl,
      strptime_str]
    rfl
  obtain ⟨j, _, hvalues, hall⟩ := percentages_hour_histogram [nightMessage]
  have hfull : percentages (hour_histogram [nightMessage]).acts = [200] := by
    rw [hvalues, hall.mpr hdates]
    rfl
  refine ⟨hfull, fun h => ?_⟩
  have hle := h.hour_histogram.le_hundred 200
  rw [hfull] at hle
  exact absurd (hle List.mem_cons_self) (by decide)

end Analyser
