import FbTesting.Analyser.Timeline

/-!
# The bars of the hour histogram

The loop of `hour_histogram` counts in a dictionary that has only the hours that
occur, numbered from zero, and the bars are read off it downwards and numbered from
one.  `hourLoop_result` is what the loop adds to the dictionary for an hour, and
`hourCounts` the bars in terms of the messages.  All else is about counting in lists.
-/

namespace Analyser

open Base Python

/-- The number of messages of an hour. -/
def ofHour (hour : Nat) (ms : List DatedMessage) : Nat := ms.countP fun m => m.moment.hour == hour

/-- The bars: the hours from the last one down, each with its number of messages. -/
def hourCounts (ms : List DatedMessage) : List (Nat × Nat) :=
  (List.range 24).reverse.map fun hour => (hour + 1, ofHour hour ms)

/-- `hour_histogram` completes on these messages and writes these bars. -/
def WritesBars (ms : List DatedMessage) (hour_arr : List (Nat × Nat)) : Prop :=
  (hour_histogram (ms.map DatedMessage.message)).result = .ok () ∧
    writtenTo .hourHistogram (hour_histogram (ms.map DatedMessage.message)).acts =
      [(hourJson hour_arr).dump]

/-! ## The dictionary -/

theorem getD_countHour (d : Dict Nat Nat) (hour h : Nat) :
    ((countHour d hour).get? h).getD 0 = (d.get? h).getD 0 + if hour = h then 1 else 0 := by
  have hset : ∀ n : Nat, ((d.set hour n).get? h).getD 0 =
      if hour = h then n else (d.get? h).getD 0 := by
    intro n
    rw [Dict.get?_set]
    by_cases hh : hour = h
    · rw [if_pos hh, if_pos hh.symm, Option.getD_some]
    · rw [if_neg hh, if_neg (Ne.symm hh)]
  rw [countHour]
  cases hget : d.get? hour with
  | none =>
      rw [hset]
      split
      · rename_i hh
        rw [← hh, hget]
        rfl
      · rfl
  | some n =>
      rw [hset]
      split
      · rename_i hh
        rw [← hh, hget]
        rfl
      · rfl

/-- The loop adds to what the dictionary holds for an hour the messages of that
hour. -/
theorem hourLoop_result (size : Nat) (ms : List DatedMessage) : ∀ (count : Nat) (d : Dict Nat Nat),
    ∃ d', (hourLoop size (ms.map DatedMessage.message) count d).result = .ok d' ∧
      ∀ h, (d'.get? h).getD 0 = (d.get? h).getD 0 + ofHour h ms := by
  induction ms with
  | nil => exact fun _ d => ⟨d, rfl, fun _ => rfl⟩
  | cons m ms ih =>
      intro count d
      obtain ⟨d', hd', hcount⟩ := ih (count + 1) (countHour d m.moment.hour)
      refine ⟨d', ?_, fun h => ?_⟩
      · rw [List.map_cons, hourLoop, show m.message.date = m.moment.str from rfl, strptime_str,
          Traced.lift_ok_bind]
        exact hd'
      · rw [hcount, getD_countHour, ofHour, ofHour, List.countP_cons]
        simp only [beq_iff_eq]
        omega

/-- The bars that are written are the counts. -/
theorem writesBars_hourCounts (ms : List DatedMessage) : WritesBars ms (hourCounts ms) := by
  obtain ⟨d, hd, hcount⟩ :=
    hourLoop_result (ms.map DatedMessage.message).length ms 1 (.empty : Dict Nat Nat)
  have harr : hourArr d = hourCounts ms := by
    rw [hourArr, hourCounts]
    refine List.map_congr_left fun h _ => ?_
    rw [hcount h, Dict.get?_empty, Option.getD_none, Nat.zero_add]
  let r : Results := ⟨.null, .null, hourJson (hourArr d)⟩
  obtain ⟨hok, before, after, hbefore, hacts, hafter⟩ := plan_hour_histogram (r := r) hd rfl
  refine ⟨hok, ?_⟩
  rw [hacts, writtenTo_append, writtenTo_append, writtenTo_silent _ hbefore,
    writtenTo_silent _ hafter, writtenTo_dumpTo, ← harr]
  rfl

/-! ## Counting -/

/-- The counts of all hours add up, since each message has one hour. -/
theorem sum_ofHour (ms : List DatedMessage) :
    ((List.range 24).map fun hour => ofHour hour ms).sum = ms.length := by
  induction ms with
  | nil => decide
  | cons m ms ih =>
      have hall : ∀ k < 24,
          ((List.range 24).map fun hour => if k = hour then 1 else 0).sum = 1 := by decide
      have hone := hall m.moment.hour m.moment.valid.2.2.2.1
      have hcons : ∀ hour, ofHour hour (m :: ms) =
          ofHour hour ms + if m.moment.hour = hour then 1 else 0 := by
        intro hour
        rw [ofHour, List.countP_cons]
        simp only [beq_iff_eq]
        rfl
      simp only [hcons]
      rw [List.sum_map_add, ih, hone, List.length_cons]

/-- The hour histogram has the bars 24 to 1.  Each is the number of messages of its
hour, together they are all messages, the order of the messages does not matter, and
the bars of two lists one after the other are the sums of their bars. -/
theorem hour_histogram_counts (ms : List DatedMessage) :
    ∃ arr, WritesBars ms arr ∧
      arr.map Prod.fst = (List.range' 1 24).reverse ∧
      (∀ p ∈ arr, p.2 = ms.countP fun m => m.moment.hour == p.1 - 1) ∧
      (arr.map Prod.snd).sum = ms.length ∧
      (∀ ns, ns.Perm ms → WritesBars ns arr) ∧
      ∀ ns, ∃ brr crr, WritesBars ns brr ∧ WritesBars (ms ++ ns) crr ∧
        crr.map Prod.snd = List.zipWith (· + ·) (arr.map Prod.snd) (brr.map Prod.snd) := by
  refine ⟨hourCounts ms, writesBars_hourCounts ms, ?_, ?_, ?_, ?_, ?_⟩
  · rw [hourCounts, List.map_map]
    rfl
  · intro p hp
    obtain ⟨hour, _, rfl⟩ := List.mem_map.mp hp
    rfl
  · rw [hourCounts, List.map_map, ← sum_ofHour ms, List.map_reverse, List.sum_reverse]
    rfl
  · intro ns hperm
    have hsame : hourCounts ms = hourCounts ns :=
      List.map_congr_left fun hour _ => by rw [ofHour, ofHour, hperm.countP_eq]
    rw [hsame]
    exact writesBars_hourCounts ns
  · intro ns
    refine ⟨_, _, writesBars_hourCounts ns, writesBars_hourCounts (ms ++ ns), ?_⟩
    simp only [hourCounts, List.map_map, List.zipWith_map_left, List.zipWith_map_right,
      List.zipWith_self]
    refine List.map_congr_left fun hour _ => ?_
    exact List.countP_append

end Analyser
