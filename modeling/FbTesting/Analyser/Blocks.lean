import FbTesting.Analyser.Outcome

/-!
# Runs in blocks

A run does two things again and again: it says something and flushes it, or it dumps a
value to a file.  `normalBlocks` is the list of all that a run with results does, over a
number of threads and a number of messages of the chat that is analysed
(`analyse_blocks`).  Before the blocks it prints the line `yes`, which is not flushed,
and after them it flushes once more.
-/

namespace Analyser

open Base Python

/-- Something that a run does. -/
inductive Block where
  | say (t : Text)
  | dump (f : OutFile) (v : Json)

/-- The acts of a block. -/
def Block.acts : Block → List Act
  | .say t => [.stdout t, .flush]
  | .dump f v => [.open f, .write f v.dump, .close f]

/-- One line a round. -/
def roundBlocks (line : Nat → Text) (count j : Nat) : List Block :=
  (List.range' (count + 1) j).map fun i => Block.say (line i)

/-- What a run with results does over `n` threads and `l` messages. -/
def normalBlocks (n l : Nat) (r : Results) : List Block :=
  roundBlocks (fun i => progressLine i n) 0 n ++
    ([Block.dump .messages r.messages, Block.say "finished creating JSON chat structure\n".toList,
        Block.say "Starting analysis for time line plot...".toList] ++
      (roundBlocks (fun i => timelineLine i l) 0 (l - 1) ++
        ([Block.say "All messages have been analyzed.".toList, Block.dump .timeline r.timeline,
            Block.say "timeline".toList] ++
          (roundBlocks (fun i => hourLine i l) 1 l ++
            [Block.dump .hourHistogram r.hourHistogram, Block.say "hour_histogram".toList]))))

theorem acts_roundBlocks (line : Nat → Text) (count j : Nat) :
    (roundBlocks line count j).flatMap Block.acts = rounds line count j := by
  rw [roundBlocks, rounds, List.flatMap_map]
  rfl

theorem extract_blocks {H : HashOrder} {user : Text} {doc : Document} {fb : Fb}
    (h : (extract H user doc).result = .ok fb) :
    (extract H user doc).acts = (roundBlocks (fun i => progressLine i doc.length) 0 doc.length ++
      [Block.dump .messages (fb.json H),
        Block.say "finished creating JSON chat structure\n".toList]).flatMap Block.acts := by
  rw [extract] at h ⊢
  obtain ⟨chats, hloop, hrest, hacts⟩ := Traced.bind_eq_ok h
  have hchats : (⟨user, chats⟩ : Fb) = fb := by
    cases hrest
    rfl
  rw [hacts, (threadLoop_rounds H _ doc 0 _).acts_of_ok hloop, List.flatMap_append,
    acts_roundBlocks, ← hchats]
  rfl

theorem timelineEntries_blocks {ms : List Message} {es : List Entry}
    (h : (timelineEntries ms).result = .ok es) :
    (timelineEntries ms).acts =
      (roundBlocks (fun i => timelineLine i ms.length) 0 (ms.length - 1)).flatMap Block.acts := by
  rw [acts_roundBlocks]
  cases ms with
  | nil => rfl
  | cons m ms =>
      rw [timelineEntries] at h ⊢
      obtain ⟨date, _, hloop, hacts⟩ := Traced.bind_eq_ok h
      rw [hacts, (timelineLoop_rounds _ _ _ _ _ _).acts_of_ok hloop]
      rfl

theorem timeline_blocks {ms : List Message} {es : List Entry}
    (h : (timelineEntries ms).result = .ok es) :
    (timeline ms).acts = ([Block.say "Starting analysis for time line plot...".toList] ++
      (roundBlocks (fun i => timelineLine i ms.length) 0 (ms.length - 1) ++
        [Block.say "All messages have been analyzed.".toList,
          Block.dump .timeline (timelineJson es), Block.say "timeline".toList])).flatMap
        Block.acts := by
  have hsay : (say "Starting analysis for time line plot...".toList).result = .ok () := rfl
  rw [timeline, Traced.bind_ok hsay, Traced.bind_ok h, timelineEntries_blocks h,
    List.flatMap_append, List.flatMap_append]
  rfl

theorem hour_histogram_blocks {ms : List Message} {counts : Dict Nat Nat}
    (h : (hourLoop ms.length ms 1 .empty).result = .ok counts) :
    (hour_histogram ms).acts = (roundBlocks (fun i => hourLine i ms.length) 1 ms.length ++
      [Block.dump .hourHistogram (hourJson (hourArr counts)),
        Block.say "hour_histogram".toList]).flatMap Block.acts := by
  rw [hour_histogram, Traced.bind_ok h, (hourLoop_rounds _ _ _ _).acts_of_ok h,
    List.flatMap_append, acts_roundBlocks]
  rfl

/-- A run with results is the line `yes`, its blocks, and a last flush. -/
theorem analyse_blocks {H : HashOrder} {user filepath : Text} {doc : Except PyError Document}
    {r : Results} (h : results H user filepath doc = some r) :
    ∃ d l, doc = .ok d ∧ d ≠ [] ∧ analyse H user filepath doc =
      ⟨.stdout "yes\n".toList :: ((normalBlocks d.length l r).flatMap Block.acts ++ [.flush]),
        0⟩ := by
  obtain ⟨d, _, hdoc, hne, _⟩ := extracted_of_results h
  obtain ⟨d', fb, ms, es, counts, hdoc', hpath, hfb, hms, hes, hcounts, rfl⟩ := results_eq_some h
  rw [hdoc, Except.ok.injEq] at hdoc'
  subst hdoc hdoc'
  refine ⟨d, ms.length, rfl, hne, ?_⟩
  have htimeline := (plan_timeline (r := ⟨.null, timelineJson es, .null⟩) hes rfl).1
  have hhour := (plan_hour_histogram (r := ⟨.null, .null, hourJson (hourArr counts)⟩) hcounts rfl).1
  have hmain : main H user filepath (.ok d) =
      ⟨(normalBlocks d.length ms.length
        ⟨fb.json H, timelineJson es, hourJson (hourArr counts)⟩).flatMap Block.acts, .ok 0⟩ := by
    rw [main_of_read H user hpath, Traced.bind_ok hfb, hms, Traced.lift_ok_bind,
      Traced.bind_ok htimeline, Traced.bind_ok hhour, extract_blocks hfb, timeline_blocks hes,
      hour_histogram_blocks hcounts]
    simp only [normalBlocks, List.flatMap_append, List.append_assoc, Traced.acts_pure,
      Traced.result_pure, List.append_nil]
    rfl
  rw [analyse, hmain]
  rfl

end Analyser
