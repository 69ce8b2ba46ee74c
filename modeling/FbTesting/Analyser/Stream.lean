import Mathlib.Data.List.Chain
import FbTesting.Analyser.Main

/-!
# The standard output of a run

The text a run that ends normally writes to standard output depends only on the
number of threads and on the number of messages of the chat that is analysed
(`stdoutText_normal`): its three loops say one line a round (`MakesRounds`).  Two
facts about it matter to the reader at the other end of the pipe.  A carriage return
only ever follows a digit or a blank (`carriageOk_normalStream`), and the only
underscore is in the last word (`underscore_normalBody`).
-/

namespace Analyser

open Base Python

/-! ## The text -/

/-- The percentages of the extraction of `n` threads. -/
def extractLines (n : Nat) : Text := (List.range' 1 n).flatMap fun i => progressLine i n

/-- The progress of `timeline` over `l` messages. -/
def timelineLines (l : Nat) : Text := (List.range' 1 (l - 1)).flatMap fun i => timelineLine i l

/-- The progress of `hour_histogram` over `l` messages. -/
def hourLines (l : Nat) : Text := (List.range' 2 l).flatMap fun i => hourLine i l

/-- What is written before the last word. -/
def normalBody (n l : Nat) : Text :=
  "yes\n".toList ++ extractLines n ++ "finished creating JSON chat structure\n".toList ++
    "Starting analysis for time line plot...".toList ++ timelineLines l ++
    "All messages have been analyzed.".toList ++ "timeline".toList ++ hourLines l

/-- What a run over `n` threads and `l` messages writes. -/
def normalStream (n l : Nat) : Text := normalBody n l ++ "hour_histogram".toList

/-! ## The text of some acts -/

@[simp] theorem stdoutText_nil : stdoutText [] = [] := rfl

@[simp] theorem stdoutText_append (a b : List Act) :
    stdoutText (a ++ b) = stdoutText a ++ stdoutText b := by simp [stdoutText]

@[simp] theorem stdoutText_stdout (t : Text) (a : List Act) :
    stdoutText (.stdout t :: a) = t ++ stdoutText a := by simp [stdoutText]

@[simp] theorem stdoutText_flush (a : List Act) : stdoutText (.flush :: a) = stdoutText a := by
  simp [stdoutText]

theorem acts_say (t : Text) : (say t).acts = [.stdout t, .flush] := rfl

theorem stdoutText_say (t : Text) : stdoutText (say t).acts = t := by simp [acts_say]

/-! ## Loops that say one line a round -/

/-- The acts of `j` rounds, from where the counter is `count`. -/
def rounds (line : Nat → Text) (count j : Nat) : List Act :=
  (List.range' (count + 1) j).flatMap fun i => [Act.stdout (line i), .flush]

/-- At most `n` rounds are made, and all of them if there is a value in the end. -/
def MakesRounds {α : Type} (x : Script α) (line : Nat → Text) (count n : Nat) : Prop :=
  ∃ j ≤ n, x.acts = rounds line count j ∧ (x.result.isOk = true ↔ j = n)

theorem rounds_succ (line : Nat → Text) (count j : Nat) :
    rounds line count (j + 1) = (say (line (count + 1))).acts ++ rounds line (count + 1) j := rfl

theorem stdoutText_rounds (line : Nat → Text) (count j : Nat) :
    stdoutText (rounds line count j) = (List.range' (count + 1) j).flatMap line := by
  rw [rounds]
  induction List.range' (count + 1) j with
  | nil => rfl
  | cons i is ih => simp [ih]

theorem makesRounds_pure {α : Type} (a : α) (line : Nat → Text) (count : Nat) :
    MakesRounds (pure a) line count 0 := ⟨0, Nat.le_refl 0, rfl, iff_of_true rfl rfl⟩

/-- A round, which may fail before its line is said. -/
theorem makesRounds_step {α β : Type} (line : Nat → Text) (r : Except PyError α)
    {f : α → Script β} {count n : Nat} (h : ∀ a, MakesRounds (f a) line (count + 1) n) :
    MakesRounds (Traced.lift r >>= fun a => say (line (count + 1)) >>= fun _ => f a) line count
      (n + 1) := by
  cases r with
  | error e => exact ⟨0, Nat.zero_le _, rfl, iff_of_false (by nofun) (by nofun)⟩
  | ok a =>
      obtain ⟨j, hj, hacts, hall⟩ := h a
      refine ⟨j + 1, Nat.succ_le_succ hj, ?_, ?_⟩
      · rw [rounds_succ, ← hacts]
        rfl
      · rw [Nat.add_right_cancel_iff, ← hall]
        rfl

theorem MakesRounds.acts_of_ok {α : Type} {x : Script α} {line : Nat → Text} {count n : Nat}
    (h : MakesRounds x line count n) {a : α} (hok : x.result = .ok a) :
    x.acts = rounds line count n := by
  obtain ⟨j, _, hacts, hall⟩ := h
  have hj : j = n := hall.mp (by rw [hok]; rfl)
  rw [hacts, hj]

theorem threadLoop_rounds (H : HashOrder) (size : Nat) : ∀ (doc : Document) (count : Nat)
    (chats : Dict Text (List Message)),
      MakesRounds (threadLoop H size doc count chats) (fun i => progressLine i size) count
        doc.length
  | [], count, _ => makesRounds_pure _ _ count
  | t :: doc, count, chats => by
      rw [threadLoop]
      refine makesRounds_step (fun i => progressLine i size) (messageLoop t [] []) fun p => ?_
      exact threadLoop_rounds H size doc (count + 1) (chats.set (chatKey H p.1) p.2)

theorem timelineLoop_rounds (size : Nat) : ∀ (ms : List Message) (date : DateTime)
    (wc count : Nat) (es : List Entry),
      MakesRounds (timelineLoop size date wc ms count es) (fun i => timelineLine i size) count
        ms.length
  | [], _, _, count, _ => makesRounds_pure _ _ count
  | m :: ms, date, wc, count, es => by
      rw [timelineLoop]
      refine makesRounds_step (fun i => timelineLine i size) (strptime m.date) fun temp => ?_
      split
      · exact timelineLoop_rounds size ms _ _ (count + 1) _
      · exact timelineLoop_rounds size ms _ _ (count + 1) _

theorem hourLoop_rounds (size : Nat) : ∀ (ms : List Message) (count : Nat) (d : Dict Nat Nat),
    MakesRounds (hourLoop size ms count d) (fun i => hourLine i size) count ms.length
  | [], count, _ => makesRounds_pure _ _ count
  | m :: ms, count, d => by
      rw [hourLoop]
      refine makesRounds_step (fun i => hourLine i size) (strptime m.date) fun date => ?_
      exact hourLoop_rounds size ms (count + 1) (countHour d date.hour)

/-! ## Runs that end normally write the text -/

theorem extract_stdout {H : HashOrder} {user : Text} {doc : Document} {fb : Fb}
    (h : (extract H user doc).result = .ok fb) :
    stdoutText (extract H user doc).acts =
      extractLines doc.length ++ "finished creating JSON chat structure\n".toList := by
  rw [extract] at h ⊢
  obtain ⟨chats, hloop, _, hacts⟩ := Traced.bind_eq_ok h
  rw [hacts, stdoutText_append, (threadLoop_rounds H _ doc 0 _).acts_of_ok hloop,
    stdoutText_rounds]
  rfl

theorem timeline_stdout {ms : List Message} (h : (timeline ms).result = .ok ()) :
    stdoutText (timeline ms).acts = "Starting analysis for time line plot...".toList ++
      timelineLines ms.length ++ "All messages have been analyzed.".toList ++
      "timeline".toList := by
  rw [timeline] at h ⊢
  obtain ⟨u, _, h1, hacts1⟩ := Traced.bind_eq_ok h
  obtain ⟨es, hes, _, hacts2⟩ := Traced.bind_eq_ok h1
  have hlines : stdoutText (timelineEntries ms).acts = timelineLines ms.length := by
    cases ms with
    | nil => rfl
    | cons m ms =>
        rw [timelineEntries] at hes ⊢
        obtain ⟨date, _, hrest, hacts⟩ := Traced.bind_eq_ok hes
        rw [hacts, stdoutText_append, (timelineLoop_rounds _ _ _ _ _ _).acts_of_ok hrest,
          stdoutText_rounds]
        rfl
  rw [hacts1, hacts2, stdoutText_append, stdoutText_append, stdoutText_say, hlines]
  simp only [List.append_assoc]
  rfl

theorem hour_histogram_stdout {ms : List Message} (h : (hour_histogram ms).result = .ok ()) :
    stdoutText (hour_histogram ms).acts = hourLines ms.length ++ "hour_histogram".toList := by
  rw [hour_histogram] at h ⊢
  obtain ⟨d, hd, _, hacts⟩ := Traced.bind_eq_ok h
  rw [hacts, stdoutText_append, (hourLoop_rounds _ _ _ _).acts_of_ok hd, stdoutText_rounds]
  rfl

/-- Without threads there is no chat to analyse. -/
theorem no_threads_no_chat (H : HashOrder) (user : Text) {fb : Fb} {ms : List Message}
    (hfb : (extract H user []).result = .ok fb) : firstChat H fb ≠ .ok ms := by
  rw [extract_result H user .nil, Except.ok.injEq] at hfb
  subst hfb
  have hempty : H.dict (Dict.empty : Dict Text (List Message)).keys = [] :=
    List.perm_nil.mp (H.dict_perm _)
  simp [firstChat, hempty]

/-- What `main` writes when it ends normally. -/
theorem main_stdout {H : HashOrder} {user filepath : Text} {doc : Except PyError Document}
    (h : (main H user filepath doc).result = .ok 0) :
    ∃ d fb ms, doc = .ok d ∧ (extract H user d).result = .ok fb ∧ firstChat H fb = .ok ms ∧
      stdoutText (main H user filepath doc).acts =
        stdoutText (extract H user d).acts ++ stdoutText (timeline ms).acts ++
          stdoutText (hour_histogram ms).acts ∧
      (timeline ms).result = .ok () ∧ (hour_histogram ms).result = .ok () := by
  by_cases hpath : isHtmlPath filepath = true
  · rw [main, if_pos hpath] at h ⊢
    obtain ⟨d, hd, h1, a1⟩ := Traced.bind_eq_ok h
    obtain ⟨fb, hfb, h2, a2⟩ := Traced.bind_eq_ok h1
    obtain ⟨ms, hms, h3, a3⟩ := Traced.bind_eq_ok h2
    obtain ⟨u, htl, h4, a4⟩ := Traced.bind_eq_ok h3
    obtain ⟨v, hhh, _, a5⟩ := Traced.bind_eq_ok h4
    refine ⟨d, fb, ms, hd, hfb, hms, ?_, htl, hhh⟩
    rw [a1, a2, a3, a4, a5]
    simp only [stdoutText_append, Traced.lift, Traced.acts_pure, List.nil_append, List.append_nil,
      List.append_assoc]
  · rw [main, if_neg hpath] at h
    cases h

/-- A run that ends normally writes the text above: over a document with at
least one thread, and over the messages of one of its chats. -/
theorem stdoutText_normal {H : HashOrder} {user filepath : Text} {doc : Except PyError Document}
    (h : (main H user filepath doc).result = .ok 0) :
    ∃ n l, 1 ≤ n ∧ stdoutText (analyse H user filepath doc).acts = normalStream n l := by
  obtain ⟨d, fb, ms, _, hfb, hms, hout, htl, hhh⟩ := main_stdout h
  have hne : d ≠ [] := by
    rintro rfl
    exact no_threads_no_chat H user hfb hms
  have hacts : stdoutText (analyse H user filepath doc).acts =
      "yes\n".toList ++ stdoutText (main H user filepath doc).acts := by
    simp [analyse, h]
  refine ⟨d.length, ms.length, List.length_pos_of_ne_nil hne, ?_⟩
  rw [hacts, hout, extract_stdout hfb, timeline_stdout htl, hour_histogram_stdout hhh]
  unfold normalStream normalBody
  -- what the words are does not matter, only how they are put together
  generalize "yes\n".toList = w1, "finished creating JSON chat structure\n".toList = w2,
    "Starting analysis for time line plot...".toList = w3,
    "All messages have been analyzed.".toList = w4, "timeline".toList = w5,
    "hour_histogram".toList = w6
  simp only [List.append_assoc]

/-! ## Where carriage returns and underscores stand -/

/-- What may stand before a character: a carriage return wants a digit or a
blank. -/
def CarriageStep (a b : Char) : Prop := b = '\r' → a.isDigit = true ∨ a = ' '

instance : DecidableRel CarriageStep := fun _ b => inferInstanceAs (Decidable (b = '\r' → _))

/-- Every carriage return of the text follows a digit or a blank. -/
def CarriageOk (t : Text) : Prop := t.head? ≠ some '\r' ∧ t.IsChain CarriageStep

instance (t : Text) : Decidable (CarriageOk t) := inferInstanceAs (Decidable (_ ∧ _))

theorem carriageOk_append {t u : Text} (ht : CarriageOk t) (hu : CarriageOk u) :
    CarriageOk (t ++ u) := by
  refine ⟨?_, List.isChain_append.mpr ⟨ht.2, hu.2, ?_⟩⟩
  · cases t with
    | nil => exact hu.1
    | cons c t => exact ht.1
  · intro _ _ b hb hcr
    subst hcr
    exact absurd hb hu.1

theorem carriageOk_flatMap {line : Nat → Text} (h : ∀ i, CarriageOk (line i)) (is : List Nat) :
    CarriageOk (is.flatMap line) := by
  induction is with
  | nil => exact ⟨by simp, .nil⟩
  | cons i is ih =>
      rw [List.flatMap_cons]
      exact carriageOk_append (h i) ih

/-- A text without carriage returns is in order. -/
theorem carriageOk_of_not_mem {t : Text} (h : '\r' ∉ t) : CarriageOk t := by
  refine ⟨fun hd => h (List.mem_of_head? hd), ?_⟩
  refine List.Pairwise.isChain (List.pairwise_of_forall_mem_list ?_)
  rintro a _ b hb rfl
  exact absurd hb h

theorem carriageOk_decimal (n : Nat) : CarriageOk (decimal n) :=
  carriageOk_of_not_mem (not_mem_of_digits (by decide) fun _ => isDigit_of_mem_decimal)

theorem carriageOk_progressLine (i n : Nat) : CarriageOk (progressLine i n) := by
  have hd := carriageOk_decimal (100 * i / n)
  refine ⟨?_, List.isChain_append.mpr ⟨hd.2, .singleton _, ?_⟩⟩
  · cases hc : decimal (100 * i / n) with
    | nil => exact absurd hc (decimal_ne_nil _)
    | cons c r =>
        rw [progressLine, hc]
        rw [hc] at hd
        exact hd.1
  · intro a ha b _ _
    exact Or.inl (isDigit_of_mem_decimal (List.mem_of_getLast? ha))

theorem carriageOk_timelineLine (i l : Nat) : CarriageOk (timelineLine i l) :=
  carriageOk_append (carriageOk_append (by decide) (carriageOk_decimal _)) (by decide)

theorem carriageOk_hourLine (i l : Nat) : CarriageOk (hourLine i l) :=
  carriageOk_append (carriageOk_append (by decide) (carriageOk_decimal _)) (by decide)

/-- In the output of a normal run carriage returns follow digits or blanks. -/
theorem carriageOk_normalStream (n l : Nat) : CarriageOk (normalStream n l) := by
  have hx := carriageOk_flatMap (fun i => carriageOk_progressLine i n) (List.range' 1 n)
  have ht := carriageOk_flatMap (fun i => carriageOk_timelineLine i l) (List.range' 1 (l - 1))
  have hh := carriageOk_flatMap (fun i => carriageOk_hourLine i l) (List.range' 2 l)
  have c1 := carriageOk_append (show CarriageOk "yes\n".toList by decide) hx
  have c2 := carriageOk_append c1
    (show CarriageOk "finished creating JSON chat structure\n".toList by decide)
  have c3 := carriageOk_append c2
    (show CarriageOk "Starting analysis for time line plot...".toList by decide)
  have c4 := carriageOk_append (carriageOk_append c3 ht)
    (show CarriageOk "All messages have been analyzed.".toList by decide)
  have c5 := carriageOk_append (carriageOk_append c4 (show CarriageOk "timeline".toList by decide)) hh
  exact carriageOk_append c5 (by decide)

theorem underscore_decimal (n : Nat) : '_' ∉ decimal n :=
  not_mem_of_digits (by decide) fun _ => isDigit_of_mem_decimal

theorem not_mem_lines {c : Char} {line : Nat → Text} (h : ∀ i, c ∉ line i) (is : List Nat) :
    c ∉ is.flatMap line := by
  rw [List.mem_flatMap]
  rintro ⟨i, _, hi⟩
  exact h i hi

theorem underscore_progressLine (i n : Nat) : '_' ∉ progressLine i n :=
  List.not_mem_append (underscore_decimal _) (by decide)

theorem underscore_timelineLine (i l : Nat) : '_' ∉ timelineLine i l :=
  List.not_mem_append (List.not_mem_append (by decide) (underscore_decimal _)) (by decide)

theorem underscore_hourLine (i l : Nat) : '_' ∉ hourLine i l :=
  List.not_mem_append (List.not_mem_append (by decide) (underscore_decimal _)) (by decide)

/-- The only underscore of a normal run is in its last word. -/
theorem underscore_normalBody (n l : Nat) : '_' ∉ normalBody n l := by
  have hx : '_' ∉ extractLines n := not_mem_lines (fun i => underscore_progressLine i n) _
  have ht : '_' ∉ timelineLines l := not_mem_lines (fun i => underscore_timelineLine i l) _
  have hh : '_' ∉ hourLines l := not_mem_lines (fun i => underscore_hourLine i l) _
  have w1 : '_' ∉ "yes\n".toList := by decide
  have w2 : '_' ∉ "finished creating JSON chat structure\n".toList := by decide
  have w3 : '_' ∉ "Starting analysis for time line plot...".toList := by decide
  have w4 : '_' ∉ "All messages have been analyzed.".toList := by decide
  have w5 : '_' ∉ "timeline".toList := by decide
  have c1 := List.not_mem_append (List.not_mem_append w1 hx) w2
  have c2 := List.not_mem_append (List.not_mem_append c1 w3) ht
  have c3 := List.not_mem_append (List.not_mem_append c2 w4) w5
  have c4 := List.not_mem_append c3 hh
  unfold normalBody
  exact c4

end Analyser
