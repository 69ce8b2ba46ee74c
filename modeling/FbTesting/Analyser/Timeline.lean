import Mathlib.Algebra.BigOperators.Group.List.Basic
import Mathlib.Algebra.GroupWithZero.Nat
import Mathlib.Data.List.SplitBy
import FbTesting.Analyser.Outcome

/-!
# What the time line counts

On messages with stored dates the nested loops of `timeline` go through the runs
of consecutive messages of one hour of the day (`groups`), and the simulation is
with the loop of `List.splitBy` (`timelineLoop_result`).  One entry is written for
each group but the last: the loops are left by the exception that the iterator
raises at the end of the messages, and the entry of the group in hand is appended
only when a message of another hour follows.

So the words of the last group are never counted, and every message has at least
one.  The hour is compared and the day is not, so a group can go on from one day
to another.
-/

namespace Analyser

open Base Python

/-! ## Messages with stored dates -/

/-- A message with the moment that its date stands for. -/
structure DatedMessage where
  user : Option PyString
  moment : DateTime
  text : Text

/-- The message as it is stored. -/
def DatedMessage.message (m : DatedMessage) : Message := ⟨m.user, m.moment.str, m.text⟩

/-- Its number of words. -/
def DatedMessage.words (m : DatedMessage) : Nat := wordCount m.text

/-- The words of some messages. -/
def totalWords (ms : List DatedMessage) : Nat := (ms.map DatedMessage.words).sum

/-- The calendar day of a message. -/
def DatedMessage.day (m : DatedMessage) : Nat × Nat × Nat :=
  (m.moment.year, m.moment.month, m.moment.day)

/-- What is written to a file, text by text. -/
def writtenTo (f : OutFile) (acts : List Act) : List Text :=
  acts.filterMap fun
    | .write g t => if g = f then some t else none
    | _ => none

theorem totalWords_append (ms ns : List DatedMessage) :
    totalWords (ms ++ ns) = totalWords ms + totalWords ns := by
  simp [totalWords]

/-- A text has a word, if only the empty one. -/
theorem one_le_words (m : DatedMessage) : 1 ≤ m.words := by
  unfold DatedMessage.words wordCount
  exact List.length_pos_iff.mpr (List.splitOn_ne_nil _ _)

theorem totalWords_pos {ms : List DatedMessage} (h : ms ≠ []) : 0 < totalWords ms := by
  cases ms with
  | nil => exact absurd rfl h
  | cons m ms =>
      have hm := one_le_words m
      simp only [totalWords, List.map_cons, List.sum_cons]
      omega

/-! ## Groups -/

/-- Two messages of one hour of the day. -/
def sameHour (a b : DatedMessage) : Bool := a.moment.hour == b.moment.hour

/-- The runs of messages of one hour. -/
def groups (ms : List DatedMessage) : List (List DatedMessage) := ms.splitBy sameHour

/-- The groups an entry is written for. -/
def countedGroups (ms : List DatedMessage) : List (List DatedMessage) := (groups ms).dropLast

/-- The entry of a group: the date of its first message, and the words of all. -/
def groupEntry : List DatedMessage → Option Entry
  | [] => none
  | m :: g => some ⟨m.moment, totalWords (m :: g)⟩

theorem groupEntry_concat {g : List DatedMessage} {date : DateTime} {wc : Nat}
    (h : groupEntry g = some ⟨date, wc⟩) (m : DatedMessage) :
    groupEntry (g ++ [m]) = some ⟨date, wc + m.words⟩ := by
  cases g with
  | nil => cases h
  | cons x g =>
      cases h
      rw [List.cons_append, groupEntry, ← List.cons_append, totalWords_append]
      rfl

/-! ## The loops compute the groups -/

/-- The loops, in step with those that split the messages: `a :: g` is the group
in hand, last message first, and `gs` the groups before. -/
theorem timelineLoop_result (size : Nat) (ms : List DatedMessage) :
    ∀ {a : DatedMessage} {g : List DatedMessage} {date : DateTime} {wc : Nat}
      (gs : List (List DatedMessage)) (count : Nat), a.moment.hour = date.hour →
      groupEntry (a :: g).reverse = some ⟨date, wc⟩ →
      (timelineLoop size date wc (ms.map DatedMessage.message) count
        (gs.reverse.filterMap groupEntry)).result =
          .ok ((List.splitBy.loop sameHour ms a g gs).dropLast.filterMap groupEntry) := by
  induction ms with
  | nil =>
      intro a g date wc gs count _ _
      change Except.ok _ = _
      rw [List.splitBy.loop, List.reverse_cons, List.dropLast_concat]
  | cons m ms ih =>
      intro a g date wc gs count hhour hentry
      rw [List.map_cons, timelineLoop, show m.message.date = m.moment.str from rfl, strptime_str,
        Traced.lift_ok_bind, List.splitBy.loop]
      change (if m.moment.hour = date.hour then _ else _ : Script (List Entry)).result = _
      split
      · rename_i hsame
        have hrun : sameHour a m = true := beq_iff_eq.mpr (hhour.trans hsame.symm)
        have hjoin : groupEntry (m :: a :: g).reverse = some ⟨date, wc + m.words⟩ := by
          rw [List.reverse_cons]
          exact groupEntry_concat hentry m
        rw [hrun]
        exact ih gs (count + 1) hsame hjoin
      · rename_i hother
        have hrun : sameHour a m = false :=
          beq_eq_false_iff_ne.mpr fun heq => hother (heq.symm.trans hhour)
        have hclose : gs.reverse.filterMap groupEntry ++ [⟨date, wc⟩] =
            ((a :: g).reverse :: gs).reverse.filterMap groupEntry := by
          rw [List.reverse_cons (a := (a :: g).reverse), List.filterMap_append,
            List.filterMap_cons_some hentry]
          rfl
        rw [hrun, hclose]
        exact ih ((a :: g).reverse :: gs) (count + 1) rfl rfl

/-- An entry is written for each group but the last. -/
theorem timelineEntries_result (ms : List DatedMessage) :
    (timelineEntries (ms.map DatedMessage.message)).result =
      .ok ((countedGroups ms).filterMap groupEntry) := by
  cases ms with
  | nil => rfl
  | cons m ms =>
      rw [List.map_cons, timelineEntries, show m.message.date = m.moment.str from rfl,
        strptime_str, Traced.lift_ok_bind]
      exact timelineLoop_result _ ms (a := m) (g := []) [] 0 rfl rfl

theorem writtenTo_append (f : OutFile) (as bs : List Act) :
    writtenTo f (as ++ bs) = writtenTo f as ++ writtenTo f bs := List.filterMap_append

theorem writtenTo_silent (f : OutFile) {as : List Act} (h : Silent as) : writtenTo f as = [] := by
  refine List.filterMap_eq_nil_iff.mpr fun a ha => ?_
  cases a with
  | write g t => cases h _ ha
  | _ => rfl

theorem writtenTo_dumpTo (f : OutFile) (v : Json) : writtenTo f (dumpTo f v).acts = [v.dump] := by
  change List.filterMap _ [Act.open f, .write f v.dump, .close f] = _
  simp

/-- `timeline` completes on messages with stored dates and writes the entries of
the counted groups. -/
theorem timeline_writes (ms : List DatedMessage) :
    (timeline (ms.map DatedMessage.message)).result = .ok () ∧
      writtenTo .timeline (timeline (ms.map DatedMessage.message)).acts =
        [(timelineJson ((countedGroups ms).filterMap groupEntry)).dump] := by
  let r : Results := ⟨.null, timelineJson ((countedGroups ms).filterMap groupEntry), .null⟩
  obtain ⟨hok, before, after, hbefore, hacts, hafter⟩ :=
    plan_timeline (r := r) (timelineEntries_result ms) rfl
  refine ⟨hok, ?_⟩
  rw [hacts, writtenTo_append, writtenTo_append, writtenTo_silent _ hbefore,
    writtenTo_silent _ hafter, writtenTo_dumpTo]
  rfl

/-! ## Words -/

theorem sum_wordcount (gs : List (List DatedMessage)) :
    ((gs.filterMap groupEntry).map Entry.wordcount).sum = totalWords gs.flatten := by
  induction gs with
  | nil => rfl
  | cons g gs ih =>
      rw [List.flatten_cons, totalWords_append, ← ih]
      cases g with
      | nil => exact (Nat.zero_add _).symm
      | cons m g => rfl

/-- The words of the last group are missing. -/
theorem totalWords_countedGroups_lt {ms : List DatedMessage} (h : ms ≠ []) :
    totalWords (countedGroups ms).flatten < totalWords ms := by
  have hne : groups ms ≠ [] := List.splitBy_ne_nil.mpr h
  have hlast : (groups ms).getLast hne ≠ [] := List.ne_nil_of_mem_splitBy (List.getLast_mem hne)
  have hall : totalWords ms =
      totalWords (countedGroups ms).flatten + totalWords ((groups ms).getLast hne) := by
    calc totalWords ms = totalWords (groups ms).flatten := by rw [groups, List.flatten_splitBy]
      _ = totalWords ((groups ms).dropLast ++ [(groups ms).getLast hne]).flatten := by
          rw [List.dropLast_append_getLast]
      _ = _ := by rw [List.flatten_append, totalWords_append, List.flatten_singleton]; rfl
  have hpos := totalWords_pos hlast
  omega

/-- The time line counts every word only when there is none to count: the words of
the last run of messages of one hour are left out. -/
theorem timeline_counts_all_iff (ms : List DatedMessage) :
    ∃ es, (timelineEntries (ms.map DatedMessage.message)).result = .ok es ∧
      (timeline (ms.map DatedMessage.message)).result = .ok () ∧
      writtenTo .timeline (timeline (ms.map DatedMessage.message)).acts =
        [(timelineJson es).dump] ∧
      ((es.map Entry.wordcount).sum =
        ((ms.map DatedMessage.message).map fun m => wordCount m.text).sum ↔ ms = []) := by
  obtain ⟨hok, hwritten⟩ := timeline_writes ms
  refine ⟨_, timelineEntries_result ms, hok, hwritten, ?_⟩
  have htotal : ((ms.map DatedMessage.message).map fun m => wordCount m.text).sum =
      totalWords ms := by
    rw [List.map_map]
    rfl
  rw [sum_wordcount, htotal]
  constructor
  · intro heq
    by_contra hne
    exact (totalWords_countedGroups_lt hne).ne heq
  · intro hnil
    rw [hnil]
    rfl

/-- A quarter past an hour, in January 2014. -/
def sampleMoment (day hour : Nat) (h : ValidFields 2014 1 day hour 15 0) : DateTime :=
  ⟨2014, 1, day, hour, 15, 0, h⟩

/-- A message of the sample conversation at a moment. -/
def sampleDated (text : String) (moment : DateTime) : DatedMessage :=
  ⟨some (.ofText "Friend1".toList), moment, text.toList⟩

/-- A conversation of one message. -/
def singleMessage : List DatedMessage :=
  [sampleDated "This is the first message" (sampleMoment 16 20 (by decide))]

/-- The words of a single message are not counted. -/
theorem timeline_loses_single_message :
    ¬∃ es, (timelineEntries (singleMessage.map DatedMessage.message)).result = .ok es ∧
      (es.map Entry.wordcount).sum =
        ((singleMessage.map DatedMessage.message).map fun m => wordCount m.text).sum := by
  rintro ⟨es, hes, hsum⟩
  rw [timelineEntries_result] at hes
  cases hes
  revert hsum
  decide

/-! ## Days -/

/-- The messages of a group are of the hour of its first. -/
theorem hour_of_mem_group {ms g : List DatedMessage} {a b : DatedMessage}
    (hg : a :: g ∈ groups ms) (hb : b ∈ g) : a.moment.hour = b.moment.hour := by
  have hchain : (a :: g).IsChain fun x y => x.moment.hour = y.moment.hour :=
    (List.isChain_of_mem_splitBy hg).imp fun x y h => beq_iff_eq.mp h
  have : IsTrans DatedMessage fun x y => x.moment.hour = y.moment.hour := ⟨fun _ _ _ => Eq.trans⟩
  exact (List.pairwise_cons.mp hchain.pairwise).1 b hb

/-- The first group begins with the first message, and it is the only one exactly
when all messages are of one hour. -/
theorem groups_cons (b : DatedMessage) (ms : List DatedMessage) :
    ∃ g gs, groups (b :: ms) = (b :: g) :: gs ∧
      (gs ≠ [] ↔ ∃ c ∈ ms, c.moment.hour ≠ b.moment.hour) := by
  have hflat : (groups (b :: ms)).flatten = b :: ms := List.flatten_splitBy _ _
  cases hgs : groups (b :: ms) with
  | nil => exact absurd hgs (List.splitBy_ne_nil.mpr (List.cons_ne_nil b ms))
  | cons g gs =>
      have hmem : g ∈ groups (b :: ms) := by rw [hgs]; exact List.mem_cons_self
      cases g with
      | nil => exact absurd rfl (List.ne_nil_of_mem_splitBy hmem)
      | cons x g =>
          rw [hgs, List.flatten_cons, List.cons_append] at hflat
          obtain ⟨rfl, hrest⟩ := List.cons.inj hflat
          refine ⟨g, gs, rfl, ?_⟩
          rw [← not_iff_not, not_not]
          push Not
          constructor
          · intro hnil c hc
            rw [hnil, List.flatten_nil, List.append_nil] at hrest
            rw [← hrest] at hc
            exact (hour_of_mem_group hmem hc).symm
          · intro hall
            have hx : ∀ c ∈ x :: ms, c.moment.hour = x.moment.hour :=
              List.forall_mem_cons.mpr ⟨rfl, hall⟩
            have hchain : (x :: ms).IsChain fun a b => sameHour a b = true :=
              (List.pairwise_of_forall_mem_list fun a ha b hb =>
                beq_iff_eq.mpr ((hx a ha).trans (hx b hb).symm)).isChain
            rw [groups, List.splitBy_of_isChain (List.cons_ne_nil x ms) hchain] at hgs
            exact (List.cons.inj hgs).2.symm

/-- The groups of a message and those that follow it. -/
theorem groups_cons_cons {a b : DatedMessage} {ms g : List DatedMessage}
    {gs : List (List DatedMessage)} (h : groups (b :: ms) = (b :: g) :: gs) :
    groups (a :: b :: ms) =
      if a.moment.hour = b.moment.hour then (a :: b :: g) :: gs else [a] :: (b :: g) :: gs := by
  split
  · rename_i hhour
    obtain ⟨hflat, hne, hchain, hends⟩ := List.splitBy_eq_iff.mp h
    have hrun : sameHour a b = true := beq_iff_eq.mpr hhour
    refine List.splitBy_eq_iff.mpr ⟨?_, ?_, ?_, ?_⟩
    · rw [hflat]
      rfl
    · intro hnil
      cases List.mem_cons.mp hnil with
      | inl heq => cases heq
      | inr hmem => exact hne (List.mem_cons_of_mem _ hmem)
    · intro m hm
      cases List.mem_cons.mp hm with
      | inl heq =>
          rw [heq]
          exact List.isChain_cons_cons.mpr ⟨hrun, hchain _ List.mem_cons_self⟩
      | inr hmem => exact hchain m (List.mem_cons_of_mem _ hmem)
    · rw [List.isChain_cons] at hends ⊢
      refine ⟨fun y hy => ?_, hends.2⟩
      obtain ⟨hlast, hhead, hr⟩ := hends.1 y hy
      refine ⟨List.cons_ne_nil _ _, hhead, ?_⟩
      rwa [List.getLast_cons hlast]
  · rename_i hhour
    have hrun : ∀ x ∈ [a].getLast?, sameHour x b = false := by
      intro x hx
      cases hx
      exact beq_eq_false_iff_ne.mpr hhour
    rw [← h]
    exact List.splitBy_append_cons ms hrun

/-- No two consecutive messages are of one hour on different days, unless all that
follow are of that hour too. -/
def DaysApart (ms : List DatedMessage) : Prop :=
  ∀ before a b after, ms = before ++ a :: b :: after → a.moment.hour = b.moment.hour →
    (∃ c ∈ after, c.moment.hour ≠ b.moment.hour) → a.day = b.day

theorem daysApart_cons_cons {a b : DatedMessage} {ms : List DatedMessage} :
    DaysApart (a :: b :: ms) ↔
      (a.moment.hour = b.moment.hour → (∃ c ∈ ms, c.moment.hour ≠ b.moment.hour) →
        a.day = b.day) ∧ DaysApart (b :: ms) := by
  constructor
  · intro h
    refine ⟨h [] a b ms rfl, fun before x y after heq => h (a :: before) x y after ?_⟩
    rw [heq]
    rfl
  · rintro ⟨hfirst, hrest⟩ before x y after heq
    cases before with
    | nil =>
        cases heq
        exact hfirst
    | cons z before => exact hrest before x y after (List.cons.inj heq).2

/-- A group of one day. -/
def OneDay (g : List DatedMessage) : Prop := g.IsChain fun a b => a.day = b.day

/-- The counted groups are of one day each exactly when the days are apart. -/
theorem oneDay_countedGroups_iff (ms : List DatedMessage) :
    (∀ g ∈ countedGroups ms, OneDay g) ↔ DaysApart ms := by
  induction ms with
  | nil =>
      refine iff_of_true (fun g hg => absurd hg List.not_mem_nil) ?_
      intro before a b after heq
      exact absurd heq.symm (List.append_ne_nil_of_right_ne_nil _ (List.cons_ne_nil _ _))
  | cons a ms ih =>
      cases ms with
      | nil =>
          refine iff_of_true (fun g hg => absurd hg List.not_mem_nil) ?_
          intro before x y after heq
          have hlen := congrArg List.length heq
          simp only [List.length_append, List.length_cons, List.length_nil] at hlen
          omega
      | cons b ms =>
          obtain ⟨g, gs, h, hlater⟩ := groups_cons b ms
          rw [daysApart_cons_cons, ← ih, countedGroups, countedGroups, groups_cons_cons h, h,
            ← hlater]
          split
          · rename_i hhour
            cases gs with
            | nil =>
                refine iff_of_true (fun g' hg => absurd hg List.not_mem_nil) ⟨?_, ?_⟩
                · intro _ hne
                  exact absurd rfl hne
                · intro g' hg
                  exact absurd hg List.not_mem_nil
            | cons g' gs =>
                rw [List.dropLast_cons_cons, List.dropLast_cons_cons, List.forall_mem_cons,
                  List.forall_mem_cons, OneDay, OneDay, List.isChain_cons_cons, and_assoc]
                refine and_congr_left fun _ => ⟨fun hday _ _ => hday, fun h => ?_⟩
                exact h hhour (List.cons_ne_nil _ _)
          · rename_i hhour
            rw [List.dropLast_cons_cons, List.forall_mem_cons]
            constructor
            · rintro ⟨_, hrest⟩
              exact ⟨fun heq => absurd heq hhour, hrest⟩
            · rintro ⟨_, hrest⟩
              exact ⟨List.isChain_singleton a, hrest⟩

/-- What an entry counts are messages of its day and hour. -/
def CountsOneHour (g : List DatedMessage) : Prop :=
  ∀ e ∈ groupEntry g, ∀ m ∈ g,
    (m.moment.year, m.moment.month, m.moment.day) = (e.date.year, e.date.month, e.date.day) ∧
      m.moment.hour = e.date.hour

theorem countsOneHour_iff {ms g : List DatedMessage} (hg : g ∈ groups ms) :
    CountsOneHour g ↔ OneDay g := by
  cases g with
  | nil => exact absurd rfl (List.ne_nil_of_mem_splitBy hg)
  | cons a g =>
      constructor
      · intro h
        have hday : ∀ m ∈ a :: g, m.day = a.day := fun m hm => (h _ rfl m hm).1
        exact (List.pairwise_of_forall_mem_list fun x hx y hy =>
          (hday x hx).trans (hday y hy).symm).isChain
      · intro h e he m hm
        cases he
        have : IsTrans DatedMessage fun x y => x.day = y.day := ⟨fun _ _ _ => Eq.trans⟩
        have hdays := (List.pairwise_cons.mp (List.IsChain.pairwise h)).1
        cases List.mem_cons.mp hm with
        | inl heq =>
            rw [heq]
            exact ⟨rfl, rfl⟩
        | inr hmem => exact ⟨(hdays m hmem).symm, (hour_of_mem_group hg hmem).symm⟩

/-- The entries written are those of the counted groups, and each counts messages
of its own day and hour exactly when no two consecutive messages are of one hour
on different days, up to the last change of hour. -/
theorem timeline_one_day_iff (ms : List DatedMessage) :
    (timeline (ms.map DatedMessage.message)).result = .ok () ∧
      writtenTo .timeline (timeline (ms.map DatedMessage.message)).acts =
        [(timelineJson ((countedGroups ms).filterMap groupEntry)).dump] ∧
      ((∀ g ∈ countedGroups ms, CountsOneHour g) ↔ DaysApart ms) := by
  obtain ⟨hok, hwritten⟩ := timeline_writes ms
  refine ⟨hok, hwritten, ?_⟩
  rw [← oneDay_countedGroups_iff]
  refine forall₂_congr fun g hg => ?_
  exact countsOneHour_iff (List.mem_of_mem_dropLast hg)

/-- Two evenings with nothing in between, and a message in the night. -/
def twoEvenings : List DatedMessage :=
  [sampleDated "good evening" (sampleMoment 16 20 (by decide)),
    sampleDated "hello again" (sampleMoment 17 20 (by decide)),
    sampleDated "good night" (sampleMoment 17 23 (by decide))]

/-- The evenings of two days are counted as one: the entry of the first has more
words than the messages of its day and hour. -/
theorem timeline_mixes_two_evenings :
    ∃ e, (timelineEntries (twoEvenings.map DatedMessage.message)).result = .ok [e] ∧
      totalWords (twoEvenings.filter fun m =>
        (m.moment.year, m.moment.month, m.moment.day) = (e.date.year, e.date.month, e.date.day) ∧
          m.moment.hour = e.date.hour) < e.wordcount ∧
      ¬∀ g ∈ countedGroups twoEvenings, CountsOneHour g := by
  refine ⟨⟨sampleMoment 16 20 (by decide), 4⟩, timelineEntries_result twoEvenings, by decide, ?_⟩
  intro h
  have hg := h _ List.mem_cons_self _ rfl _ (List.mem_cons_of_mem _ List.mem_cons_self)
  revert hg
  decide

end Analyser
