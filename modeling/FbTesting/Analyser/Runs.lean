import FbTesting.Analyser.Clock
import FbTesting.Analyser.Timeline

/-!
# Closed runs

What `timeline` writes, said without its loops: the messages fall into maximal runs
of consecutive messages of one hour (`MaximalRuns`), in one way only, and every run
but the last has an entry.  Messages that are added at the end lengthen the last run
or begin new ones, so that the entries of a list stay when the list grows
(`countedGroups_append`).

When messages of one moment stand together, no two entries have the same date
(`nodup_entry_dates`): between the first messages of two runs there is a message of
another hour.
-/

namespace Analyser

open Base Python

/-! ## Maximal runs -/

/-- The maximal runs of consecutive messages of one hour of the day. -/
structure MaximalRuns (ms : List DatedMessage) (runs : List (List DatedMessage)) : Prop where
  whole : runs.flatten = ms
  nonempty : ∀ r ∈ runs, r ≠ []
  one_hour : ∀ r ∈ runs, ∀ a ∈ r, ∀ b ∈ r, a.moment.hour = b.moment.hour
  maximal : runs.IsChain fun r s => ∀ a ∈ r, ∀ b ∈ s, a.moment.hour ≠ b.moment.hour

theorem one_hour_of_mem_groups {ms g : List DatedMessage} (hg : g ∈ groups ms) :
    ∀ a ∈ g, ∀ b ∈ g, a.moment.hour = b.moment.hour := by
  cases g with
  | nil => exact fun a ha => absurd ha List.not_mem_nil
  | cons x g =>
      have hfirst : ∀ a ∈ x :: g, x.moment.hour = a.moment.hour :=
        List.forall_mem_cons.mpr ⟨rfl, fun _ ha => hour_of_mem_group hg ha⟩
      intro a ha b hb
      exact (hfirst a ha).symm.trans (hfirst b hb)

theorem maximalRuns_groups (ms : List DatedMessage) : MaximalRuns ms (groups ms) where
  whole := List.flatten_splitBy _ _
  nonempty _ hr := List.ne_nil_of_mem_splitBy hr
  one_hour _ hr := one_hour_of_mem_groups hr
  maximal := by
    refine (List.isChain_getLast_head_splitBy sameHour ms).imp_of_mem_imp ?_
    rintro r s hr hs ⟨hlast, hhead, hother⟩ a ha b hb heq
    have hra := one_hour_of_mem_groups hr _ (List.getLast_mem hlast) a ha
    have hsb := one_hour_of_mem_groups hs b hb _ (List.head_mem hhead)
    exact beq_eq_false_iff_ne.mp hother (hra.trans (heq.trans hsb))

/-- There is one way to split messages into maximal runs. -/
theorem maximalRuns_iff {ms : List DatedMessage} {runs : List (List DatedMessage)} :
    MaximalRuns ms runs ↔ runs = groups ms := by
  constructor
  · intro h
    refine (List.splitBy_eq_iff.mpr ⟨h.whole.symm, fun hnil => h.nonempty _ hnil rfl, ?_, ?_⟩).symm
    · intro r hr
      refine (List.pairwise_of_forall_mem_list fun a ha b hb => ?_).isChain
      exact beq_iff_eq.mpr (h.one_hour r hr a ha b hb)
    · refine h.maximal.imp_of_mem_imp fun r s hr hs hne => ?_
      refine ⟨h.nonempty r hr, h.nonempty s hs, beq_eq_false_iff_ne.mpr ?_⟩
      exact hne _ (List.getLast_mem _) _ (List.head_mem _)
  · rintro rfl
    exact maximalRuns_groups ms

/-! ## Lists that grow -/

/-- The runs that are closed stay when messages are added. -/
theorem countedGroups_append (ms ns : List DatedMessage) :
    countedGroups ms <+: countedGroups (ms ++ ns) := by
  induction ms with
  | nil => exact List.nil_prefix
  | cons a ms ih =>
      cases ms with
      | nil => exact List.nil_prefix
      | cons b ms =>
          obtain ⟨g, gs, h, _⟩ := groups_cons b ms
          obtain ⟨g', gs', h', _⟩ := groups_cons b (ms ++ ns)
          rw [countedGroups, countedGroups, List.cons_append, h, h'] at ih
          rw [countedGroups, countedGroups, List.cons_append, List.cons_append, groups_cons_cons h,
            groups_cons_cons h']
          split
          · cases gs with
            | nil => exact List.nil_prefix
            | cons r gs =>
                rw [List.dropLast_cons_cons] at ih ⊢
                cases gs' with
                | nil => exact absurd (List.prefix_nil.mp ih) (List.cons_ne_nil _ _)
                | cons r' gs' =>
                    rw [List.dropLast_cons_cons] at ih ⊢
                    obtain ⟨heq, hrest⟩ := List.cons_prefix_cons.mp ih
                    rw [(List.cons.inj heq).2]
                    exact List.cons_prefix_cons.mpr ⟨rfl, hrest⟩
          · rw [List.dropLast_cons_cons, List.dropLast_cons_cons]
            exact List.cons_prefix_cons.mpr ⟨rfl, ih⟩

/-! ## The entries -/

/-- Every group has its entry. -/
theorem map_groupEntry {ms : List DatedMessage} {gs : List (List DatedMessage)}
    (h : ∀ g ∈ gs, g ∈ groups ms) :
    gs.map groupEntry = (gs.filterMap groupEntry).map some := by
  induction gs with
  | nil => rfl
  | cons g gs ih =>
      have hne := List.ne_nil_of_mem_splitBy (h g List.mem_cons_self)
      have hrest := ih fun x hx => h x (List.mem_cons_of_mem g hx)
      cases g with
      | nil => exact absurd rfl hne
      | cons m g =>
          have hentry : groupEntry (m :: g) = some ⟨m.moment, totalWords (m :: g)⟩ := rfl
          rw [List.map_cons, List.filterMap_cons_some hentry, List.map_cons, hrest, hentry]

/-- `timeline` completes.  It writes one entry for each maximal run of messages of
one hour but the last, in order, and these entries are the first ones that it writes
for any longer list. -/
theorem timeline_closed_runs (ms : List DatedMessage) :
    ∃ runs es, (∀ rs, MaximalRuns ms rs ↔ rs = runs) ∧
      runs.dropLast.map groupEntry = es.map some ∧
      (timeline (ms.map DatedMessage.message)).result = .ok () ∧
      writtenTo .timeline (timeline (ms.map DatedMessage.message)).acts =
        [(timelineJson es).dump] ∧
      ∀ ns, ∃ fs, writtenTo .timeline (timeline ((ms ++ ns).map DatedMessage.message)).acts =
        [(timelineJson fs).dump] ∧ es <+: fs := by
  obtain ⟨hok, hwritten⟩ := timeline_writes ms
  refine ⟨groups ms, _, fun rs => maximalRuns_iff, ?_, hok, hwritten, fun ns => ?_⟩
  · exact map_groupEntry fun g hg => List.mem_of_mem_dropLast hg
  · exact ⟨_, (timeline_writes (ms ++ ns)).2, (countedGroups_append ms ns).filterMap groupEntry⟩

/-! ## Dates of entries -/

/-- Messages of one moment stand together. -/
def MomentsTogether (ms : List DatedMessage) : Prop :=
  ∀ a c b, List.Sublist [a, c, b] ms → a.moment = b.moment → c.moment = a.moment

/-- The first messages of two runs are of different moments: the message after the
first run is of another hour. -/
theorem pairwise_first_moments {runs : List (List DatedMessage)}
    (hne : ∀ r ∈ runs, r ≠ [])
    (hmax : runs.IsChain fun r s => ∀ a ∈ r, ∀ b ∈ s, a.moment.hour ≠ b.moment.hour)
    (h : MomentsTogether runs.flatten) :
    runs.Pairwise fun r s => ∀ a ∈ r.head?, ∀ b ∈ s.head?, a.moment ≠ b.moment := by
  induction runs with
  | nil => exact List.Pairwise.nil
  | cons r runs ih =>
      have hrest : MomentsTogether runs.flatten := fun a c b hsub =>
        h a c b (hsub.trans (List.sublist_append_right r _))
      refine List.pairwise_cons.mpr ⟨?_, ih (fun s hs => hne s (List.mem_cons_of_mem r hs))
        hmax.of_cons hrest⟩
      cases runs with
      | nil => exact fun s hs => absurd hs List.not_mem_nil
      | cons s runs =>
          have hnext := (List.isChain_cons_cons.mp hmax).1
          intro t ht a ha b hb heq
          have har := List.mem_of_mem_head? ha
          have hbt := List.mem_of_mem_head? hb
          cases List.mem_cons.mp ht with
          | inl hs => exact hnext a har b (hs ▸ hbt) (congrArg DateTime.hour heq)
          | inr hlater =>
              obtain ⟨c, hc⟩ := List.exists_mem_of_ne_nil s (hne s (by simp))
              have hsub : List.Sublist [a, c, b] (r :: s :: runs).flatten := by
                rw [List.flatten_cons, List.flatten_cons]
                refine (List.singleton_sublist.mpr har).append ?_
                refine (List.singleton_sublist.mpr hc).append (List.singleton_sublist.mpr ?_)
                exact List.mem_flatten.mpr ⟨t, hlater, hbt⟩
              have hmoment := h a c b hsub heq
              exact hnext a har c hc (congrArg DateTime.hour hmoment.symm)

/-- The entries of messages of which those of one moment stand together have
different dates. -/
theorem nodup_entry_dates {ms : List DatedMessage} (h : MomentsTogether ms) :
    (((countedGroups ms).filterMap groupEntry).map fun e => e.date.str).Nodup := by
  have hruns := maximalRuns_groups ms
  have hpair := pairwise_first_moments hruns.nonempty hruns.maximal (hruns.whole.symm ▸ h)
  rw [List.nodup_iff_pairwise_ne, List.pairwise_map, List.pairwise_filterMap]
  refine (hpair.sublist (List.dropLast_sublist _)).imp ?_
  intro r s hfirst e he f hf heq
  cases r with
  | nil => cases he
  | cons a r =>
      cases s with
      | nil => cases hf
      | cons b s =>
          cases he
          cases hf
          exact hfirst a rfl b rfl (str_injective heq)

/-! ## Threads in chronological order -/

/-- The messages of a thread are of one time zone and in the order of the moments
they denote, oldest first or newest first. -/
def Chronological (t : SourceThread) : Prop :=
  (∃ tz, ∀ m ∈ t, m.stamp.tz = tz) ∧
    ((t.Pairwise fun a b => ¬b.stamp.denoted.Before a.stamp.denoted) ∨
      t.Pairwise fun a b => ¬a.stamp.denoted.Before b.stamp.denoted)

/-- A message of a thread that has a text. -/
structure Posted where
  sender : Option PyString
  stamp : Timestamp
  text : Text

/-- The messages of a thread that have a text. -/
def posted (t : SourceThread) : List Posted :=
  t.filterMap fun m => m.text.map fun x => ⟨m.sender, m.stamp, x⟩

/-- The message as it is stored, with the moment of its date. -/
def Posted.dated (p : Posted) : DatedMessage := ⟨p.sender, p.stamp.stored, p.text⟩

theorem records_eq (t : SourceThread) :
    records t = ((posted t).map Posted.dated).map DatedMessage.message := by
  rw [records, posted, List.map_map, List.map_filterMap]
  refine List.filterMap_congr fun m _ => ?_
  rw [SourceMessage.record, Option.map_map]
  rfl

theorem pairwise_posted {R : Timestamp → Timestamp → Prop} {t : SourceThread}
    (h : t.Pairwise fun a b => R a.stamp b.stamp) :
    (posted t).Pairwise fun a b => R a.stamp b.stamp := by
  rw [posted, List.pairwise_filterMap]
  refine h.imp ?_
  intro a b hR p hp q hq
  obtain ⟨x, _, rfl⟩ := Option.map_eq_some_iff.mp hp
  obtain ⟨y, _, rfl⟩ := Option.map_eq_some_iff.mp hq
  exact hR

/-- In a thread in chronological order the messages that are stored with one date
stand together.  The dates themselves need not be in order. -/
theorem momentsTogether_posted {t : SourceThread} (h : Chronological t) :
    MomentsTogether ((posted t).map Posted.dated) := by
  intro a c b hsub hab
  obtain ⟨l, hl, hall⟩ := List.sublist_map_iff.mp hsub
  obtain ⟨p, l₁, rfl, rfl, htwo⟩ := List.map_eq_cons_iff.mp hall.symm
  obtain ⟨q, l₂, rfl, rfl, hone⟩ := List.map_eq_cons_iff.mp htwo
  obtain ⟨r, l₃, rfl, rfl, _⟩ := List.map_eq_cons_iff.mp hone
  have hends := Timestamp.stored_eq_iff.mp hab
  refine Timestamp.stored_eq_iff.mpr ?_
  cases h.2 with
  | inl hold =>
      have hpair := (pairwise_posted (R := fun a b => ¬b.denoted.Before a.denoted) hold).sublist hl
      simp only [List.pairwise_cons, List.mem_cons, forall_eq_or_imp] at hpair
      refine DateTime.eq_of_not_before hpair.1.1 ?_
      rw [hends]
      exact hpair.2.1.1
  | inr hnew =>
      have hpair := (pairwise_posted (R := fun a b => ¬a.denoted.Before b.denoted) hnew).sublist hl
      simp only [List.pairwise_cons, List.mem_cons, forall_eq_or_imp] at hpair
      refine DateTime.eq_of_not_before ?_ hpair.1.1
      rw [hends]
      exact hpair.2.1.1

end Analyser
