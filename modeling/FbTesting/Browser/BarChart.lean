import FbTesting.Analyser.Runs

/-!
# The bar chart

`bar_init` draws one bar for each datum that enters.  It joins the entries of the
time line by their date with the bars of a fresh chart, of which there are none, and
a datum enters if no datum before it had its key.  So an entry is dropped exactly
when its date has occurred.

The dates that are stored for a thread in chronological order are not in order
themselves, because of the hour twelve.  But messages of one minute stand together,
different minutes are stored differently, and a run does not end within a minute.
-/

namespace Browser

open Base Python Analyser

/-! ## The keyed join -/

section

variable {α : Type} (key : α → Text)

/-- The loop of the join over the data, with the keys that have occurred. -/
def enterFrom : List Text → List α → List α
  | _, [] => []
  | seen, d :: data =>
      if seen.contains (key d) then enterFrom seen data else d :: enterFrom (key d :: seen) data

/-- What enters when data is joined with an empty selection. -/
def enter (data : List α) : List α := enterFrom key [] data

variable {key}

theorem enterFrom_eq_self {data : List α} (h : (data.map key).Nodup) :
    ∀ seen : List Text, (∀ d ∈ data, key d ∉ seen) → enterFrom key seen data = data := by
  induction data with
  | nil => exact fun _ _ => rfl
  | cons d data ih =>
      intro seen hseen
      obtain ⟨hnew, hrest⟩ := List.nodup_cons.mp h
      have hd : ¬seen.contains (key d) = true :=
        mt List.contains_iff_mem.mp (hseen d List.mem_cons_self)
      rw [enterFrom, if_neg hd, ih hrest]
      intro x hx hmem
      cases List.mem_cons.mp hmem with
      | inl heq => exact hnew (heq ▸ List.mem_map_of_mem hx)
      | inr hold => exact hseen x (List.mem_cons_of_mem d hx) hold

/-- Data with different keys enters as a whole. -/
theorem enter_eq_self {data : List α} (h : (data.map key).Nodup) : enter key data = data :=
  enterFrom_eq_self h [] fun _ _ => List.not_mem_nil

end

/-! ## The bars of a thread -/

/-- The function `key` of `bar_init`. -/
def barKey (d : Entry) : Text := d.date.str

/-- The entries that `bar_init` draws a bar for. -/
def bar_init (dataset : List Entry) : List Entry := enter barKey dataset

/-- For a thread in chronological order the dates of the time line are different, and
every entry has its bar. -/
theorem bar_for_every_entry {t : SourceThread} (h : Chronological t) :
    ∃ users messages es, messageLoop (t.map SourceMessage.raw) [] [] = .ok (users, messages) ∧
      (timeline messages).result = .ok () ∧
      writtenTo .timeline (timeline messages).acts = [(timelineJson es).dump] ∧
      (es.map fun e => e.date.str).Nodup ∧ bar_init es = es := by
  obtain ⟨hok, hwritten⟩ := timeline_writes ((posted t).map Posted.dated)
  rw [← records_eq] at hok hwritten
  have hdates := nodup_entry_dates (momentsTogether_posted h)
  exact ⟨_, _, _, messageLoop_source t [] [], hok, hwritten, hdates, enter_eq_self hdates⟩

/-- Half past midnight and one in the morning, in this order. -/
def nightThread : SourceThread :=
  [⟨some (.ofText "Friend1".toList), halfPastMidnight, some "still up".toList⟩,
    ⟨some (.ofText "User".toList), oneInTheMorning, some "good night".toList⟩]

theorem chronological_nightThread : Chronological nightThread := by
  have hzone : ∀ m ∈ nightThread, m.stamp.tz = "EST".toList :=
    List.forall_mem_cons.mpr ⟨rfl, List.forall_mem_cons.mpr ⟨rfl, fun _ hm => absurd hm
      List.not_mem_nil⟩⟩
  have horder : ¬oneInTheMorning.denoted.Before halfPastMidnight.denoted := by decide
  refine ⟨⟨_, hzone⟩, Or.inl (List.pairwise_cons.mpr ⟨?_, List.pairwise_singleton _ _⟩)⟩
  intro m hm
  rw [List.mem_singleton.mp hm]
  exact horder

theorem bar_for_every_entry_night : Chronological nightThread ∧
    ∃ users messages es,
      messageLoop (nightThread.map SourceMessage.raw) [] [] = .ok (users, messages) ∧
        (timeline messages).result = .ok () ∧
        writtenTo .timeline (timeline messages).acts = [(timelineJson es).dump] ∧
        (es.map fun e => e.date.str).Nodup ∧ bar_init es = es :=
  ⟨chronological_nightThread, bar_for_every_entry chronological_nightThread⟩

end Browser
