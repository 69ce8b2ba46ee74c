import FbTesting.Analyser.Stream

/-!
# What a run writes to files

A run that gets as far as its first file has stored only dates that `datetime`
printed, and those are read back (`strptime_str`).  So nothing after the first
file can fail, except that a document without threads has no first chat.  With
this exception a run writes all three files, one after the other and each as a
whole, or none (`analyse_acts`).  `results` is what the three files are to hold.
-/

namespace Analyser

open Base Python

/-! ## Results -/

/-- What the three files hold. -/
structure Results where
  messages : Json
  timeline : Json
  hourHistogram : Json

/-- The value for a file. -/
def Results.json (r : Results) : OutFile → Json
  | .messages => r.messages
  | .timeline => r.timeline
  | .hourHistogram => r.hourHistogram

/-- The text of a file. -/
def Results.text (r : Results) (f : OutFile) : Text := (r.json f).dump

/-- The document, if the file has the right name and is read. -/
def accepted (filepath : Text) (doc : Except PyError Document) : Option Document :=
  if isHtmlPath filepath then doc.toOption else none

/-- The results of the analysis of a document, if it has any. -/
def results (H : HashOrder) (user filepath : Text) (doc : Except PyError Document) :
    Option Results := do
  let doc ← accepted filepath doc
  let fb ← (extract H user doc).result.toOption
  let messages ← (firstChat H fb).toOption
  let date_dict ← (timelineEntries messages).result.toOption
  let hour_dict ← (hourLoop messages.length messages 1 .empty).result.toOption
  some ⟨fb.json H, timelineJson date_dict, hourJson (hourArr hour_dict)⟩

/-! ## Dates that were stored are read back -/

/-- The date of a message is one that was printed. -/
def Dated (m : Message) : Prop := ∃ d : DateTime, m.date = d.str

theorem Dated.strptime {m : Message} (h : Dated m) : ∃ d, strptime m.date = .ok d := by
  obtain ⟨d, hd⟩ := h
  exact ⟨d, by rw [hd, strptime_str]⟩

/-- The message loop stores printed dates. -/
theorem messageLoop_dated (t : Thread) {ids : List (Option PyString)} {ms : List Message}
    (h : messageLoop t [] [] = .ok (ids, ms)) : ∀ m ∈ ms, Dated m := by
  refine messageLoop_invariant (I := fun _ ms => ∀ m ∈ ms, Dated m) ?_ t h
    fun _ hm => absurd hm List.not_mem_nil
  intro ids ms user date text hms m hm
  cases List.mem_append.mp hm with
  | inl hold => exact hms m hold
  | inr hnew =>
      rw [List.mem_singleton.mp hnew]
      exact ⟨date, rfl⟩

/-- The thread loop ends only if the message loop ended on every thread. -/
theorem threadLoop_kept (H : HashOrder) (size : Nat) : ∀ (doc : Document) (count : Nat)
    {chats chats' : Dict Text (List Message)}, (threadLoop H size doc count chats).result = .ok chats' →
      ∃ ks : List Kept,
        List.Forall₂ (fun t k => messageLoop t [] [] = .ok (k.users, k.messages)) doc ks
  | [], _, _, _, _ => ⟨[], .nil⟩
  | t :: doc, count, chats, chats', h => by
      rw [threadLoop] at h
      obtain ⟨p, hp, hres, _⟩ := Traced.bind_eq_ok h
      obtain ⟨_, _, hrest, _⟩ := Traced.bind_eq_ok hres
      obtain ⟨ks, hks⟩ := threadLoop_kept H size doc (count + 1) hrest
      exact ⟨⟨p.1, p.2⟩ :: ks, .cons hp hks⟩

/-- Extraction ends only with what the threads are stored as. -/
theorem extract_kept {H : HashOrder} {user : Text} {doc : Document} {fb : Fb}
    (h : (extract H user doc).result = .ok fb) :
    ∃ ks : List Kept,
      List.Forall₂ (fun t k => messageLoop t [] [] = .ok (k.users, k.messages)) doc ks ∧
        fb = ⟨user, Dict.empty.assignAll (ks.map (Kept.entry H))⟩ := by
  have hloop := h
  rw [extract] at hloop
  obtain ⟨chats, hchats, _, _⟩ := Traced.bind_eq_ok hloop
  obtain ⟨ks, hks⟩ := threadLoop_kept H _ doc 0 hchats
  rw [extract_result H user hks, Except.ok.injEq] at h
  exact ⟨ks, hks, h.symm⟩

theorem timelineLoop_ok (size : Nat) : ∀ {ms : List Message}, (∀ m ∈ ms, Dated m) →
    ∀ (date : DateTime) (wc count : Nat) (es : List Entry),
      ∃ es', (timelineLoop size date wc ms count es).result = .ok es'
  | [], _, _, _, _, es => ⟨es, rfl⟩
  | m :: ms, h, date, wc, count, es => by
      obtain ⟨d, hd⟩ := (h m List.mem_cons_self).strptime
      have hms : ∀ m ∈ ms, Dated m := fun x hx => h x (List.mem_cons_of_mem m hx)
      rw [timelineLoop, hd, Traced.lift_ok_bind]
      change ∃ es', (if d.hour = date.hour then _ else _ : Script (List Entry)).result = .ok es'
      split
      · exact timelineLoop_ok size hms _ _ _ _
      · exact timelineLoop_ok size hms _ _ _ _

theorem timelineEntries_ok {ms : List Message} (h : ∀ m ∈ ms, Dated m) :
    ∃ es, (timelineEntries ms).result = .ok es := by
  cases ms with
  | nil => exact ⟨[], rfl⟩
  | cons m ms =>
      obtain ⟨d, hd⟩ := (h m List.mem_cons_self).strptime
      rw [timelineEntries, hd, Traced.lift_ok_bind]
      exact timelineLoop_ok _ (fun x hx => h x (List.mem_cons_of_mem m hx)) _ _ _ _

theorem hourLoop_ok (size : Nat) : ∀ {ms : List Message}, (∀ m ∈ ms, Dated m) →
    ∀ (count : Nat) (d : Dict Nat Nat), ∃ d', (hourLoop size ms count d).result = .ok d'
  | [], _, _, d => ⟨d, rfl⟩
  | m :: ms, h, count, d => by
      obtain ⟨date, hd⟩ := (h m List.mem_cons_self).strptime
      rw [hourLoop, hd, Traced.lift_ok_bind]
      exact hourLoop_ok size (fun x hx => h x (List.mem_cons_of_mem m hx)) _ _

/-- What threads are stored as has printed dates. -/
theorem kept_dated {doc : Document} {ks : List Kept}
    (h : List.Forall₂ (fun t k => messageLoop t [] [] = .ok (k.users, k.messages)) doc ks) :
    ∀ k ∈ ks, ∀ m ∈ k.messages, Dated m := by
  intro k hk
  obtain ⟨t, _, ht⟩ := thread_of_kept h hk
  exact messageLoop_dated t ht

/-- Every chat that was assigned has printed dates. -/
theorem listAt_dated {H : HashOrder} {ks : List Kept}
    (h : ∀ k ∈ ks, ∀ m ∈ k.messages, Dated m) (key : Text) :
    ∀ m ∈ (Dict.empty.assignAll (ks.map (Kept.entry H))).listAt key, Dated m := by
  intro m hm
  rw [Dict.listAt] at hm
  cases hget : (Dict.empty.assignAll (ks.map (Kept.entry H))).get? key with
  | none =>
      rw [hget] at hm
      cases hm
  | some v =>
      rw [hget] at hm
      obtain ⟨k, hk, hentry⟩ := List.mem_map.mp (Dict.mem_of_get?_assignAll _ hget)
      cases hentry
      exact h k hk m hm

/-- The first chat of a document with threads is there, and its dates are
printed ones. -/
theorem firstChat_dated {H : HashOrder} {user : Text} {doc : Document} {fb : Fb}
    (hfb : (extract H user doc).result = .ok fb) (hne : doc ≠ []) :
    ∃ ms, firstChat H fb = .ok ms ∧ ∀ m ∈ ms, Dated m := by
  obtain ⟨ks, hks, rfl⟩ := extract_kept hfb
  rw [firstChat]
  cases hkeys : H.dict (Dict.empty.assignAll (ks.map (Kept.entry H))).keys with
  | cons k _ => exact ⟨_, rfl, listAt_dated (kept_dated hks) k⟩
  | nil =>
      exfalso
      cases ks with
      | nil =>
          cases hks
          exact hne rfl
      | cons kept ks =>
          have hfirst : Kept.entry H kept ∈ (kept :: ks).map (Kept.entry H) := List.mem_cons_self
          have hmem := Dict.mem_keys_iff.mpr (Dict.get?_assignAll_isSome _ hfirst)
          rw [← (H.dict_perm _).mem_iff, hkeys] at hmem
          cases hmem

/-! ## All files or none -/

/-- An act on a file. -/
def Act.onFile : Act → Bool
  | .open _ => true
  | .write _ _ => true
  | .close _ => true
  | _ => false

/-- Acts of which none is on a file. -/
def Silent (as : List Act) : Prop := ∀ a ∈ as, a.onFile = false

instance (as : List Act) : Decidable (Silent as) := inferInstanceAs (Decidable (∀ a ∈ as, _))

theorem Silent.append {as bs : List Act} (ha : Silent as) (hb : Silent bs) : Silent (as ++ bs) := by
  intro a h
  cases List.mem_append.mp h with
  | inl hmem => exact ha a hmem
  | inr hmem => exact hb a hmem

theorem silent_say (t : Text) : Silent (say t).acts := by
  intro a h
  rw [acts_say] at h
  cases List.mem_cons.mp h with
  | inl heq => rw [heq]; rfl
  | inr hmem => rw [List.mem_singleton.mp hmem]; rfl

theorem silent_rounds (line : Nat → Text) (count j : Nat) : Silent (rounds line count j) := by
  intro a h
  obtain ⟨i, _, hmem⟩ := List.mem_flatMap.mp h
  exact silent_say (line i) a hmem

theorem silent_threadLoop (H : HashOrder) (size : Nat) (doc : Document) (count : Nat)
    (chats : Dict Text (List Message)) : Silent (threadLoop H size doc count chats).acts := by
  obtain ⟨j, _, hacts, _⟩ := threadLoop_rounds H size doc count chats
  rw [hacts]
  exact silent_rounds _ count j

/-- The acts write the given files one after the other, each as a whole. -/
def Plan (r : Results) : List OutFile → List Act → Prop
  | [], as => Silent as
  | f :: fs, as => ∃ before after, Silent before ∧
      as = before ++ ((dumpTo f (r.json f)).acts ++ after) ∧ Plan r fs after

/-- The files of a run, in the order in which they are written. -/
def outFiles : List OutFile := [.messages, .timeline, .hourHistogram]

theorem Plan.append_silent {r : Results} {bs : List Act} (hb : Silent bs) : ∀ {fs : List OutFile}
    {as : List Act}, Plan r fs as → Plan r fs (as ++ bs)
  | [], _, h => Silent.append h hb
  | _ :: _, _, ⟨before, after, hbefore, has, hafter⟩ =>
      ⟨before, after ++ bs, hbefore, by rw [has]; simp, hafter.append_silent hb⟩

theorem Plan.silent_append {r : Results} {as bs : List Act} {fs : List OutFile} (ha : Silent as)
    (hb : Plan r fs bs) : Plan r fs (as ++ bs) := by
  cases fs with
  | nil => exact Silent.append ha hb
  | cons f fs =>
      obtain ⟨before, after, hbefore, hbs, hafter⟩ := hb
      exact ⟨as ++ before, after, ha.append hbefore, by rw [hbs, List.append_assoc], hafter⟩

theorem Plan.append {r : Results} {bs : List Act} {gs : List OutFile} (hb : Plan r gs bs) :
    ∀ {fs : List OutFile} {as : List Act}, Plan r fs as → Plan r (fs ++ gs) (as ++ bs)
  | [], _, h => Plan.silent_append h hb
  | _ :: _, _, ⟨before, after, hbefore, has, hafter⟩ =>
      ⟨before, after ++ bs, hbefore, by rw [has]; simp, hb.append hafter⟩

theorem silent_nil : Silent [] := fun _ h => absurd h List.not_mem_nil

theorem plan_dumpTo (r : Results) (f : OutFile) : Plan r [f] (dumpTo f (r.json f)).acts :=
  ⟨[], [], silent_nil, (List.append_nil _).symm, silent_nil⟩

/-- The acts of a run are those of `main` and what the process adds. -/
theorem analyse_acts_main (H : HashOrder) (user filepath : Text) (doc : Except PyError Document) :
    ∃ as, Silent as ∧ (analyse H user filepath doc).acts =
      [Act.stdout "yes\n".toList] ++ (main H user filepath doc).acts ++ as := by
  rw [analyse]
  cases (main H user filepath doc).result with
  | ok code => exact ⟨[.flush], by decide, rfl⟩
  | error e =>
      cases e with
      | ioError errno strerror =>
          refine ⟨_, ?_, rfl⟩
          intro a ha
          cases List.mem_cons.mp ha with
          | inl heq => rw [heq]; rfl
          | inr hmem => rw [List.mem_singleton.mp hmem]; rfl
      | indexError => exact ⟨[.stderr .indexError, .flush], by decide, rfl⟩
      | keyError => exact ⟨[.stderr .keyError, .flush], by decide, rfl⟩
      | valueError => exact ⟨[.stderr .valueError, .flush], by decide, rfl⟩
      | attributeError => exact ⟨[.stderr .attributeError, .flush], by decide, rfl⟩
      | xmlError => exact ⟨[.stderr .xmlError, .flush], by decide, rfl⟩

/-- A failed extraction has not written anything. -/
theorem silent_extract_error {H : HashOrder} {user : Text} {doc : Document} {e : PyError}
    (h : (extract H user doc).result = .error e) : Silent (extract H user doc).acts := by
  rw [extract] at h ⊢
  cases hloop : (threadLoop H doc.length doc 0 .empty).result with
  | error e' =>
      rw [Traced.bind_error hloop]
      exact silent_threadLoop H _ doc 0 _
  | ok chats =>
      rw [Traced.bind_ok hloop] at h
      cases h

theorem plan_extract {H : HashOrder} {user : Text} {doc : Document} {fb : Fb} {r : Results}
    (h : (extract H user doc).result = .ok fb) (hr : r.messages = fb.json H) :
    Plan r [.messages] (extract H user doc).acts := by
  rw [extract] at h ⊢
  obtain ⟨chats, _, hrest, hacts⟩ := Traced.bind_eq_ok h
  have hchats : (⟨user, chats⟩ : Fb) = fb := by
    cases hrest
    rfl
  rw [hacts]
  refine Plan.silent_append (silent_threadLoop H _ doc 0 _) ?_
  change Plan r [.messages] ((dumpTo .messages (Fb.json H ⟨user, chats⟩)).acts ++
    ((say "finished creating JSON chat structure\n".toList).acts ++ []))
  rw [hchats, ← hr, List.append_nil]
  exact (plan_dumpTo r .messages).append_silent (silent_say _)

theorem silent_timelineEntries {ms : List Message} {es : List Entry}
    (h : (timelineEntries ms).result = .ok es) : Silent (timelineEntries ms).acts := by
  cases ms with
  | nil => exact silent_nil
  | cons m ms =>
      rw [timelineEntries] at h ⊢
      obtain ⟨date, _, hloop, hacts⟩ := Traced.bind_eq_ok h
      rw [hacts, (timelineLoop_rounds _ _ _ _ _ _).acts_of_ok hloop]
      exact silent_rounds _ _ _

theorem plan_timeline {ms : List Message} {es : List Entry} {r : Results}
    (h : (timelineEntries ms).result = .ok es) (hr : r.timeline = timelineJson es) :
    (timeline ms).result = .ok () ∧ Plan r [.timeline] (timeline ms).acts := by
  have hsay : (say "Starting analysis for time line plot...".toList).result = .ok () := rfl
  rw [timeline, Traced.bind_ok hsay, Traced.bind_ok h]
  refine ⟨rfl, Plan.silent_append (silent_say _) ?_⟩
  refine Plan.silent_append (silent_timelineEntries h) ?_
  change Plan r [.timeline] ((say "All messages have been analyzed.".toList).acts ++
    ((dumpTo .timeline (timelineJson es)).acts ++ (say "timeline".toList).acts))
  rw [← hr]
  exact Plan.silent_append (silent_say _)
    ((plan_dumpTo r .timeline).append_silent (silent_say _))

theorem plan_hour_histogram {ms : List Message} {d : Dict Nat Nat} {r : Results}
    (h : (hourLoop ms.length ms 1 .empty).result = .ok d)
    (hr : r.hourHistogram = hourJson (hourArr d)) :
    (hour_histogram ms).result = .ok () ∧ Plan r [.hourHistogram] (hour_histogram ms).acts := by
  rw [hour_histogram, Traced.bind_ok h]
  refine ⟨rfl, ?_⟩
  rw [(hourLoop_rounds _ _ _ _).acts_of_ok h]
  refine Plan.silent_append (silent_rounds _ _ _) ?_
  change Plan r [.hourHistogram] ((dumpTo .hourHistogram (hourJson (hourArr d))).acts ++
    (say "hour_histogram".toList).acts)
  rw [← hr]
  exact (plan_dumpTo r .hourHistogram).append_silent (silent_say _)

/-- `main` on a document that is read. -/
theorem main_of_read (H : HashOrder) (user : Text) {filepath : Text}
    (hpath : isHtmlPath filepath = true) (d : Document) :
    main H user filepath (.ok d) = (do
      let fb ← extract H user d
      let messages ← Traced.lift (firstChat H fb)
      timeline messages
      hour_histogram messages
      pure 0) := by
  rw [main, if_pos hpath]
  rfl

/-- Once the chats of a document with threads are extracted, `main` completes and
writes all of its files. -/
theorem main_completes {H : HashOrder} {user filepath : Text} {d : Document} {fb : Fb}
    (hpath : isHtmlPath filepath = true) (hfb : (extract H user d).result = .ok fb)
    (hne : d ≠ []) :
    ∃ r, results H user filepath (.ok d) = some r ∧
      (main H user filepath (.ok d)).result = .ok 0 ∧
      Plan r outFiles (main H user filepath (.ok d)).acts := by
  obtain ⟨ms, hms, hdated⟩ := firstChat_dated hfb hne
  obtain ⟨es, hes⟩ := timelineEntries_ok hdated
  obtain ⟨counts, hcounts⟩ := hourLoop_ok ms.length hdated 1 .empty
  let r : Results := ⟨fb.json H, timelineJson es, hourJson (hourArr counts)⟩
  obtain ⟨htl, hplanTl⟩ := plan_timeline (r := r) hes rfl
  obtain ⟨hhh, hplanHh⟩ := plan_hour_histogram (r := r) hcounts rfl
  refine ⟨r, ?_, ?_⟩
  · simp [results, accepted, hpath, hfb, hms, hes, hcounts, Except.toOption, r]
  · rw [main_of_read H user hpath, Traced.bind_ok hfb, hms, Traced.lift_ok_bind,
      Traced.bind_ok htl, Traced.bind_ok hhh]
    have hlast : Plan r [.hourHistogram] _ := hplanHh.append_silent silent_nil
    have hcharts : Plan r [.timeline, .hourHistogram] _ := Plan.append hlast hplanTl
    exact ⟨rfl, Plan.append hcharts (plan_extract hfb rfl)⟩

/-- `main` that does not extract has not written anything. -/
theorem silent_main {H : HashOrder} {user filepath : Text} {doc : Except PyError Document}
    (h : isHtmlPath filepath = true → ∀ d, doc = .ok d →
      ∃ e, (extract H user d).result = .error e) :
    Silent (main H user filepath doc).acts := by
  by_cases hpath : isHtmlPath filepath = true
  · cases doc with
    | error e =>
        rw [main, if_pos hpath]
        exact silent_nil
    | ok d =>
        obtain ⟨e, he⟩ := h hpath d rfl
        rw [main_of_read H user hpath, Traced.bind_error he]
        exact silent_extract_error he
  · rw [main, if_neg hpath]
    exact Silent.append (silent_say _) silent_nil

/-- `main` over a document with threads writes all of its files or none. -/
theorem main_acts (H : HashOrder) (user filepath : Text) (doc : Except PyError Document)
    (h : isHtmlPath filepath = true → doc ≠ .ok []) :
    Silent (main H user filepath doc).acts ∨
      ∃ r, results H user filepath doc = some r ∧
        Plan r outFiles (main H user filepath doc).acts := by
  by_cases hread : isHtmlPath filepath = true ∧
      ∃ d, doc = .ok d ∧ ∃ fb, (extract H user d).result = .ok fb
  · obtain ⟨hpath, d, rfl, fb, hfb⟩ := hread
    have hne : d ≠ [] := fun heq => h hpath (by rw [heq])
    obtain ⟨r, hr, _, hplan⟩ := main_completes hpath hfb hne
    exact Or.inr ⟨r, hr, hplan⟩
  · refine Or.inl (silent_main fun hpath d hd => ?_)
    cases hfb : (extract H user d).result with
    | ok fb => exact absurd ⟨hpath, d, hd, fb, hfb⟩ hread
    | error e => exact ⟨e, rfl⟩

/-- A run over a document that has threads, if it is read at all, writes all of
its files or none. -/
theorem analyse_acts (H : HashOrder) (user filepath : Text) (doc : Except PyError Document)
    (h : isHtmlPath filepath = true → doc ≠ .ok []) :
    Silent (analyse H user filepath doc).acts ∨
      ∃ r, results H user filepath doc = some r ∧
        Plan r outFiles (analyse H user filepath doc).acts := by
  obtain ⟨as, has, hacts⟩ := analyse_acts_main H user filepath doc
  have hyes : Silent [Act.stdout "yes\n".toList] := by decide
  rw [hacts]
  cases main_acts H user filepath doc h with
  | inl hsilent => exact Or.inl ((hyes.append hsilent).append has)
  | inr hplan =>
      obtain ⟨r, hr, hp⟩ := hplan
      exact Or.inr ⟨r, hr, (Plan.silent_append hyes hp).append_silent has⟩

/-! ## Results are written and read as they are -/

theorem exactElems_map {α : Type} {f : α → Json} (h : ∀ a, (f a).Exact) (as : List α) :
    Json.ExactElems (as.map f) := by
  induction as with
  | nil => trivial
  | cons a as ih => exact ⟨h a, ih⟩

theorem exactMembers_map {α : Type} {f : α → Text × Json} (h : ∀ a, (f a).2.Exact) (as : List α) :
    Json.ExactMembers (as.map f) := by
  induction as with
  | nil => trivial
  | cons a as ih => exact ⟨h a, ih⟩

theorem exact_chatJson (ms : List Message) : (chatJson ms).Exact := by
  refine ⟨exactElems_map (fun m => ?_) ms, trivial⟩
  obtain ⟨user, date, text⟩ := m
  cases user <;> exact ⟨trivial, trivial, trivial, trivial⟩

/-- The results of a document are arrays and objects of texts and integers. -/
theorem results_exact {H : HashOrder} {user filepath : Text} {doc : Except PyError Document}
    {r : Results} (h : results H user filepath doc = some r) (f : OutFile) :
    (r.json f).Exact ∧ (r.json f).IsContainer := by
  unfold results at h
  obtain ⟨d, _, h⟩ := Option.bind_eq_some_iff.mp h
  obtain ⟨fb, _, h⟩ := Option.bind_eq_some_iff.mp h
  obtain ⟨ms, _, h⟩ := Option.bind_eq_some_iff.mp h
  obtain ⟨es, _, h⟩ := Option.bind_eq_some_iff.mp h
  obtain ⟨counts, _, h⟩ := Option.bind_eq_some_iff.mp h
  cases h
  cases f with
  | messages =>
      exact ⟨⟨trivial, exactMembers_map (fun k => exact_chatJson _) _, trivial⟩, trivial⟩
  | timeline =>
      refine ⟨exactElems_map (f := Entry.json) (fun e => ?_) es, trivial⟩
      exact ⟨trivial, trivial, trivial⟩
  | hourHistogram =>
      refine ⟨?_, trivial⟩
      change Json.ExactElems ((hourArr counts).map fun p =>
        .obj [("axis".toList, .num p.1), ("value".toList, .num p.2)])
      refine exactElems_map (fun p => ?_) _
      exact ⟨trivial, trivial, trivial⟩

theorem toOption_eq_some {α : Type} {x : Except PyError α} {a : α} (h : x.toOption = some a) :
    x = .ok a := by
  cases x with
  | ok b => cases h; rfl
  | error e => cases h

/-- What the results of a run consist of. -/
theorem results_eq_some {H : HashOrder} {user filepath : Text}
    {doc : Except PyError Document} {r : Results} (h : results H user filepath doc = some r) :
    ∃ d fb ms es counts, doc = .ok d ∧ isHtmlPath filepath = true ∧
      (extract H user d).result = .ok fb ∧ firstChat H fb = .ok ms ∧
      (timelineEntries ms).result = .ok es ∧ (hourLoop ms.length ms 1 .empty).result = .ok counts ∧
      r = ⟨fb.json H, timelineJson es, hourJson (hourArr counts)⟩ := by
  unfold results at h
  obtain ⟨d, hd, h⟩ := Option.bind_eq_some_iff.mp h
  obtain ⟨fb, hfb, h⟩ := Option.bind_eq_some_iff.mp h
  obtain ⟨ms, hms, h⟩ := Option.bind_eq_some_iff.mp h
  obtain ⟨es, hes, h⟩ := Option.bind_eq_some_iff.mp h
  obtain ⟨counts, hcounts, h⟩ := Option.bind_eq_some_iff.mp h
  obtain ⟨hpath, hdoc⟩ := Option.ite_none_right_eq_some.mp hd
  exact ⟨d, fb, ms, es, counts, toOption_eq_some hdoc, hpath, toOption_eq_some hfb,
    toOption_eq_some hms, toOption_eq_some hes, toOption_eq_some hcounts, (Option.some.inj h).symm⟩

/-- A run with results is over a document with threads that is extracted. -/
theorem extracted_of_results {H : HashOrder} {user filepath : Text}
    {doc : Except PyError Document} {r : Results} (h : results H user filepath doc = some r) :
    ∃ d fb, doc = .ok d ∧ d ≠ [] ∧ isHtmlPath filepath = true ∧
      (extract H user d).result = .ok fb ∧ r.messages = fb.json H := by
  obtain ⟨d, fb, ms, es, counts, hdoc, hpath, hfb, hms, _, _, rfl⟩ := results_eq_some h
  refine ⟨d, fb, hdoc, ?_, hpath, hfb, rfl⟩
  rintro rfl
  -- without threads there is no first chat
  rw [extract_result H user .nil, Except.ok.injEq] at hfb
  subst hfb
  have hempty : H.dict (Dict.empty : Dict Text (List Message)).keys = [] :=
    List.perm_nil.mp (H.dict_perm _)
  simp [firstChat, hempty] at hms

/-- What a reader makes of a file that a run has written in part: the value, if
all of it is there, and nothing before. -/
theorem parse_prefix_results {H : HashOrder} {user filepath : Text}
    {doc : Except PyError Document} {r : Results} (h : results H user filepath doc = some r)
    {f : OutFile} {t : Text} (ht : t <+: r.text f) {v : Json} (hv : Json.parse t = some v) :
    v = r.json f := by
  obtain ⟨hexact, hcont⟩ := results_exact h f
  by_cases heq : t = (r.json f).dump
  · rw [heq, Json.parse_dump hexact, Option.some.injEq] at hv
    exact hv.symm
  · rw [Json.parse_prefix_dump hexact hcont ht heq] at hv
    cases hv

end Analyser
