import Mathlib.Logic.Function.Basic
import FbTesting.Analyser.Outcome

/-!
# What a failed run leaves behind

The files of a run are in a directory that was there before, and `open` may
refuse a file: its directory is missing, or it may not be written.  A refused
`open` raises an `IOError` and the rest of the run is not performed
(`perform`).

Every part of `main` opens its file only when it has computed all of what it
writes, so a part that fails leaves its own file as it was.  The parts come one
after the other, though, and nothing takes back `messages.json` when a later part
fails.  After the first file, a run fails on a document without threads, where
there is no first chat, and where one of the two other files cannot be opened.
-/

namespace Analyser

open Base Python

/-! ## Files that can be opened -/

/-- The content of the three files, if they are there. -/
abbrev Files := OutFile → Option Text

/-- The acts of a run, up to an `open` that is refused, and whether there was
none. -/
def perform (opens : OutFile → Bool) : List Act → Files → Files × Bool
  | [], files => (files, true)
  | .open f :: as, files =>
      if opens f then perform opens as (Function.update files f (some [])) else (files, false)
  | .write f t :: as, files =>
      perform opens as (Function.update files f ((files f).map (· ++ t)))
  | _ :: as, files => perform opens as files

/-- `main` runs to its end and exits with status 0. -/
def Completes (H : HashOrder) (user filepath : Text) (doc : Except PyError Document)
    (opens : OutFile → Bool) (files : Files) : Prop :=
  (perform opens (main H user filepath doc).acts files).2 = true ∧
    (main H user filepath doc).result = .ok 0

/-- The files after a run of `main`. -/
def filesAfter (H : HashOrder) (user filepath : Text) (doc : Except PyError Document)
    (opens : OutFile → Bool) (files : Files) : Files :=
  (perform opens (main H user filepath doc).acts files).1

section

variable {opens : OutFile → Bool}

theorem perform_append (as bs : List Act) (files : Files) :
    perform opens (as ++ bs) files =
      if (perform opens as files).2 then perform opens bs (perform opens as files).1
      else ((perform opens as files).1, false) := by
  induction as generalizing files with
  | nil => rfl
  | cons a as ih =>
      cases a with
      | «open» f =>
          rw [List.cons_append, perform, perform]
          split
          · exact ih _
          · rfl
      | write f t => exact ih _
      | _ => exact ih _

/-- Acts that are not on files leave them as they are. -/
theorem perform_silent {as : List Act} (h : Silent as) (files : Files) :
    perform opens as files = (files, true) := by
  induction as with
  | nil => rfl
  | cons a as ih =>
      have hrest := ih fun b hb => h b (List.mem_cons_of_mem a hb)
      have ha := h a List.mem_cons_self
      cases a with
      | «open» f => cases ha
      | write f t => cases ha
      | _ => exact hrest

theorem perform_silent_append {as : List Act} (h : Silent as) (bs : List Act) (files : Files) :
    perform opens (as ++ bs) files = perform opens bs files := by
  rw [perform_append, perform_silent h]
  rfl

/-- A file that is there stays there. -/
theorem perform_isSome (f : OutFile) (as : List Act) : ∀ {files : Files},
    (files f).isSome = true → ((perform opens as files).1 f).isSome = true := by
  induction as with
  | nil => intro files h; exact h
  | cons a as ih =>
      intro files h
      cases a with
      | «open» g =>
          rw [perform]
          split
          · refine ih ?_
            by_cases hfg : f = g
            · rw [hfg, Function.update_self]
              rfl
            · rwa [Function.update_of_ne hfg]
          · exact h
      | write g t =>
          refine ih ?_
          by_cases hfg : f = g
          · rw [hfg, Function.update_self, Option.isSome_map]
            rwa [hfg] at h
          · rwa [Function.update_of_ne hfg]
      | _ => exact ih h

/-- The run up to the first file of a plan. -/
theorem perform_plan_cons (opens : OutFile → Bool) {r : Results} {f : OutFile} {fs : List OutFile} {as : List Act}
    (h : Plan r (f :: fs) as) (files : Files) :
    ∃ after, Plan r fs after ∧ perform opens as files =
      if opens f then
        perform opens (.write f (r.text f) :: .close f :: after) (Function.update files f (some []))
      else (files, false) := by
  obtain ⟨before, after, hbefore, has, hafter⟩ := h
  refine ⟨after, hafter, ?_⟩
  rw [has, perform_silent_append hbefore]
  rfl

/-- A plan whose files can all be opened is carried out. -/
theorem perform_plan_opens {r : Results} : ∀ {fs : List OutFile} {as : List Act},
    Plan r fs as → (∀ f ∈ fs, opens f = true) → ∀ files, (perform opens as files).2 = true
  | [], _, h, _, files => by rw [perform_silent h]
  | f :: fs, as, h, hopens, files => by
      obtain ⟨after, hafter, heq⟩ := perform_plan_cons opens h files
      rw [heq, if_pos (hopens f List.mem_cons_self)]
      exact perform_plan_opens hafter (fun g hg => hopens g (List.mem_cons_of_mem f hg)) _

/-- A plan with a file that cannot be opened is not. -/
theorem perform_plan_refused {r : Results} : ∀ {fs : List OutFile} {as : List Act},
    Plan r fs as → (∃ f ∈ fs, opens f = false) → ∀ files, (perform opens as files).2 = false
  | [], _, _, ⟨_, hf, _⟩, _ => absurd hf List.not_mem_nil
  | f :: fs, as, h, ⟨g, hg, hrefused⟩, files => by
      obtain ⟨after, hafter, heq⟩ := perform_plan_cons opens h files
      rw [heq]
      split
      · rename_i hopen
        cases List.mem_cons.mp hg with
        | inl hfirst =>
            rw [hfirst, hopen] at hrefused
            cases hrefused
        | inr hmem => exact perform_plan_refused hafter ⟨g, hmem, hrefused⟩ _
      · rfl

/-- The first file of a plan is there afterwards, if it can be opened. -/
theorem perform_plan_first {r : Results} {f : OutFile} {fs : List OutFile} {as : List Act}
    (h : Plan r (f :: fs) as) (hopen : opens f = true) (files : Files) :
    ((perform opens as files).1 f).isSome = true := by
  obtain ⟨after, _, heq⟩ := perform_plan_cons opens h files
  rw [heq, if_pos hopen]
  refine perform_isSome f _ ?_
  rw [Function.update_self]
  rfl

end

/-! ## Documents that are extracted -/

/-- The messages that have a text have a timestamp that is read. -/
def Readable (d : Document) : Prop :=
  ∀ t ∈ d, ∀ m ∈ t, m.text ≠ none → ∃ date, messageDate m.date = .ok date

/-- The loop over messages ends exactly when all timestamps it looks at are read. -/
theorem messageLoop_ok_iff (t : Thread) : ∀ (ids : List (Option PyString)) (ms : List Message),
    (∃ p, messageLoop t ids ms = .ok p) ↔
      ∀ m ∈ t, m.text ≠ none → ∃ date, messageDate m.date = .ok date := by
  induction t with
  | nil =>
      intro ids ms
      exact iff_of_true ⟨_, rfl⟩ fun m hm => absurd hm List.not_mem_nil
  | cons msg t ih =>
      intro ids ms
      rw [List.forall_mem_cons, messageLoop]
      cases htext : msg.text with
      | none =>
          refine (ih ids ms).trans ⟨fun h => ⟨fun hne => absurd rfl hne, h⟩, And.right⟩
      | some text =>
          cases hdate : messageDate msg.date with
          | error e =>
              refine iff_of_false ?_ fun h => ?_
              · rintro ⟨p, hp⟩
                cases hp
              · obtain ⟨date, hd⟩ := h.1 (Option.some_ne_none _)
                cases hd
          | ok date =>
              refine (ih _ _).trans ⟨fun h => ⟨fun _ => ⟨date, rfl⟩, h⟩, And.right⟩

/-- The threads of a readable document are those that are stored. -/
theorem readable_iff_kept (d : Document) : Readable d ↔ ∃ ks : List Kept,
    List.Forall₂ (fun t k => messageLoop t [] [] = .ok (k.users, k.messages)) d ks := by
  induction d with
  | nil => exact iff_of_true (fun t ht => absurd ht List.not_mem_nil) ⟨[], .nil⟩
  | cons t d ih =>
      rw [Readable, List.forall_mem_cons, ← messageLoop_ok_iff t [] [], ← Readable, ih]
      constructor
      · rintro ⟨⟨p, hp⟩, ks, hks⟩
        exact ⟨⟨p.1, p.2⟩ :: ks, .cons hp hks⟩
      · rintro ⟨ks, hks⟩
        cases hks with
        | cons hk hrest => exact ⟨⟨_, hk⟩, _, hrest⟩

/-- Extraction ends exactly on readable documents. -/
theorem extract_ok_iff (H : HashOrder) (user : Text) (d : Document) :
    (∃ fb, (extract H user d).result = .ok fb) ↔ Readable d := by
  rw [readable_iff_kept]
  constructor
  · rintro ⟨fb, hfb⟩
    obtain ⟨ks, hks, _⟩ := extract_kept hfb
    exact ⟨ks, hks⟩
  · rintro ⟨ks, hks⟩
    exact ⟨_, extract_result H user hks⟩

/-! ## When a failed run changes nothing -/

/-- `main` on a document without threads writes the first file and fails. -/
theorem main_no_threads (H : HashOrder) (user : Text) {filepath : Text}
    (hpath : isHtmlPath filepath = true) :
    (main H user filepath (.ok [])).result = .error .indexError ∧
      ∃ r, Plan r [.messages] (main H user filepath (.ok [])).acts := by
  have hfb : (extract H user []).result = .ok ⟨user, .empty⟩ := rfl
  have hchat : firstChat H ⟨user, .empty⟩ = .error .indexError := by
    have hkeys : H.dict [] = [] := List.perm_nil.mp (H.dict_perm [])
    rw [firstChat, show (Dict.empty : Dict Text (List Message)).keys = [] from rfl, hkeys]
  let r : Results := ⟨Fb.json H ⟨user, .empty⟩, .null, .null⟩
  rw [main_of_read H user hpath, Traced.bind_ok hfb, hchat, Traced.lift_error_bind]
  refine ⟨rfl, r, ?_⟩
  rw [List.append_nil]
  exact plan_extract hfb rfl

/-- The acts of a run on a readable document begin with the first file. -/
theorem plan_main {d : Document} (hd : Readable d) (H : HashOrder) (user : Text) {filepath : Text}
    (hpath : isHtmlPath filepath = true) :
    ∃ r fs, Plan r (.messages :: fs) (main H user filepath (.ok d)).acts := by
  cases d with
  | nil =>
      obtain ⟨_, r, hplan⟩ := main_no_threads H user hpath
      exact ⟨r, [], hplan⟩
  | cons t d =>
      obtain ⟨fb, hfb⟩ := (extract_ok_iff H user (t :: d)).mpr hd
      obtain ⟨r, _, _, hplan⟩ := main_completes hpath hfb (List.cons_ne_nil t d)
      exact ⟨r, [.timeline, .hourHistogram], hplan⟩

/-- A run on a readable document completes if there is a thread and all files can
be opened. -/
theorem completes_iff {d : Document} (hd : Readable d) (H : HashOrder) (user : Text)
    {filepath : Text} (hpath : isHtmlPath filepath = true) (opens : OutFile → Bool)
    (files : Files) :
    Completes H user filepath (.ok d) opens files ↔ d ≠ [] ∧ ∀ f ∈ outFiles, opens f = true := by
  cases d with
  | nil =>
      refine iff_of_false (fun h => ?_) fun h => absurd rfl h.1
      have hok := h.2
      rw [(main_no_threads H user hpath).1] at hok
      cases hok
  | cons t d =>
      obtain ⟨fb, hfb⟩ := (extract_ok_iff H user (t :: d)).mpr hd
      obtain ⟨r, _, hok, hplan⟩ := main_completes hpath hfb (List.cons_ne_nil t d)
      constructor
      · intro h
        refine ⟨List.cons_ne_nil t d, fun f hf => ?_⟩
        by_contra hclosed
        have hrefused := perform_plan_refused hplan ⟨f, hf, Bool.not_eq_true _ ▸ hclosed⟩ files
        rw [h.1] at hrefused
        cases hrefused
      · intro h
        exact ⟨perform_plan_opens hplan h.2 files, hok⟩

/-- A run on a readable document whose failure changes nothing completes, or cannot
open the first file. -/
theorem failed_run_readable_iff {d : Document} (hd : Readable d) (H : HashOrder) (user : Text)
    {filepath : Text} (hpath : isHtmlPath filepath = true) (opens : OutFile → Bool) :
    (∀ files, ¬Completes H user filepath (.ok d) opens files →
      filesAfter H user filepath (.ok d) opens files = files) ↔
        (opens .messages = true → d ≠ [] ∧ ∀ f ∈ outFiles, opens f = true) := by
  obtain ⟨r, fs, hplan⟩ := plan_main hd H user hpath
  constructor
  · intro h hopen
    -- from empty files, a failure would leave the first one behind
    by_contra hfails
    have hsame := h (fun _ => none) fun hc => hfails ((completes_iff hd H user hpath _ _).mp hc)
    have hsome := perform_plan_first hplan hopen fun _ => none
    rw [filesAfter] at hsame
    rw [hsame] at hsome
    cases hsome
  · intro h files hfails
    by_cases hopen : opens .messages = true
    · exact absurd ((completes_iff hd H user hpath _ _).mpr (h hopen)) hfails
    · obtain ⟨_, _, heq⟩ := perform_plan_cons opens hplan files
      rw [filesAfter, heq, if_neg hopen]

/-- A failed run leaves the three files as they were, whatever they held, exactly
when a run that gets past `messages.json` has what the other two files need: if
the file name is accepted, the document and its timestamps are read and
`messages.json` can be opened, then there is a thread and the files of both charts
can be opened. -/
theorem failed_run_changes_nothing_iff (H : HashOrder) (user filepath : Text)
    (doc : Except PyError Document) (opens : OutFile → Bool) :
    (∀ files, ¬Completes H user filepath doc opens files →
      filesAfter H user filepath doc opens files = files) ↔
        (isHtmlPath filepath = true → ∀ d, doc = .ok d → Readable d → opens .messages = true →
          d ≠ [] ∧ opens .timeline = true ∧ opens .hourHistogram = true) := by
  by_cases hread : isHtmlPath filepath = true ∧ ∃ d, doc = .ok d ∧ Readable d
  · obtain ⟨hpath, d, rfl, hd⟩ := hread
    rw [failed_run_readable_iff hd H user hpath]
    constructor
    · intro h _ d' heq _ hopen
      cases heq
      obtain ⟨hne, hall⟩ := h hopen
      exact ⟨hne, hall _ (by decide), hall _ (by decide)⟩
    · intro h hopen
      obtain ⟨hne, htimeline, hhour⟩ := h hpath d rfl hd hopen
      refine ⟨hne, fun f _ => ?_⟩
      cases f with
      | messages => exact hopen
      | timeline => exact htimeline
      | hourHistogram => exact hhour
  · refine iff_of_true (fun files _ => ?_) fun hpath d hd hr => absurd ⟨hpath, d, hd, hr⟩ hread
    have hsilent : Silent (main H user filepath doc).acts := by
      refine silent_main fun hpath d hd => ?_
      cases hfb : (extract H user d).result with
      | ok fb => exact absurd ⟨hpath, d, hd, (extract_ok_iff H user d).mp ⟨fb, hfb⟩⟩ hread
      | error e => exact ⟨e, rfl⟩
    rw [filesAfter, perform_silent hsilent]

/-- The files of an earlier upload. -/
def earlierFiles : Files := fun _ => some "[]".toList

/-- An upload without threads fails, and `messages.json` is not what it was. -/
theorem failed_run_replaces_messages :
    ¬(¬Completes .insertion "0a1b".toList "./users/0a1b/uploads/index.htm".toList (.ok [])
        (fun _ => true) earlierFiles →
      filesAfter .insertion "0a1b".toList "./users/0a1b/uploads/index.htm".toList (.ok [])
        (fun _ => true) earlierFiles = earlierFiles) := by
  intro h
  have hpath : isHtmlPath "./users/0a1b/uploads/index.htm".toList = true := by decide
  have hfails : ¬Completes .insertion "0a1b".toList "./users/0a1b/uploads/index.htm".toList
      (.ok []) (fun _ => true) earlierFiles := by
    intro hc
    have hok := hc.2
    rw [(main_no_threads .insertion "0a1b".toList hpath).1] at hok
    cases hok
  have hmessages := congrFun (h hfails) .messages
  revert hmessages
  decide

end Analyser
