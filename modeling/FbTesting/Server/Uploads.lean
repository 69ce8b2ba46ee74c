import FbTesting.Analyser.Outcome
import FbTesting.Base.Simulation
import FbTesting.Server.Confinement

/-!
# Uploads that are stored

`step` takes an upload from the end of its form on, with the document that its
analyser finds.  Before that the form stores what it receives of the file, piece by
piece, under the name that the client gave, and the analyser reads it from there when
it begins, some time after the end of the form.  `Site` is the server with its forms
and with what they have stored.  A name may lead anywhere: a file that is written over
one of the analysers' files is that file (`Site.write`).

If every file goes below its session's directory for uploads, and none is begun in the
place of one that is still being received or has still to be read, each analyser gets
the document of one file as it was sent.  Then the site runs as the server does, given
that document at the end of the form (`siteRun`).

What pyquery makes of the content of a file is a parameter.
-/

namespace Server

open Base Node Analyser Python

/-! ## Places -/

/-- The file of the analysers that has this place. -/
def outAt (cwd : Path) (p : Path) : Option (Text × OutFile) :=
  p[cwd.length + 1]?.bind fun key =>
    (outFiles.find? fun f => resolve cwd (outputPath key f) = p).map fun f => (key, f)

/-- A place below a directory for uploads is none of them. -/
theorem outAt_of_below {cwd p : Path} {s : SessionID} (h : Below (uploadsDir cwd s) p) :
    outAt cwd p = none := by
  obtain ⟨rest, rfl⟩ := h.1
  have hkey : (uploadsDir cwd s ++ rest)[cwd.length + 1]? = some s.text := by
    simp [uploadsDir, userDir]
  have hnone : (outFiles.find? fun f =>
      decide (resolve cwd (outputPath s.text f) = uploadsDir cwd s ++ rest)) = none := by
    refine List.find?_eq_none.mpr fun f _ hf => not_below_outPath cwd s s f ?_
    rw [← resolve_outputPath, of_decide_eq_true hf]
    exact h
  rw [outAt, hkey, Option.bind_some, hnone, Option.map_none]

/-! ## State -/

/-- What a site runs on: the order of hashes, the working directory, and what pyquery
makes of the content of a file. -/
structure Host where
  order : HashOrder
  cwd : Path
  pyquery : Option Text → Except PyError Document

/-- How far a form is. -/
inductive Stage where
  | receiving
  /-- Its analyser was started and has not read the file. -/
  | unread (i : Nat)
  /-- Its analyser has begun. -/
  | read (i : Nat)
deriving DecidableEq

/-- A form, with what was received of its last file. -/
structure Form where
  session : SessionID
  /-- `opts.filename`. -/
  filename : Option Text
  body : Text
  stage : Stage

/-- The server with its forms, and the files that are not those of the analysers. -/
structure Site where
  core : State
  forms : List Form
  stored : Path → Option Text

def Site.initial : Site := ⟨State.initial, [], fun _ => none⟩

variable (E : Host)

/-- The place of a file that has this name. -/
def Host.place (s : SessionID) (name : Text) : Path := resolve E.cwd (storedAt s.text name)

/-- The place that the form's file keeps until it is read. -/
def Form.place (f : Form) : Option Path :=
  match f.stage with
  | .receiving | .unread _ => f.filename.map (E.place f.session)
  | .read _ => none

/-- What the form uploads, if its file is read as it was received. -/
def Form.upload (f : Form) : Upload := ⟨f.filename, E.pyquery (f.filename.map fun _ => f.body)⟩

namespace Site

/-- The content of a file. -/
def content (σ : Site) (p : Path) : Option Text :=
  match outAt E.cwd p with
  | some (key, f) => σ.core.files key f
  | none => σ.stored p

/-- A file gets a content. -/
def write (σ : Site) (p : Path) (t : Text) : Site :=
  match outAt E.cwd p with
  | some (key, f) =>
      let files := Function.update (σ.core.files key) f (some t)
      { σ with core := { σ.core with files := Function.update σ.core.files key files } }
  | none => { σ with stored := Function.update σ.stored p (some t) }

/-- What an analyser of the form finds.  Without a file it refuses the name. -/
def found (σ : Site) (f : Form) : Upload :=
  ⟨f.filename, E.pyquery (f.filename.bind fun name => σ.content E (E.place f.session name))⟩

/-- The server when an input comes.  An analyser has read its document when it acts for the
first time: what it prints before goes to its buffer. -/
def before (σ : Site) : Input → State
  | .py i _ =>
      match σ.forms.find? fun f => f.stage = .unread i with
      | some f =>
          let p := Proc.start E.order f.session (σ.found E f)
          { σ.core with procs := σ.core.procs.set i p }
      | none => σ.core
  | _ => σ.core

end Site

/-- The form after an input. -/
def Form.after (i : Input) (f : Form) : Form :=
  match i with
  | .py i _ => if f.stage = .unread i then { f with stage := .read i } else f
  | _ => f

/-! ## Steps -/

/-- What the environment may do. -/
inductive SiteInput where
  /-- A form is posted. -/
  | form (s : SessionID)
  /-- A file of the form begins. -/
  | fileBegin (j : Nat) (name : Text)
  /-- A piece of it is received. -/
  | receive (j : Nat) (t : Text)
  | formEnd (j : Nat)
  /-- An input of the server that is no upload. -/
  | core (i : Input)

/-- The step of the site. -/
def Site.step (σ : Site) : SiteInput → Option (Site × List Obs)
  | .form s =>
      if σ.core.alive ∧ s ∈ σ.core.sessions then
        some ({ σ with forms := σ.forms ++ [⟨s, none, [], .receiving⟩] }, [])
      else none
  | .fileBegin j name => do
      let f ← σ.forms[j]?
      if σ.core.alive ∧ f.stage = .receiving then
        some ({ σ.write E (E.place f.session name) [] with
                forms := σ.forms.set j { f with filename := some name, body := [] } }, [])
      else none
  | .receive j t => do
      let f ← σ.forms[j]?
      let name ← f.filename
      if σ.core.alive ∧ f.stage = .receiving then
        let p := E.place f.session name
        let content := writeAt ((σ.content E p).getD []) f.body.length t
        some ({ σ.write E p content with
                forms := σ.forms.set j { f with body := f.body ++ t } }, [])
      else none
  | .formEnd j => do
      let f ← σ.forms[j]?
      if f.stage = .receiving then
        let r ← Server.step E.order σ.core (.upload f.session (σ.found E f))
        let f' := { f with stage := .unread σ.core.procs.length }
        some ({ σ with core := r.1, forms := σ.forms.set j f' }, r.2)
      else none
  | .core (.upload _ _) => none
  | .core i => do
      let r ← Server.step E.order (σ.before E i) i
      some ({ σ with core := r.1, forms := σ.forms.map (Form.after i) }, r.2)

/-- The system. -/
def site : System Site SiteInput Obs := ⟨Site.initial, Site.step E⟩

/-- The input is an upload. -/
def Input.isUpload : Input → Bool
  | .upload _ _ => true
  | _ => false

/-- A step by its cases, with the conditions under which it is possible. -/
inductive SiteMove (σ : Site) : SiteInput → Site × List Obs → Prop where
  | form {s : SessionID} (alive : σ.core.alive = true) (known : s ∈ σ.core.sessions) :
      SiteMove σ (.form s) ({ σ with forms := σ.forms ++ [⟨s, none, [], .receiving⟩] }, [])
  | fileBegin {j : Nat} {name : Text} {f : Form} (form : σ.forms[j]? = some f)
      (alive : σ.core.alive = true) (stage : f.stage = .receiving) :
      SiteMove σ (.fileBegin j name) ({ σ.write E (E.place f.session name) [] with
        forms := σ.forms.set j { f with filename := some name, body := [] } }, [])
  | receive {j : Nat} {t name : Text} {f : Form} (form : σ.forms[j]? = some f)
      (filename : f.filename = some name) (alive : σ.core.alive = true)
      (stage : f.stage = .receiving) :
      SiteMove σ (.receive j t) ({ σ.write E (E.place f.session name)
          (writeAt ((σ.content E (E.place f.session name)).getD []) f.body.length t) with
        forms := σ.forms.set j { f with body := f.body ++ t } }, [])
  | formEnd {j : Nat} {f : Form} {r : State × List Obs} (form : σ.forms[j]? = some f)
      (stage : f.stage = .receiving)
      (step : Server.step E.order σ.core (.upload f.session (σ.found E f)) = some r) :
      SiteMove σ (.formEnd j) ({ σ with
        core := r.1
        forms := σ.forms.set j { f with stage := .unread σ.core.procs.length } }, r.2)
  | core {i : Input} {r : State × List Obs} (other : i.isUpload = false)
      (step : Server.step E.order (σ.before E i) i = some r) :
      SiteMove σ (.core i) ({ σ with core := r.1, forms := σ.forms.map (Form.after i) }, r.2)

variable {E} {σ : Site}

/-- A step on an input of the server. -/
theorem step_core {i : Input} (hi : i.isUpload = false) :
    Site.step E σ (.core i) =
      (Server.step E.order (σ.before E i) i).bind fun r =>
        some ({ σ with core := r.1, forms := σ.forms.map (Form.after i) }, r.2) := by
  cases i <;> first | rfl | cases hi

/-- Every step is one of the cases. -/
theorem siteMove_of_step {i : SiteInput} {r : Site × List Obs} (h : Site.step E σ i = some r) :
    SiteMove E σ i r := by
  cases i with
  | form s =>
      obtain ⟨⟨ha, hs⟩, hr⟩ := Option.ite_none_right_eq_some.mp h
      cases hr
      exact .form ha hs
  | fileBegin j name =>
      obtain ⟨f, hf, h⟩ := Option.bind_eq_some_iff.mp h
      obtain ⟨⟨ha, hstage⟩, hr⟩ := Option.ite_none_right_eq_some.mp h
      cases hr
      exact .fileBegin hf ha hstage
  | receive j t =>
      obtain ⟨f, hf, h⟩ := Option.bind_eq_some_iff.mp h
      obtain ⟨name, hname, h⟩ := Option.bind_eq_some_iff.mp h
      obtain ⟨⟨ha, hstage⟩, hr⟩ := Option.ite_none_right_eq_some.mp h
      cases hr
      exact .receive hf hname ha hstage
  | formEnd j =>
      obtain ⟨f, hf, h⟩ := Option.bind_eq_some_iff.mp h
      obtain ⟨hstage, h⟩ := Option.ite_none_right_eq_some.mp h
      obtain ⟨q, hstep, hr⟩ := Option.bind_eq_some_iff.mp h
      cases hr
      exact .formEnd hf hstage hstep
  | core i =>
      cases hi : i.isUpload with
      | true =>
          cases i with
          | upload s u => cases h
          | _ => cases hi
      | false =>
          rw [step_core hi] at h
          obtain ⟨q, hq, hr⟩ := Option.bind_eq_some_iff.mp h
          cases hr
          exact .core hi hq

/-- Every case is a step. -/
theorem step_of_siteMove {i : SiteInput} {r : Site × List Obs} (h : SiteMove E σ i r) :
    Site.step E σ i = some r := by
  cases h with
  | form alive known => exact if_pos ⟨alive, known⟩
  | fileBegin form alive stage => simp [Site.step, form, alive, stage]
  | receive form filename alive stage => simp [Site.step, form, filename, alive, stage]
  | formEnd form stage step => simp [Site.step, form, stage, step]
  | core other step =>
      rw [step_core other, step]
      rfl

/-! ## Uploads that are not disturbed -/

/-- A file begins below the session's directory for uploads, and not in the place of one
that another form is receiving or that is still to be read.  What reaches the server
meets `ok`. -/
def Undisturbed (E : Host) (ok : State → Input → Prop) (σ : Site) : SiteInput → Prop
  | .fileBegin j name => ∀ f ∈ σ.forms[j]?,
      Below (uploadsDir E.cwd f.session) (E.place f.session name) ∧
        ∀ g ∈ σ.forms.eraseIdx j, g.place E ≠ some (E.place f.session name)
  | .formEnd j => ∀ f ∈ σ.forms[j]?, ok σ.core (.upload f.session (σ.found E f))
  | .core i => ok σ.core i
  | .form _ | .receive _ _ => True

instance (ok : State → Input → Prop) [∀ σ i, Decidable (ok σ i)] (σ : Site) (i : SiteInput) :
    Decidable (Undisturbed E ok σ i) :=
  match i with
  | .fileBegin j _ => inferInstanceAs (Decidable (∀ f ∈ σ.forms[j]?, _ ∧ _))
  | .formEnd j => inferInstanceAs (Decidable (∀ f ∈ σ.forms[j]?, _))
  | .core i => inferInstanceAs (Decidable (ok σ.core i))
  | .form _ | .receive _ _ => isTrue trivial

/-- What such runs keep. -/
structure InPlace (E : Host) (σ : Site) : Prop where
  /-- A file that is still needed is as it was received. -/
  stored : ∀ f ∈ σ.forms, ∀ p, f.place E = some p → outAt E.cwd p = none ∧ σ.stored p = some f.body
  /-- No two forms need the same place. -/
  apart : ∀ (i j : Nat) (f g : Form) (p : Path), σ.forms[i]? = some f → σ.forms[j]? = some g →
    f.place E = some p → g.place E = some p → i = j
  /-- An analyser that has not begun is as it was started. -/
  unread : ∀ f ∈ σ.forms, ∀ i, f.stage = .unread i →
    σ.core.procs[i]? = some (Proc.start E.order f.session (f.upload E))
  /-- Every analyser is that of a form. -/
  procs : ∀ p ∈ σ.core.procs, ∃ f ∈ σ.forms, f.stage ≠ .receiving ∧ f.session = p.session ∧
    f.upload E = p.upload

theorem inPlace_initial : InPlace E Site.initial where
  stored := fun _ hf => absurd hf List.not_mem_nil
  apart := fun _ _ _ _ _ hf => by simp [Site.initial] at hf
  unread := fun _ hf => absurd hf List.not_mem_nil
  procs := fun _ hp => absurd hp List.not_mem_nil

theorem Form.place_eq {f : Form} {name : Text} (hname : f.filename = some name)
    (hstage : ∀ i, f.stage ≠ .read i) : f.place E = some (E.place f.session name) := by
  rw [Form.place, hname]
  cases hs : f.stage with
  | read i => exact absurd hs (hstage i)
  | receiving => rfl
  | unread i => rfl

/-- What is found of a form whose file is still needed is what it received. -/
theorem InPlace.found_eq (h : InPlace E σ) {f : Form} (hf : f ∈ σ.forms)
    (hstage : ∀ i, f.stage ≠ .read i) : σ.found E f = f.upload E := by
  rw [Site.found, Form.upload]
  cases hname : f.filename with
  | none => rfl
  | some name =>
      obtain ⟨hout, hstored⟩ := h.stored f hf _ (Form.place_eq hname hstage)
      rw [Option.bind_some, Site.content, hout, hstored, Option.map_some]

theorem set_of_getElem?_eq {α : Type} {l : List α} {i : Nat} {a : α} (h : l[i]? = some a) :
    l.set i a = l := by
  obtain ⟨hi, rfl⟩ := List.getElem?_eq_some_iff.mp h
  exact List.set_getElem_self hi

/-- To read its document does not change an analyser. -/
theorem InPlace.before_eq (h : InPlace E σ) (i : Input) : σ.before E i = σ.core := by
  cases i with
  | py i k =>
      rw [Site.before]
      split
      next f hfind =>
        have hf := List.mem_of_find?_eq_some hfind
        have hstage : f.stage = .unread i := by
          simpa using List.find?_some hfind
        have hneeded : ∀ n, f.stage ≠ .read n := fun n hn => by rw [hstage] at hn; cases hn
        simp only [h.found_eq hf hneeded, set_of_getElem?_eq (h.unread f hf i hstage)]
      next => rfl
  | _ => rfl

/-- An analyser that has done nothing is as it was after every step but its own. -/
theorem keeps_proc_of_move {τ : State} {i : Input} {r : State × List Obs} {H : HashOrder}
    (h : Move H τ i r) {n : Nat} {s : SessionID} {u : Upload}
    (hp : τ.procs[n]? = some (Proc.start H s u)) (hi : ∀ k, i ≠ .py n k) :
    r.1.procs[n]? = some (Proc.start H s u) := by
  have hset : ∀ {m : Nat} {q q' : Proc}, τ.procs[m]? = some q → q ≠ Proc.start H s u →
      (τ.procs.set m q')[n]? = some (Proc.start H s u) := by
    intro m q q' hq hne
    have hmn : m ≠ n := by
      rintro rfl
      rw [hp] at hq
      exact hne (Option.some.inj hq).symm
    rw [List.getElem?_set_ne hmn, hp]
  cases h with
  | newSession _ => exact hp
  | refused _ => exact hp
  | connection _ _ _ => exact hp
  | disconnect _ => exact hp
  | land _ _ => exact hp
  | upload _ _ =>
      exact (List.getElem?_append_left (List.getElem?_eq_some_iff.mp hp).1).trans hp
  | @py m k q q' files hq hact =>
      have hmn : m ≠ n := fun heq => hi k (heq ▸ rfl)
      exact (List.getElem?_set_ne hmn).trans hp
  | formError _ _ => rw [handle_eq]; exact hp
  | callback _ _ => rw [handle_eq]; exact hp
  | stdout hq _ hpipe =>
      rw [handle_eq]
      exact hset hq fun heq => hpipe (by rw [heq]; rfl)
  | stderr hq _ herr =>
      rw [handle_eq]
      exact hset hq fun heq => herr (by rw [heq]; rfl)
  | close hq _ hdrained _ =>
      rw [handle_eq]
      refine hset hq fun heq => ?_
      obtain ⟨as, _, hacts⟩ := analyse_acts_main H s.text (u.filepath s) u.doc
      have htodo : (Proc.start H s u).todo = (analyse H s.text (u.filepath s) u.doc).acts := rfl
      rw [heq, Proc.drained, htodo, hacts] at hdrained
      cases hdrained

/-- A new content of a file that is none of the analysers'. -/
theorem Site.write_eq {p : Path} (h : outAt E.cwd p = none) (t : Text) :
    σ.write E p t = { σ with stored := Function.update σ.stored p (some t) } := by
  rw [Site.write, h]

/-- Forms whose places are those of forms that were there, with what was received of them,
are in place. -/
theorem InPlace.places (h : InPlace E σ) {fs : List Form}
    (hback : ∀ (i : Nat) (g : Form) (p : Path), fs[i]? = some g → g.place E = some p →
      ∃ f, σ.forms[i]? = some f ∧ f.place E = some p ∧ g.body = f.body) :
    (∀ g ∈ fs, ∀ p, g.place E = some p → outAt E.cwd p = none ∧ σ.stored p = some g.body) ∧
      ∀ (i j : Nat) (f g : Form) (p : Path), fs[i]? = some f → fs[j]? = some g →
        f.place E = some p → g.place E = some p → i = j := by
  constructor
  · intro g hg p hp
    obtain ⟨i, hi⟩ := List.mem_iff_getElem?.mp hg
    obtain ⟨f, hf, hplace, hbody⟩ := hback i g p hi hp
    rw [hbody]
    exact h.stored f (List.mem_of_getElem? hf) p hplace
  · intro i j f g p hi hj hp hp'
    obtain ⟨x, hx, hxp, _⟩ := hback i f p hi hp
    obtain ⟨y, hy, hyp, _⟩ := hback j g p hj hp'
    exact h.apart i j x y p hx hy hxp hyp

/-- The file of a form is begun or goes on. -/
theorem InPlace.store (h : InPlace E σ) {j : Nat} {f f' : Form} {p : Path} {t : Text}
    (hf : σ.forms[j]? = some f) (hstage : f.stage = .receiving) (hstage' : f'.stage = .receiving)
    (hplace : f'.place E = some p) (hbody : f'.body = t) (hout : outAt E.cwd p = none)
    (hfree : ∀ (i : Nat) (g : Form), σ.forms[i]? = some g → i ≠ j → g.place E ≠ some p) :
    InPlace E { σ with
      stored := Function.update σ.stored p (some t)
      forms := σ.forms.set j f' } := by
  constructor
  · intro g hg q hq
    obtain ⟨i, hi⟩ := List.mem_iff_getElem?.mp hg
    cases getElem?_set_cases hi with
    | inl hnew =>
        obtain ⟨rfl, rfl⟩ := hnew
        cases hplace.symm.trans hq
        exact ⟨hout, by rw [hbody]; exact Function.update_self _ _ _⟩
    | inr hold =>
        have hne : q ≠ p := fun heq => hfree i g hold.2 hold.1.symm (heq ▸ hq)
        obtain ⟨hother, hsame⟩ := h.stored g (List.mem_of_getElem? hold.2) q hq
        exact ⟨hother, (Function.update_of_ne hne _ _).trans hsame⟩
  · intro i k g g' q hi hk hq hq'
    cases getElem?_set_cases hi with
    | inl hnew =>
        cases getElem?_set_cases hk with
        | inl hnew' => exact hnew.1.symm.trans hnew'.1
        | inr hold' =>
            obtain ⟨rfl, rfl⟩ := hnew
            cases hplace.symm.trans hq
            exact absurd hq' (hfree k g' hold'.2 hold'.1.symm)
    | inr hold =>
        cases getElem?_set_cases hk with
        | inl hnew' =>
            obtain ⟨rfl, rfl⟩ := hnew'
            cases hplace.symm.trans hq'
            exact absurd hq (hfree i g hold.2 hold.1.symm)
        | inr hold' => exact h.apart i k g g' q hold.2 hold'.2 hq hq'
  · intro g hg i hi
    cases mem_set_cases hg with
    | inl heq =>
        rw [heq, hstage'] at hi
        cases hi
    | inr hold => exact h.unread g hold i hi
  · intro p hp
    refine exists_mem_set hf (fun hh => ?_) (h.procs p hp)
    exact absurd hstage hh.1

/-- A form that is posted has no file. -/
theorem InPlace.form (h : InPlace E σ) (s : SessionID) :
    InPlace E { σ with forms := σ.forms ++ [⟨s, none, [], .receiving⟩] } := by
  have hback : ∀ (i : Nat) (g : Form) (p : Path),
      (σ.forms ++ [⟨s, none, [], .receiving⟩])[i]? = some g → g.place E = some p →
      ∃ f, σ.forms[i]? = some f ∧ f.place E = some p ∧ g.body = f.body := by
    intro i g p hi hp
    cases getElem?_concat_cases hi with
    | inl hold => exact ⟨g, hold, hp, rfl⟩
    | inr hlast =>
        rw [hlast.2] at hp
        cases hp
  obtain ⟨hstored, hapart⟩ := h.places hback
  refine ⟨hstored, hapart, ?_, ?_⟩
  · intro g hg i hi
    cases List.mem_append.mp hg with
    | inl hold => exact h.unread g hold i hi
    | inr hlast =>
        rw [List.mem_singleton.mp hlast] at hi
        cases hi
  · intro p hp
    obtain ⟨g, hg, hh⟩ := h.procs p hp
    exact ⟨g, List.mem_append_left _ hg, hh⟩

/-- A form that has ended starts the analyser with what it has received. -/
theorem InPlace.formEnd (h : InPlace E σ) {j : Nat} {f : Form} (hf : σ.forms[j]? = some f)
    (hstage : f.stage = .receiving) :
    InPlace E { σ with
      core := { σ.core with
        procs := σ.core.procs ++ [Proc.start E.order f.session (f.upload E)] }
      forms := σ.forms.set j { f with stage := .unread σ.core.procs.length } } := by
  have hplace : ∀ n, Form.place E { f with stage := .unread n } = f.place E := by
    intro n
    simp only [Form.place, hstage]
  have hback : ∀ (i : Nat) (g : Form) (p : Path),
      (σ.forms.set j { f with stage := .unread σ.core.procs.length })[i]? = some g →
      g.place E = some p → ∃ g', σ.forms[i]? = some g' ∧ g'.place E = some p ∧ g.body = g'.body := by
    intro i g p hi hp
    cases getElem?_set_cases hi with
    | inl hnew =>
        obtain ⟨rfl, rfl⟩ := hnew
        exact ⟨f, hf, (hplace _).symm.trans hp, rfl⟩
    | inr hold => exact ⟨g, hold.2, hp, rfl⟩
  obtain ⟨hstored, hapart⟩ := h.places hback
  refine ⟨hstored, hapart, ?_, ?_⟩
  · intro g hg i hi
    cases mem_set_cases hg with
    | inl heq =>
        subst heq
        cases hi
        exact List.getElem?_concat_length
    | inr hold =>
        have hp := h.unread g hold i hi
        exact (List.getElem?_append_left (List.getElem?_eq_some_iff.mp hp).1).trans hp
  · intro p hp
    cases List.mem_append.mp hp with
    | inl hold =>
        refine exists_mem_set hf (fun hh => ?_) (h.procs p hold)
        exact absurd hstage hh.1
    | inr hnew =>
        rw [List.mem_singleton.mp hnew]
        refine ⟨_, List.mem_iff_getElem?.mpr ⟨j, getElem?_set_eq hf⟩, nofun, rfl, rfl⟩

/-- What a form keeps when its analyser begins. -/
structure Form.Follows (E : Host) (i : Input) (f g : Form) : Prop where
  session : g.session = f.session
  upload : g.upload E = f.upload E
  body : g.body = f.body
  ended : f.stage ≠ .receiving → g.stage ≠ .receiving
  place : ∀ p, g.place E = some p → f.place E = some p
  unread : ∀ n, g.stage = .unread n → f.stage = .unread n ∧ ∀ k, i ≠ .py n k

theorem Form.follows_after (i : Input) (f : Form) : f.Follows E i (f.after i) := by
  cases i with
  | py m k =>
      rw [Form.after]
      split
      next hs =>
        refine ⟨rfl, rfl, rfl, fun _ => nofun, fun p hp => ?_, fun n hn => ?_⟩
        · cases hp
        · cases hn
      next hs =>
        refine ⟨rfl, rfl, rfl, id, fun p hp => hp, fun n hn => ⟨hn, ?_⟩⟩
        rintro k' heq
        cases heq
        exact hs hn
  | _ => exact ⟨rfl, rfl, rfl, id, fun p hp => hp, fun n hn => ⟨hn, fun _ => nofun⟩⟩

/-- A step of the server and its analysers. -/
theorem InPlace.core (h : InPlace E σ) {i : Input} {r : State × List Obs}
    (hi : i.isUpload = false) (hmove : Move E.order σ.core i r) :
    InPlace E { σ with core := r.1, forms := σ.forms.map (Form.after i) } := by
  have hfollows := Form.follows_after (E := E) i
  have hback : ∀ (j : Nat) (g : Form) (p : Path), (σ.forms.map (Form.after i))[j]? = some g →
      g.place E = some p → ∃ f, σ.forms[j]? = some f ∧ f.place E = some p ∧ g.body = f.body := by
    intro j g p hj hp
    rw [List.getElem?_map] at hj
    obtain ⟨f, hf, rfl⟩ := Option.map_eq_some_iff.mp hj
    exact ⟨f, hf, (hfollows f).place p hp, (hfollows f).body⟩
  obtain ⟨hstored, hapart⟩ := h.places hback
  refine ⟨hstored, hapart, ?_, ?_⟩
  · intro g hg n hn
    obtain ⟨f, hf, rfl⟩ := List.mem_map.mp hg
    obtain ⟨hstage, hother⟩ := (hfollows f).unread n hn
    rw [(hfollows f).session, (hfollows f).upload]
    exact keeps_proc_of_move hmove (h.unread f hf n hstage) hother
  · intro p hp
    cases upload_of_move hmove hp with
    | inl hold =>
        obtain ⟨q, hq, hqs, hqu⟩ := hold
        obtain ⟨f, hf, hstage, hs, hu⟩ := h.procs q hq
        exact ⟨_, List.mem_map_of_mem hf, (hfollows f).ended hstage,
          (hfollows f).session.trans (hs.trans hqs), (hfollows f).upload.trans (hu.trans hqu)⟩
    | inr hnew =>
        rw [hnew] at hi
        cases hi

/-! ## The site as a server -/

/-- The input as it reaches the server, if it does. -/
def Site.coreInput (E : Host) (σ : Site) : SiteInput → Option Input
  | .formEnd j => σ.forms[j]?.map fun f => .upload f.session (f.upload E)
  | .core i => some i
  | .form _ | .fileBegin _ _ | .receive _ _ => none

/-- The server is in the state that it has on the site, where the files are in place. -/
def OnSite (E : Host) (σ : Site) (τ : State) : Prop := σ.core = τ ∧ InPlace E σ

variable {ok : State → Input → Prop}

theorem OnSite.stutter {τ : State} {i : SiteInput} {r : Site × List Obs} (h : OnSite E σ τ)
    (hok : Undisturbed E ok σ i) (hmove : SiteMove E σ i r) (hi : σ.coreInput E i = none) :
    OnSite E r.1 τ ∧ r.2 = [] := by
  obtain ⟨rfl, hplace⟩ := h
  cases hmove with
  | form _ _ => exact ⟨⟨rfl, hplace.form _⟩, rfl⟩
  | @fileBegin j name f hf _ hstage =>
      obtain ⟨hbelow, hfree⟩ := hok f hf
      have hout := outAt_of_below hbelow
      rw [Site.write_eq hout]
      refine ⟨⟨rfl, hplace.store hf hstage hstage (Form.place_eq rfl ?_) rfl hout ?_⟩, rfl⟩
      · intro n hn
        rw [hstage] at hn
        cases hn
      · exact fun i g hg hne => hfree g (List.mem_eraseIdx_iff_getElem?.mpr ⟨i, hne, hg⟩)
  | @receive j t name f hf hname _ hstage =>
      have hneeded : ∀ n, f.stage ≠ .read n := fun n hn => by rw [hstage] at hn; cases hn
      have hp := Form.place_eq (E := E) hname hneeded
      obtain ⟨hout, hstored⟩ := hplace.stored f (List.mem_of_getElem? hf) _ hp
      have hcontent : σ.content E (E.place f.session name) = some f.body := by
        rw [Site.content, hout, hstored]
      rw [Site.write_eq hout, hcontent, Option.getD_some, writeAt_length]
      refine ⟨⟨rfl, hplace.store hf hstage hstage hp rfl hout fun i g hg hne hpg => ?_⟩, rfl⟩
      exact hne (hplace.apart i j g f _ hg hf hpg hp)
  | formEnd hf _ _ =>
      rw [Site.coreInput, hf] at hi
      cases hi
  | core _ _ => cases hi

theorem OnSite.move {τ : State} {i : SiteInput} {k : Input} {r : Site × List Obs}
    (h : OnSite E σ τ) (hok : Undisturbed E ok σ i) (hmove : SiteMove E σ i r)
    (hi : σ.coreInput E i = some k) :
    ok τ k ∧ step E.order τ k = some (r.1.core, r.2) ∧ InPlace E r.1 := by
  obtain ⟨rfl, hplace⟩ := h
  cases hmove with
  | form _ _ => cases hi
  | fileBegin _ _ _ => cases hi
  | receive _ _ _ _ => cases hi
  | @formEnd j f r hf hstage hstep =>
      rw [Site.coreInput, hf] at hi
      cases hi
      have hneeded : ∀ n, f.stage ≠ .read n := fun n hn => by rw [hstage] at hn; cases hn
      have hfound := hplace.found_eq (List.mem_of_getElem? hf) hneeded
      have hguard := hok f hf
      rw [hfound] at hstep hguard
      refine ⟨hguard, hstep, ?_⟩
      cases move_of_step hstep with
      | upload _ _ => exact hplace.formEnd hf hstage
  | core hother hstep =>
      cases hi
      rw [hplace.before_eq] at hstep
      exact ⟨hok, hstep, hplace.core hother (move_of_step hstep)⟩

variable (E ok)

/-- A site whose uploads are not disturbed is simulated by a server that is given, at the
end of each form, the document of what the form has received. -/
def siteRun : Simulation (site E) (Undisturbed E ok) (machine E.order) ok Obs where
  rel := OnSite E
  input := Site.coreInput E
  seen := some
  seen' := some
  init := ⟨rfl, inPlace_initial⟩
  stutter := fun h hok hstep hi => by
    obtain ⟨hrel, hquiet⟩ := h.stutter hok (siteMove_of_step hstep) hi
    exact ⟨hrel, by rw [hquiet]; rfl⟩
  move := fun h hok hstep hi => by
    obtain ⟨hok', hstep', hplace⟩ := h.move hok (siteMove_of_step hstep) hi
    exact ⟨hok', _, hstep', ⟨rfl, hplace⟩, rfl⟩

variable {E ok}

/-- The server of a site whose uploads are not disturbed is in a state that it reaches by
itself, and the files are in place. -/
theorem core_of_reach (h : (site E).Reach (Undisturbed E ok) σ) :
    (machine E.order).Reach ok σ.core ∧ InPlace E σ := by
  obtain ⟨τ, hτ, rfl, hplace⟩ := (siteRun E ok).reach_matched h
  exact ⟨hτ, hplace⟩

/-- A step of the server that is no upload is one of the site. -/
theorem site_step_of_step {τ : State} {i : Input} {q : State × List Obs} (h : OnSite E σ τ)
    (hi : i.isUpload = false) (hok : ok τ i) (hstep : step E.order τ i = some q) :
    Undisturbed E ok σ (.core i) ∧
      ∃ σ', (site E).step σ (.core i) = some (σ', q.2) ∧ OnSite E σ' q.1 := by
  obtain ⟨rfl, hplace⟩ := h
  refine ⟨hok, _, ?_, rfl, hplace.core hi (move_of_step hstep)⟩
  change Site.step E σ (.core i) = _
  rw [step_core hi, hplace.before_eq, hstep]
  rfl

/-- A run of the server without uploads is one of the site. -/
theorem site_exec_of_exec [∀ σ i, Decidable (ok σ i)] {is : List Input} {q : State × List Obs}
    (h : InPlace E σ) (his : ∀ i ∈ is, i.isUpload = false)
    (hrun : (machine E.order).exec ok σ.core is = some q) :
    ∃ σ', (site E).exec (Undisturbed E ok) σ (is.map .core) = some (σ', q.2) ∧ σ'.core = q.1 ∧
      InPlace E σ' := by
  have hlifted : ∃ σ', (site E).exec (Undisturbed E ok) σ (is.map .core) = some (σ', q.2) ∧
      OnSite E σ' q.1 :=
    Simulation.exec_lifted SiteInput.core site_step_of_step ⟨rfl, h⟩ his hrun
  obtain ⟨σ', hexec, hcore, hplace⟩ := hlifted
  exact ⟨σ', hexec, hcore, hplace⟩

/-- A run of the site on inputs of the server is a run of the server. -/
theorem exec_of_site_exec [∀ σ i, Decidable (ok σ i)] {is : List Input} {r : Site × List Obs}
    (h : InPlace E σ)
    (hrun : (site E).exec (Undisturbed E ok) σ (is.map .core) = some r) :
    (machine E.order).exec ok σ.core is = some (r.1.core, r.2) := by
  have hstart : (siteRun E ok).rel σ σ.core := ⟨rfl, h⟩
  obtain ⟨q, hq, ⟨hcore, _⟩, hseen⟩ := (siteRun E ok).exec_matched hstart hrun
  have hobs : q.2 = r.2 := List.filterMap_some.symm.trans (hseen.trans List.filterMap_some)
  rw [(siteRun E ok).inputsOf_map (fun _ _ => rfl) hrun] at hq
  rw [hcore, ← hobs]
  exact hq

variable (E ok) in
/-- The inputs that the server gets along a run of the site. -/
def coreInputs (is : List SiteInput) : List Input := (siteRun E ok).inputsOf Site.initial is

theorem core_of_exec [∀ σ i, Decidable (ok σ i)] {is : List SiteInput} {r : Site × List Obs}
    (h : (site E).exec (Undisturbed E ok) Site.initial is = some r) :
    (machine E.order).exec ok State.initial (coreInputs E ok is) = some (r.1.core, r.2) ∧
      InPlace E r.1 := by
  obtain ⟨q, hq, ⟨hcore, hplace⟩, hseen⟩ := (siteRun E ok).exec_matched (siteRun E ok).init h
  have hobs : q.2 = r.2 := List.filterMap_some.symm.trans (hseen.trans List.filterMap_some)
  refine ⟨?_, hplace⟩
  rw [hcore, ← hobs]
  exact hq

/-! ## A sample -/

/-- A message on a page of an archive. -/
def messageHtml (sender text : String) : Text :=
  "<div class=\"message message_header\"><span class=\"user\">".toList ++ sender.toList ++
    "</span><span class=\"meta\">Thursday, January 16, 2014 at 9:15pm EST</span></div><p>".toList ++
    text.toList ++ "</p>".toList

/-- A page with one thread. -/
def pageHtml (messages : List Text) : Text :=
  "<html><body><div class=\"thread\">".toList ++ messages.flatten ++
    "</div></body></html>".toList

/-- The page of the sample document. -/
def samplePage : Text := pageHtml [messageHtml "Friend1" "This is the first message"]

/-- A page with two messages. -/
def longerPage : Text :=
  pageHtml [messageHtml "Friend2" "Hello", messageHtml "Friend2" "Good bye"]

/-- A host with what pyquery makes of these pages.  It refuses an empty file. -/
def sampleHost : Host where
  order := .insertion
  cwd := ["srv".toList]
  pyquery := fun content =>
    if content = some samplePage then
      .ok (rawDocument [[sampleMessage "Friend1" "This is the first message"]])
    else if content = some longerPage then
      .ok (rawDocument [[sampleMessage "Friend2" "Hello", sampleMessage "Friend2" "Good bye"]])
    else .error .xmlError

theorem pyquery_samplePage : sampleHost.pyquery (some samplePage) =
    .ok (rawDocument [[sampleMessage "Friend1" "This is the first message"]]) := by
  simp only [sampleHost, if_true]

/-- The form `j` of a session, with one page. -/
def pageForm (j : Nat) (s : SessionID) (page : Text) : List SiteInput :=
  [.form s, .fileBegin j "messages.htm".toList, .receive j page, .formEnd j]

end Server
