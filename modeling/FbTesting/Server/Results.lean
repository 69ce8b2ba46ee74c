import FbTesting.Analyser.Outcome
import FbTesting.Server.Store
import FbTesting.Server.Uploads

/-!
# The results of several uploads

All analysers of a session write the same three files, each at its own position
and after truncating the file for itself.  When the uploads of a session do not
overlap (`Separate`), there is at most one analyser of the session at work.  What
it has done so far is described by `Phase`: the files before the current one hold
its results, the current one a part of them, and those after it what was there
before.  So each file always holds a part of the results of one upload, from the
beginning, and such a part is JSON only if it is the whole.

Without threads a document leaves its analyser with a first file but no charts,
and `Separate` excludes it.  So does a flush that fails between the files, when the
server has ended.

On a site whose uploads are not disturbed the documents are those of the files that
the forms have received (`results_of_separate_uploads`).
-/

namespace Server

open Base Node Analyser

section

variable (H : HashOrder)

/-- The results of an upload, if it has any. -/
def Upload.results (s : SessionID) (u : Upload) : Option Results :=
  Analyser.results H s.text (u.filepath s) u.doc

/-- An upload that was made in the session has these results. -/
def State.HasResults (σ : State) (s : SessionID) (r : Results) : Prop :=
  ∃ p ∈ σ.procs, p.session = s ∧ p.upload.results H s = some r

/-- The files are all absent or all the results of one upload of the session. -/
def State.Uniform (σ : State) (s : SessionID) (files : OutFile → Option Text) : Prop :=
  (∀ f, files f = none) ∨ ∃ r, σ.HasResults H s r ∧ ∀ f, files f = some (r.text f)

end

/-- The document was not read, or it has threads. -/
def Upload.hasThreads (u : Upload) : Bool :=
  match u.doc with
  | .ok [] => false
  | _ => true

/-- All analysers of the session have ended. -/
def State.Ended (σ : State) (s : SessionID) : Prop := ∀ p ∈ σ.procs, p.session = s → p.todo = []

instance (σ : State) (s : SessionID) : Decidable (σ.Ended s) :=
  inferInstanceAs (Decidable (∀ p ∈ _, _ → _))

/-- The next act is a flush that fails, since the server has ended. -/
def Proc.Breaks (p : Proc) (alive : Bool) : Prop :=
  alive = false ∧ p.todo.head? = some .flush ∧ p.buffer ≠ []

/-- The files that are still to be opened. -/
def Proc.unopened (p : Proc) : List OutFile := outFiles.filter fun f => .open f ∈ p.todo

/-- The analyser is about to be cut off with some of its files written and some not. -/
def Proc.CutOff (p : Proc) (alive : Bool) : Prop :=
  p.Breaks alive ∧ p.unopened ≠ [] ∧ p.unopened ≠ outFiles

instance (p : Proc) (alive : Bool) : Decidable (p.CutOff alive) :=
  inferInstanceAs (Decidable ((_ ∧ _ ∧ _) ∧ _ ∧ _))

/-- An upload ends only when the analysers of its session have, and its document
has threads if the analyser accepts its name.  No analyser is cut off between its
files, unless `cuts` allows it. -/
def Separate (cuts : Bool) (σ : State) : Input → Prop
  | .upload s u => σ.Ended s ∧ (isHtmlPath (u.filepath s) = true → u.hasThreads = true)
  | .py i _ => cuts = false → ∀ p ∈ σ.procs[i]?, ¬p.CutOff σ.alive
  | _ => True

instance (cuts : Bool) (σ : State) (i : Input) : Decidable (Separate cuts σ i) :=
  match i with
  | .upload _ _ => inferInstanceAs (Decidable (_ ∧ _))
  | .py i _ => inferInstanceAs (Decidable (cuts = false → ∀ p ∈ σ.procs[i]?, _))
  | .newSession _ | .handshake _ _ | .disconnect _ | .callback _ | .formError _ _
  | .stdout _ _ | .stderr _ | .close _ | .land _ => isTrue trivial

/-! ## An analyser at work -/

/-- What an analyser with results `r` has done to the files, of which `old` is
what they held before: what is still to be done, and the position in the open
file. -/
inductive Phase (r : Results) (old : OutFile → Option Text) :
    List Act → Nat → (OutFile → Option Text) → Prop where
  /-- Between two files. -/
  | between {done rest : List OutFile} {todo : List Act} {offset : Nat}
      {files : OutFile → Option Text} : done ++ rest = outFiles →
      (∀ f ∈ done, files f = some (r.text f)) → (∀ f ∈ rest, files f = old f) →
      Plan r rest todo → Phase r old todo offset files
  /-- In the middle of a file. -/
  | writing {done rest : List OutFile} {f : OutFile} {c t : Text} {todo : List Act}
      {files : OutFile → Option Text} : done ++ f :: rest = outFiles →
      (∀ g ∈ done, files g = some (r.text g)) → (∀ g ∈ rest, files g = old g) →
      files f = some c → c ++ t = r.text f → Plan r rest todo →
      Phase r old (.write f t :: .close f :: todo) c.length files
  /-- At the end of a file. -/
  | closing {done rest : List OutFile} {f : OutFile} {todo : List Act} {offset : Nat}
      {files : OutFile → Option Text} : done ++ f :: rest = outFiles →
      (∀ g ∈ done, files g = some (r.text g)) → (∀ g ∈ rest, files g = old g) →
      files f = some (r.text f) → Plan r rest todo →
      Phase r old (.close f :: todo) offset files

/-- The first act of a plan is on no file, or it opens the next one. -/
theorem plan_cons_cases {r : Results} {fs : List OutFile} {a : Act} {todo : List Act}
    (h : Plan r fs (a :: todo)) :
    (a.onFile = false ∧ Plan r fs todo) ∨
      ∃ f rest after, fs = f :: rest ∧ a = .open f ∧
        todo = .write f (r.text f) :: .close f :: after ∧ Plan r rest after := by
  cases fs with
  | nil => exact Or.inl ⟨h a List.mem_cons_self, fun b hb => h b (List.mem_cons_of_mem a hb)⟩
  | cons f fs =>
      obtain ⟨before, after, hbefore, has, hafter⟩ := h
      cases before with
      | nil =>
          obtain ⟨rfl, rfl⟩ := List.cons.inj has
          exact Or.inr ⟨f, fs, after, rfl, rfl, rfl, hafter⟩
      | cons b before =>
          obtain ⟨rfl, rfl⟩ := List.cons.inj has
          refine Or.inl ⟨hbefore a List.mem_cons_self, before, after, fun c hc => ?_, rfl, hafter⟩
          exact hbefore c (List.mem_cons_of_mem a hc)

/-- A plan that is not finished has acts. -/
theorem eq_nil_of_plan_nil {r : Results} {fs : List OutFile} (h : Plan r fs []) : fs = [] := by
  cases fs with
  | nil => rfl
  | cons f fs =>
      obtain ⟨before, after, _, has, _⟩ := h
      cases before with
      | nil => cases has
      | cons b before => cases has

/-- An act that is on no file leaves the files.  It is the last one if it breaks. -/
theorem Proc.act_silent {p p' : Proc} {alive : Bool} {k : Nat}
    {files files' : OutFile → Option Text} {a : Act} {todo : List Act} (htodo : p.todo = a :: todo)
    (ha : a.onFile = false) (hact : p.act alive k files = some (p', files')) :
    files' = files ∧ (p'.todo = todo ∨ (p.Breaks alive ∧ p'.todo = [])) := by
  cases a with
  | flush =>
      obtain ⟨hfiles, rfl | ⟨hdead, hbuffer, rfl⟩⟩ := Proc.act_flush htodo hact
      · exact ⟨hfiles, Or.inl rfl⟩
      · refine ⟨hfiles, Or.inr ⟨⟨hdead, ?_, hbuffer⟩, rfl⟩⟩
        rw [htodo]
        rfl
  | stdout t =>
      rw [Proc.act, htodo] at hact
      cases hact
      exact ⟨rfl, Or.inl rfl⟩
  | stderr e =>
      rw [Proc.act, htodo] at hact
      cases hact
      exact ⟨rfl, Or.inl rfl⟩
  | «open» f => cases ha
  | write f t => cases ha
  | close f => cases ha

/-- A plan opens its files and no others. -/
theorem open_mem_plan {r : Results} {g : OutFile} : ∀ {fs : List OutFile} {todo : List Act},
    Plan r fs todo → (.open g ∈ todo ↔ g ∈ fs)
  | [], _, h => iff_of_false (fun hmem => by cases h _ hmem) List.not_mem_nil
  | f :: fs, _, ⟨before, after, hbefore, has, hafter⟩ => by
      have hnot : Act.open g ∉ before := fun hmem => by cases hbefore _ hmem
      have hacts : (dumpTo f (r.json f)).acts = [.open f, .write f (r.text f), .close f] := rfl
      rw [has, hacts]
      simp [hnot, open_mem_plan hafter]

/-- The files that are still to be opened are those that are planned. -/
theorem Proc.unopened_eq {r : Results} {p : Proc} {done rest : List OutFile}
    (hfiles : done ++ rest = outFiles) (h : Plan r rest p.todo) : p.unopened = rest := by
  have hnodup : (done ++ rest).Nodup := by
    rw [hfiles]
    decide
  have hdisjoint := (List.nodup_append.mp hnodup).2.2
  rw [Proc.unopened, ← hfiles, List.filter_append]
  have hdone : (done.filter fun f => decide (Act.open f ∈ p.todo)) = [] := by
    refine List.filter_eq_nil_iff.mpr fun f hf hmem => ?_
    exact hdisjoint f hf f ((open_mem_plan h).mp (of_decide_eq_true hmem)) rfl
  have hrest : (rest.filter fun f => decide (Act.open f ∈ p.todo)) = rest :=
    List.filter_eq_self.mpr fun f hf => decide_eq_true ((open_mem_plan h).mpr hf)
  rw [hdone, hrest, List.nil_append]

/-- A file of the list is not among those before and after it. -/
theorem not_mem_of_outFiles {done rest : List OutFile} {f : OutFile}
    (h : done ++ f :: rest = outFiles) : f ∉ done ∧ f ∉ rest := by
  have hnodup : (done ++ f :: rest).Nodup := by
    rw [h]
    decide
  have hparts := List.nodup_append.mp hnodup
  refine ⟨fun hf => ?_, (List.nodup_cons.mp hparts.2.1).1⟩
  exact hparts.2.2 f hf f List.mem_cons_self rfl

/-- An update of one file leaves the others. -/
theorem update_of_not_mem {gs : List OutFile} {f : OutFile} (hf : f ∉ gs)
    {files : OutFile → Option Text} {x : Option Text} {val : OutFile → Option Text}
    (h : ∀ g ∈ gs, files g = val g) : ∀ g ∈ gs, Function.update files f x g = val g := by
  intro g hg
  have hne : g ≠ f := fun heq => hf (heq ▸ hg)
  rw [Function.update_of_ne hne, h g hg]

variable {r : Results} {old files files' : OutFile → Option Text} {p p' : Proc} {alive : Bool}
  {k : Nat}

/-- An act of an analyser takes it from one phase to the next, or it breaks between two
files. -/
theorem Phase.act (h : Phase r old p.todo p.offset files)
    (hact : p.act alive k files = some (p', files')) :
    Phase r old p'.todo p'.offset files' ∨
      (p.Breaks alive ∧ p'.todo = [] ∧ files' = files ∧ ∃ done rest, done ++ rest = outFiles ∧
        (∀ f ∈ done, files f = some (r.text f)) ∧ (∀ f ∈ rest, files f = old f) ∧
        p.unopened = rest) := by
  generalize htodo : p.todo = todo at h
  generalize hoffset : p.offset = offset at h
  cases h with
  | @between done rest _ _ _ hfiles hdone hrest hplan =>
      cases todo with
      | nil =>
          rw [Proc.act, htodo] at hact
          cases hact
      | cons a todo =>
          cases plan_cons_cases hplan with
          | inl hsilent =>
              obtain ⟨hfl, hto | ⟨hbreaks, hto⟩⟩ := Proc.act_silent htodo hsilent.1 hact
              · rw [hto, hfl]
                exact Or.inl (.between hfiles hdone hrest hsilent.2)
              · rw [← htodo] at hplan
                exact Or.inr ⟨hbreaks, hto, hfl, done, rest, hfiles, hdone, hrest,
                  Proc.unopened_eq hfiles hplan⟩
          | inr hopen =>
              obtain ⟨f, rest', after, rfl, rfl, rfl, hafter⟩ := hopen
              rw [Proc.act, htodo] at hact
              cases hact
              obtain ⟨hfd, hfr⟩ := not_mem_of_outFiles hfiles
              have hrest' : ∀ g ∈ rest', files g = old g :=
                fun g hg => hrest g (List.mem_cons_of_mem f hg)
              exact Or.inl (Phase.writing (c := []) hfiles (update_of_not_mem hfd hdone)
                (update_of_not_mem hfr hrest') (Function.update_self _ _ _) rfl hafter)
  | @writing done rest f c t todo _ hfiles hdone hrest hcur htext hplan =>
      refine Or.inl ?_
      obtain ⟨hfd, hfr⟩ := not_mem_of_outFiles hfiles
      have hwrite : writeAt ((files f).getD []) p.offset (t.take (k + 1)) = c ++ t.take (k + 1) := by
        rw [hcur, hoffset]
        exact writeAt_length c _
      rw [Proc.act, htodo] at hact
      simp only [hwrite] at hact
      cases hact
      have hdone' := update_of_not_mem (x := some (c ++ t.take (k + 1))) hfd hdone
      have hrest' := update_of_not_mem (x := some (c ++ t.take (k + 1))) hfr hrest
      by_cases hlen : t.length ≤ k + 1
      · simp only [if_pos hlen]
        rw [List.take_of_length_le hlen, htext] at hdone' hrest' ⊢
        exact .closing hfiles hdone' hrest' (Function.update_self _ _ _) hplan
      · simp only [if_neg hlen]
        rw [hoffset, ← List.length_append]
        refine .writing hfiles hdone' hrest' (Function.update_self _ _ _) ?_ hplan
        rw [List.append_assoc, List.take_append_drop, htext]
  | @closing done rest f todo _ _ hfiles hdone hrest hcur hplan =>
      rw [Proc.act, htodo] at hact
      cases hact
      have happend : (done ++ [f]) ++ rest = outFiles := by rw [List.append_assoc]; exact hfiles
      refine Or.inl (.between happend (fun g hg => ?_) hrest hplan)
      cases List.mem_append.mp hg with
      | inl hmem => exact hdone g hmem
      | inr hmem => rw [List.mem_singleton.mp hmem, hcur]

/-! ## A session whose uploads do not overlap -/

/-- A file holds nothing, or the beginning of the results of one upload. -/
def State.HoldsPart (H : HashOrder) (σ : State) (s : SessionID) (f : OutFile)
    (content : Option Text) : Prop :=
  content = none ∨ ∃ r t, σ.HasResults H s r ∧ content = some t ∧ t <+: r.text f

section

variable (H : HashOrder)

/-- The analyser writes nothing more, or it is in some phase of writing its
results. -/
def State.Working (σ : State) (s : SessionID) (p : Proc) : Prop :=
  (Silent p.todo ∧ σ.Uniform H s (σ.files s.text)) ∨
    ∃ r old, p.upload.results H s = some r ∧ σ.Uniform H s old ∧
      Phase r old p.todo p.offset (σ.files s.text)

/-- Only one analyser of the session, if any, has something left to do, and it is
working in order. -/
inductive SessionOk (cuts : Bool) (σ : State) (s : SessionID) : Prop where
  | rest (ended : σ.Ended s) (uniform : σ.Uniform H s (σ.files s.text))
  | work {i : Nat} {p : Proc} (proc : σ.procs[i]? = some p) (session : p.session = s)
      (others : ∀ (j : Nat) (q : Proc), σ.procs[j]? = some q → q.session = s → j ≠ i →
        q.todo = [])
      (working : σ.Working H s p)
  /-- The last one was cut off when the server had ended. -/
  | cut (allowed : cuts = true) (dead : σ.alive = false) (ended : σ.Ended s)
      (parts : ∀ f, σ.HoldsPart H s f (σ.files s.text f))

end

variable {H : HashOrder} {cuts : Bool} {σ τ : State} {s : SessionID}

theorem mem_outFiles (f : OutFile) : f ∈ outFiles := by
  cases f <;> decide

/-- When the last analyser has ended, and was not cut off, the files are uniform. -/
theorem SessionOk.uniform (h : SessionOk H cuts σ s) (hcuts : cuts = true → σ.alive = true)
    (hended : σ.Ended s) : σ.Uniform H s (σ.files s.text) := by
  cases h with
  | rest _ huniform => exact huniform
  | cut hallowed hdead _ _ =>
      rw [hcuts hallowed] at hdead
      cases hdead
  | @work i p hp hs _ hworking =>
      have hmem := List.mem_of_getElem? hp
      have htodo := hended p hmem hs
      cases hworking with
      | inl hsilent => exact hsilent.2
      | inr hphase =>
          obtain ⟨r, old, hr, _, hph⟩ := hphase
          rw [htodo] at hph
          cases hph with
          | between hfiles hdone _ hplan =>
              rw [eq_nil_of_plan_nil hplan, List.append_nil] at hfiles
              refine Or.inr ⟨r, ⟨p, hmem, hs, hr⟩, fun f => hdone f ?_⟩
              rw [hfiles]
              exact mem_outFiles f

theorem State.Uniform.holdsPart {fs : OutFile → Option Text} (h : σ.Uniform H s fs) (f : OutFile) :
    σ.HoldsPart H s f (fs f) := by
  cases h with
  | inl hnone => exact Or.inl (hnone f)
  | inr hall =>
      obtain ⟨r, hr, hfs⟩ := hall
      exact Or.inr ⟨r, _, hr, hfs f, List.prefix_refl _⟩

theorem Phase.holdsPart {r : Results} {old fs : OutFile → Option Text} {todo : List Act}
    {offset : Nat} (h : Phase r old todo offset fs) (hr : σ.HasResults H s r)
    (hold : σ.Uniform H s old) (f : OutFile) : σ.HoldsPart H s f (fs f) := by
  have hwhole : ∀ {g}, fs g = some (r.text g) → σ.HoldsPart H s g (fs g) :=
    fun hg => Or.inr ⟨r, _, hr, hg, List.prefix_refl _⟩
  have holds : ∀ {g}, fs g = old g → σ.HoldsPart H s g (fs g) :=
    fun hg => by rw [hg]; exact hold.holdsPart _
  have hf := mem_outFiles f
  cases h with
  | between hfiles hdone hrest _ =>
      rw [← hfiles] at hf
      cases List.mem_append.mp hf with
      | inl hmem => exact hwhole (hdone f hmem)
      | inr hmem => exact holds (hrest f hmem)
  | @writing done rest g c t _ _ hfiles hdone hrest hcur htext _ =>
      rw [← hfiles] at hf
      cases List.mem_append.mp hf with
      | inl hmem => exact hwhole (hdone f hmem)
      | inr hmem =>
          cases List.mem_cons.mp hmem with
          | inl heq =>
              rw [heq]
              exact Or.inr ⟨r, c, hr, hcur, t, htext⟩
          | inr hafter => exact holds (hrest f hafter)
  | closing hfiles hdone hrest hcur _ =>
      rw [← hfiles] at hf
      cases List.mem_append.mp hf with
      | inl hmem => exact hwhole (hdone f hmem)
      | inr hmem =>
          cases List.mem_cons.mp hmem with
          | inl heq =>
              rw [heq]
              exact hwhole hcur
          | inr hafter => exact holds (hrest f hafter)

theorem SessionOk.holdsPart (h : SessionOk H cuts σ s) (f : OutFile) :
    σ.HoldsPart H s f (σ.files s.text f) := by
  cases h with
  | rest _ huniform => exact huniform.holdsPart f
  | cut _ _ _ hparts => exact hparts f
  | work hp hs _ hworking =>
      cases hworking with
      | inl hsilent => exact hsilent.2.holdsPart f
      | inr hphase =>
          obtain ⟨r, old, hr, hold, hph⟩ := hphase
          exact hph.holdsPart ⟨_, List.mem_of_getElem? hp, hs, hr⟩ hold f

/-! ## Steps that keep the session in order -/

/-- Results stay those of an upload. -/
def ResultsKept (H : HashOrder) (σ τ : State) (s : SessionID) : Prop :=
  ∀ r, σ.HasResults H s r → τ.HasResults H s r

theorem State.Uniform.mono (hk : ResultsKept H σ τ s) {fs : OutFile → Option Text}
    (h : σ.Uniform H s fs) : τ.Uniform H s fs := by
  cases h with
  | inl hnone => exact Or.inl hnone
  | inr hall =>
      obtain ⟨r, hr, hfs⟩ := hall
      exact Or.inr ⟨r, hk r hr, hfs⟩

theorem State.HoldsPart.mono (hk : ResultsKept H σ τ s) {f : OutFile} {content : Option Text}
    (h : σ.HoldsPart H s f content) : τ.HoldsPart H s f content := by
  cases h with
  | inl hnone => exact Or.inl hnone
  | inr hsome =>
      obtain ⟨r, t, hr, hc, ht⟩ := hsome
      exact Or.inr ⟨r, t, hk r hr, hc, ht⟩

/-- What an analyser has to do and where it is in its file decide how it is
working. -/
theorem State.Working.mono (hk : ResultsKept H σ τ s) (hfiles : τ.files s.text = σ.files s.text)
    {p q : Proc} (hu : q.upload = p.upload) (ht : q.todo = p.todo) (ho : q.offset = p.offset)
    (h : σ.Working H s p) : τ.Working H s q := by
  unfold State.Working at h ⊢
  rw [hu, ht, ho, hfiles]
  cases h with
  | inl hsilent => exact Or.inl ⟨hsilent.1, hsilent.2.mono hk⟩
  | inr hphase =>
      obtain ⟨r, old, hr, hold, hph⟩ := hphase
      exact Or.inr ⟨r, old, hr, hold.mono hk, hph⟩

/-- Steps that change neither the analysers nor the files. -/
theorem SessionOk.of_eq (h : SessionOk H cuts σ s) (hp : τ.procs = σ.procs)
    (hf : τ.files = σ.files) (hd : σ.alive = false → τ.alive = false) : SessionOk H cuts τ s := by
  have hk : ResultsKept H σ τ s := by
    intro r hr
    rwa [State.HasResults, hp]
  have hended : σ.Ended s → τ.Ended s := by
    intro he
    rw [State.Ended, hp]
    exact he
  cases h with
  | rest he hu => exact .rest (hended he) (by rw [hf]; exact hu.mono hk)
  | cut hc hdead he hparts =>
      exact .cut hc (hd hdead) (hended he) fun f => by rw [hf]; exact (hparts f).mono hk
  | @work i p hpi hs hothers hworking =>
      refine .work (i := i) (p := p) ?_ hs ?_ (hworking.mono hk (by rw [hf]) rfl rfl rfl)
      · rwa [hp]
      · rw [hp]
        exact hothers

/-- Steps that change an analyser, in the session only in what does not matter
here. -/
theorem SessionOk.set (h : SessionOk H cuts σ s) {i : Nat} {p q : Proc}
    (hpi : σ.procs[i]? = some p) (hp : τ.procs = σ.procs.set i q)
    (hf : τ.files s.text = σ.files s.text) (hd : σ.alive = false → τ.alive = false)
    (hsess : q.session = p.session)
    (hsame : p.session = s → q.upload = p.upload ∧ q.todo = p.todo ∧ q.offset = p.offset) :
    SessionOk H cuts τ s := by
  have hk : ResultsKept H σ τ s := by
    intro r hr
    rw [State.HasResults, hp]
    refine exists_mem_set hpi (fun hh => ?_) hr
    rw [hsess, (hsame hh.1).1]
    exact hh
  have hended : σ.Ended s → τ.Ended s := by
    intro he x hx hxs
    rw [hp] at hx
    cases mem_set_cases hx with
    | inl heq =>
        rw [heq, hsess] at hxs
        rw [heq, (hsame hxs).2.1]
        exact he p (List.mem_of_getElem? hpi) hxs
    | inr hmem => exact he x hmem hxs
  cases h with
  | rest he hu => exact .rest (hended he) (by rw [hf]; exact hu.mono hk)
  | cut hc hdead he hparts =>
      exact .cut hc (hd hdead) (hended he) fun f => by rw [hf]; exact (hparts f).mono hk
  | @work j w hw hs hothers hworking =>
      by_cases hij : i = j
      · subst hij
        rw [hpi] at hw
        cases hw
        obtain ⟨hup, htodo, hoff⟩ := hsame hs
        refine .work (i := i) (p := q) ?_ (by rw [hsess, hs]) ?_
          (hworking.mono hk hf hup htodo hoff)
        · rw [hp]
          exact getElem?_set_eq hpi
        · intro k x hx hxs hki
          rw [hp] at hx
          cases getElem?_set_cases hx with
          | inl heq => exact absurd heq.1.symm hki
          | inr hold => exact hothers k x hold.2 hxs hki
      · refine .work (i := j) (p := w) ?_ hs ?_ (hworking.mono hk hf rfl rfl rfl)
        · rw [hp, List.getElem?_set_ne hij, hw]
        · intro k x hx hxs hkj
          rw [hp] at hx
          cases getElem?_set_cases hx with
          | inl heq =>
              rw [heq.2, hsess] at hxs
              rw [heq.2, (hsame hxs).2.1]
              exact hothers i p hpi hxs hij
          | inr hold => exact hothers k x hold.2 hxs hkj

/-- The analyser that acts is the one that is at work. -/
theorem SessionOk.at_work (h : SessionOk H cuts σ s) {i : Nat} {p : Proc}
    (hpi : σ.procs[i]? = some p) (hs : p.session = s) (htodo : p.todo ≠ []) :
    (∀ (j : Nat) (q : Proc), σ.procs[j]? = some q → q.session = s → j ≠ i → q.todo = []) ∧
      σ.Working H s p := by
  cases h with
  | rest hended _ => exact absurd (hended p (List.mem_of_getElem? hpi) hs) htodo
  | cut _ _ hended _ => exact absurd (hended p (List.mem_of_getElem? hpi) hs) htodo
  | @work j w hw _ hothers hworking =>
      by_cases hij : i = j
      · subst hij
        rw [hpi] at hw
        cases hw
        exact ⟨hothers, hworking⟩
      · exact absurd (hothers i p hpi hs hij) htodo

/-- An analyser that breaks leaves its files uniform, or it is cut off. -/
theorem Proc.uniform_of_breaks {p : Proc} {r : Results} {old files : OutFile → Option Text}
    (hr : σ.HasResults H s r) (hold : σ.Uniform H s old) (hbreaks : p.Breaks σ.alive)
    (hfiles : ∃ done rest, done ++ rest = outFiles ∧ (∀ f ∈ done, files f = some (r.text f)) ∧
      (∀ f ∈ rest, files f = old f) ∧ p.unopened = rest) :
    σ.Uniform H s files ∨ p.CutOff σ.alive := by
  obtain ⟨done, rest, hall, hdone, hrest, hunopened⟩ := hfiles
  by_cases hnil : rest = []
  · rw [hnil, List.append_nil] at hall
    exact Or.inl (Or.inr ⟨r, hr, fun f => hdone f (hall ▸ mem_outFiles f)⟩)
  · by_cases hwhole : rest = outFiles
    · have hsame : files = old := funext fun f => hrest f (hwhole ▸ mem_outFiles f)
      exact Or.inl (hsame ▸ hold)
    · exact Or.inr ⟨hbreaks, hunopened ▸ hnil, hunopened ▸ hwhole⟩

/-- An analyser at work that acts is at work, or it is cut off. -/
theorem State.Working.act {p p' : Proc} (hworking : σ.Working H p.session p) (hmem : p ∈ σ.procs)
    {k : Nat} {files : OutFile → Option Text}
    (hact : p.act σ.alive k (σ.files p.session.text) = some (p', files))
    (hk : ResultsKept H σ τ p.session) (hself : τ.files p.session.text = files) :
    τ.Working H p.session p' ∨
      (p'.todo = [] ∧ p.CutOff σ.alive ∧ files = σ.files p.session.text) := by
  -- an analyser with nothing left to do
  have hquiet : p'.todo = [] → σ.Uniform H p.session files → τ.Working H p.session p' := by
    intro hto hu
    refine Or.inl ⟨?_, hself ▸ hu.mono hk⟩
    rw [hto]
    exact fun b hb => absurd hb List.not_mem_nil
  cases hworking with
  | inl hsilent =>
      refine Or.inl ?_
      cases htodo : p.todo with
      | nil => exact absurd htodo (Proc.act_todo_ne_nil hact)
      | cons a todo =>
          rw [htodo] at hsilent
          obtain ⟨hfl, hto | ⟨_, hto⟩⟩ :=
            Proc.act_silent htodo (hsilent.1 a List.mem_cons_self) hact
          · refine Or.inl ⟨?_, ?_⟩
            · rw [hto]
              exact fun b hb => hsilent.1 b (List.mem_cons_of_mem a hb)
            · rw [hself, hfl]
              exact hsilent.2.mono hk
          · exact hquiet hto (hfl ▸ hsilent.2)
  | inr hphase =>
      obtain ⟨r, old, hr, hold, hph⟩ := hphase
      cases hph.act hact with
      | inl hnext =>
          refine Or.inl (Or.inr ⟨r, old, ?_, hold.mono hk, hself ▸ hnext⟩)
          rw [(Proc.act_session hact).2]
          exact hr
      | inr hbroken =>
          obtain ⟨hbreaks, hto, hfl, hfiles⟩ := hbroken
          subst hfl
          exact (Proc.uniform_of_breaks ⟨p, hmem, rfl, hr⟩ hold hbreaks hfiles).imp (hquiet hto)
            fun hcut => ⟨hto, hcut, rfl⟩

/-- The act of an analyser of the session. -/
theorem SessionOk.py_own {p p' : Proc} (h : SessionOk H cuts σ p.session) {i k : Nat}
    {files : OutFile → Option Text} (hsep : Separate cuts σ (.py i k))
    (hpi : σ.procs[i]? = some p)
    (hact : p.act σ.alive k (σ.files p.session.text) = some (p', files))
    (hp : τ.procs = σ.procs.set i p') (ha : τ.alive = σ.alive)
    (hf : τ.files = Function.update σ.files p.session.text files) :
    SessionOk H cuts τ p.session := by
  obtain ⟨hsess, hup⟩ := Proc.act_session hact
  obtain ⟨hothers, hworking⟩ := h.at_work hpi rfl (Proc.act_todo_ne_nil hact)
  have hk : ResultsKept H σ τ p.session := by
    intro r hr
    rw [State.HasResults, hp]
    refine exists_mem_set hpi (fun hh => ?_) hr
    rw [hsess, hup]
    exact hh
  have hself : τ.files p.session.text = files := by
    rw [hf]
    exact Function.update_self _ _ _
  have hproc : τ.procs[i]? = some p' := by
    rw [hp]
    exact getElem?_set_eq hpi
  have hothers' : ∀ (j : Nat) (q : Proc), τ.procs[j]? = some q → q.session = p.session →
      j ≠ i → q.todo = [] := by
    intro j q hq hqs hji
    rw [hp] at hq
    cases getElem?_set_cases hq with
    | inl heq => exact absurd heq.1.symm hji
    | inr hold => exact hothers j q hold.2 hqs hji
  cases hworking.act (List.mem_of_getElem? hpi) hact hk hself with
  | inl hnext => exact .work hproc hsess hothers' hnext
  | inr hbroken =>
      obtain ⟨hto, hcut, hsame⟩ := hbroken
      cases cuts with
      | false => exact absurd hcut (hsep rfl p hpi)
      | true =>
          refine .cut rfl (ha.trans hcut.1.1) ?_ fun f => ?_
          · intro q hq hqs
            obtain ⟨j, hj⟩ := List.mem_iff_getElem?.mp hq
            by_cases hji : j = i
            · rw [hji, hproc] at hj
              cases hj
              exact hto
            · exact hothers' j q hj hqs hji
          · rw [hself, hsame]
            exact (h.holdsPart f).mono hk

/-- The act of an analyser. -/
theorem sessionOk_py (h : SessionOk H cuts σ s) {i k : Nat} {p p' : Proc}
    {files : OutFile → Option Text} (hsep : Separate cuts σ (.py i k))
    (hpi : σ.procs[i]? = some p)
    (hact : p.act σ.alive k (σ.files p.session.text) = some (p', files))
    (hp : τ.procs = σ.procs.set i p') (ha : τ.alive = σ.alive)
    (hf : τ.files = Function.update σ.files p.session.text files) : SessionOk H cuts τ s := by
  by_cases hs : p.session = s
  · subst hs
    exact h.py_own hsep hpi hact hp ha hf
  · have hkey : s.text ≠ p.session.text := fun heq => hs (SessionID.ext heq).symm
    refine h.set hpi hp ?_ (fun hd => ha.trans hd) (Proc.act_session hact).1 fun heq => absurd heq hs
    rw [hf]
    exact Function.update_of_ne hkey _ _

/-- The analyser of a new upload begins with what is there. -/
theorem working_start {u : Upload} (hdoc : isHtmlPath (u.filepath s) = true → u.hasThreads = true)
    (h : σ.Uniform H s (σ.files s.text)) : σ.Working H s (Proc.start H s u) := by
  have hne : isHtmlPath (u.filepath s) = true → u.doc ≠ .ok [] := by
    intro hpath heq
    have hthreads := hdoc hpath
    rw [Upload.hasThreads, heq] at hthreads
    cases hthreads
  cases analyse_acts H s.text (u.filepath s) u.doc hne with
  | inl hsilent => exact Or.inl ⟨hsilent, h⟩
  | inr hplan =>
      obtain ⟨r, hr, hp⟩ := hplan
      have hnone : [] ++ outFiles = outFiles := rfl
      refine Or.inr ⟨r, σ.files s.text, hr, h, .between hnone ?_ (fun _ _ => rfl) hp⟩
      intro f hf
      cases hf

/-- An upload whose session is at rest. -/
theorem sessionOk_upload {t : SessionID} {u : Upload} (ha : σ.alive = true)
    (h : SessionOk H cuts σ s) (hsep : Separate cuts σ (.upload t u)) :
    SessionOk H cuts { σ with procs := σ.procs ++ [Proc.start H t u] } s := by
  have hk : ResultsKept H σ { σ with procs := σ.procs ++ [Proc.start H t u] } s := by
    intro r hr
    obtain ⟨p, hp, hh⟩ := hr
    exact ⟨p, List.mem_append_left _ hp, hh⟩
  by_cases hts : t = s
  · subst hts
    have hworking := working_start (H := H) hsep.2 (h.uniform (fun _ => ha) hsep.1)
    refine .work (i := σ.procs.length) (p := Proc.start H t u) (by simp) rfl ?_
      (hworking.mono hk rfl rfl rfl rfl)
    intro j q hq hqs hj
    cases getElem?_concat_cases hq with
    | inl hold => exact hsep.1 q (List.mem_of_getElem? hold) hqs
    | inr hnew => exact absurd hnew.1 hj
  · cases h with
    | cut _ hdead _ _ =>
        rw [ha] at hdead
        cases hdead
    | rest hended huniform =>
        refine .rest ?_ (huniform.mono hk)
        intro q hq hqs
        cases List.mem_append.mp hq with
        | inl hold => exact hended q hold hqs
        | inr hnew =>
            rw [List.mem_singleton.mp hnew] at hqs
            exact absurd hqs hts
    | @work i p hp hs hothers hworking =>
        refine .work (i := i) (p := p) ?_ hs ?_ (hworking.mono hk rfl rfl rfl rfl)
        · exact (List.getElem?_append_left (List.getElem?_eq_some_iff.mp hp).1).trans hp
        · intro j q hq hqs hj
          cases getElem?_concat_cases hq with
          | inl hold => exact hothers j q hold hqs hj
          | inr hnew =>
              rw [hnew.2] at hqs
              exact absurd hqs hts

/-- In a run whose uploads do not overlap every session is in order. -/
theorem sessionOk_of_reach (h : (machine H).Reach (Separate cuts) σ) :
    ∀ s, SessionOk H cuts σ s := by
  refine System.Reach.invariant (fun σ => ∀ s, SessionOk H cuts σ s) ?_ ?_ h
  · intro s
    exact .rest (fun p hp => absurd hp List.not_mem_nil) (Or.inl fun _ => rfl)
  intro σ i r hσ hsep hstep s
  have hmove := move_of_step hstep
  have hdead : σ.alive = false → r.1.alive = false := fun hd =>
    Bool.eq_false_iff.mpr fun ha => Bool.eq_false_iff.mp hd (alive_of_move hmove ha)
  cases hmove with
  | newSession _ => exact (hσ s).of_eq rfl rfl hdead
  | refused _ => exact (hσ s).of_eq rfl rfl hdead
  | connection _ _ _ => exact (hσ s).of_eq rfl rfl hdead
  | disconnect _ => exact (hσ s).of_eq rfl rfl hdead
  | land _ _ => exact (hσ s).of_eq rfl rfl hdead
  | upload ha _ => exact sessionOk_upload ha (hσ s) hsep
  | py hp hact => exact sessionOk_py (hσ s) hsep hp hact rfl rfl rfl
  | formError _ _ => rw [handle_eq] at hdead ⊢; exact (hσ s).of_eq rfl rfl hdead
  | callback _ _ => rw [handle_eq] at hdead ⊢; exact (hσ s).of_eq rfl rfl hdead
  | stdout hp _ _ =>
      rw [handle_eq] at hdead ⊢
      exact (hσ s).set hp rfl rfl hdead rfl fun _ => ⟨rfl, rfl, rfl⟩
  | stderr hp _ _ =>
      rw [handle_eq] at hdead ⊢
      exact (hσ s).set hp rfl rfl hdead rfl fun _ => ⟨rfl, rfl, rfl⟩
  | close hp _ _ _ =>
      rw [handle_eq] at hdead ⊢
      exact (hσ s).set hp rfl rfl hdead rfl fun _ => ⟨rfl, rfl, rfl⟩

/-! ## What is read and sent -/

/-- What was read of a session's files is a part of the results of one upload. -/
def ReadsParts (H : HashOrder) (σ : State) : Prop :=
  ∀ x ∈ σ.landed, ∀ s : SessionID, x.1.key = s.text → σ.HoldsPart H s x.1.file x.2

theorem readsParts_of_reach (h : (machine H).Reach (Separate cuts) σ) : ReadsParts H σ := by
  refine System.Reach.invariant_of (fun σ => ∀ s, SessionOk H cuts σ s) (ReadsParts H)
    sessionOk_of_reach (fun x hx => absurd hx List.not_mem_nil) ?_ h
  intro σ i r hok hσ _ hstep x hx s hkey
  have hmove := move_of_step hstep
  have hk : ResultsKept H σ r.1 s := fun res hres =>
    proc_of_move hmove (P := fun t u => t = s ∧ u.results H s = some res) hres
  cases landed_of_move hmove hx with
  | inl hold => exact (hσ x hold s hkey).mono hk
  | inr hnew =>
      rw [hnew.2, hkey]
      exact ((hok s).holdsPart x.1.file).mono hk

/-- The file of a chart. -/
def Chart.file : Chart → OutFile
  | .hourHistogram => .hourHistogram
  | .timeline => .timeline

/-- It is the one that is read for it. -/
theorem outputDirs_file (c : Chart) : outputDirs c.file = c.outputDir := by
  cases c <;> rfl

/-- The charts have events of their own. -/
theorem Chart.event_injective {c d : Chart} (h : c.event = d.event) : c = d := by
  cases c <;> cases d <;> first | rfl | cases h

theorem Chart.event_ne_progress (c : Chart) : c.event ≠ .progress := by
  cases c <;> decide

/-- What is sent for a chart is what its file held when it was read. -/
theorem sent_chart {i : Input} {r : State × List Obs} (h : Move H σ i r) {key : Text} {c : Chart}
    {pl : Payload} {id : SocketId} (hsent : .sent key c.event pl id ∈ r.2) :
    ∃ x ∈ σ.landed, ∃ v, x.1.key = key ∧ x.1.file = c.file ∧ fileValue x.2 = some v ∧
      pl = .json v := by
  obtain ⟨data, _, hemit⟩ | ⟨x, hx, hkey, hemit⟩ := sent_cases h hsent
  · exact absurd (emit_mem_onStdoutData hemit).2 c.event_ne_progress
  · obtain ⟨_, d, v, hd, hevent, hv, hpl⟩ := emit_mem_onRead hemit
    refine ⟨x, hx, v, hkey, ?_, hv, hpl⟩
    rw [Read.file, hd, Chart.event_injective hevent]
    cases d <;> rfl

/-- What is sent for a chart is the whole of it, for one of the uploads. -/
theorem sent_chart_complete (h : (machine H).Reach (Separate cuts) σ) {i : Input}
    {r : State × List Obs} (hstep : step H σ i = some r) {c : Chart} {pl : Payload} {id : SocketId}
    (hsent : .sent s.text c.event pl id ∈ r.2) :
    ∃ res, σ.HasResults H s res ∧ pl = .json (res.json c.file) := by
  obtain ⟨x, hx, v, hkey, hfile, hv, hpl⟩ := sent_chart (move_of_step hstep) hsent
  obtain ⟨t, ht, hparse⟩ := Option.bind_eq_some_iff.mp hv
  cases readsParts_of_reach h x hx s hkey with
  | inl hnone =>
      rw [hnone] at ht
      cases ht
  | inr hpart =>
      obtain ⟨res, t', hres, ht', hprefix⟩ := hpart
      rw [ht, Option.some.injEq] at ht'
      subst ht'
      rw [hfile] at hprefix
      obtain ⟨p, hp, hs, hr⟩ := hres
      exact ⟨res, ⟨p, hp, hs, hr⟩, by rw [hpl, parse_prefix_results hr hprefix hparse]⟩

/-- The callback of a read leaves the data of a session, or stores what was read. -/
theorem onRead_stored {x : Read} {live : Option SocketId} {content : Option Text}
    {ud : Text → Option Json} {v : Json}
    (h : (onRead x live content).acts.foldl (Effect.stores x.key) ud s.text = some v) :
    ud s.text = some v ∨ (x.Stores s ∧ fileValue content = some v) := by
  by_cases hs : x.Stores s
  · cases content with
    | none =>
        have hnone : (onRead x live none).acts.foldl (Effect.stores x.key) ud = ud := by
          obtain ⟨key, kind⟩ := x
          cases stores_ne hs with
          | inl hclose => rw [show kind = .close from hclose, onRead_close]; rfl
          | inr hconn => rw [show kind = .connect from hconn, onRead_connect]; rfl
        rw [hnone] at h
        exact Or.inl h
    | some t =>
        have hread : onRead x live (some t) = storeParsed t := by
          obtain ⟨key, kind⟩ := x
          cases stores_ne hs with
          | inl hclose => rw [show kind = .close from hclose, onRead_close]
          | inr hconn => rw [show kind = .connect from hconn, onRead_connect]
        rw [hread, storeParsed_eq] at h
        cases hv : Json.parse t with
        | none =>
            rw [hv] at h
            exact Or.inl h
        | some w =>
            rw [hv, hs.1] at h
            change Function.update ud s.text (some w) s.text = some v at h
            have hw : some w = some v := (Function.update_self s.text (some w) ud).symm.trans h
            exact Or.inr ⟨hs, hv.trans hw⟩
  · rw [onRead_keeps hs] at h
    exact Or.inl h

/-- The data of a session are the messages of one of its uploads. -/
def StoresResults (H : HashOrder) (σ : State) : Prop :=
  ∀ (s : SessionID) (v : Json), σ.userData s.text = some v →
    ∃ res, σ.HasResults H s res ∧ v = res.messages

theorem storesResults_of_reach (h : (machine H).Reach (Separate cuts) σ) : StoresResults H σ := by
  refine System.Reach.invariant_of (ReadsParts H) (StoresResults H) readsParts_of_reach
    (fun _ _ hv => by cases hv) ?_ h
  intro σ i r hreads hσ _ hstep s v hv
  have hmove := move_of_step hstep
  have hkept : ∀ {w : Json}, σ.userData s.text = some w →
      ∃ res, r.1.HasResults H s res ∧ w = res.messages := by
    intro w hw
    obtain ⟨res, hres, heq⟩ := hσ s w hw
    exact ⟨res, proc_of_move hmove (P := fun t u => t = s ∧ u.results H s = some res) hres, heq⟩
  cases hmove with
  | newSession _ => exact hkept hv
  | refused _ => exact hkept hv
  | connection _ _ _ => exact hkept hv
  | disconnect _ => exact hkept hv
  | land _ _ => exact hkept hv
  | upload _ _ => exact hkept hv
  | py _ _ => exact hkept hv
  | formError _ _ => rw [handle_eq] at hv; exact hkept hv
  | stderr _ _ _ => rw [handle_eq] at hv; exact hkept hv
  | stdout _ _ _ =>
      rw [handle_eq, foldl_stores_eq fun _ => not_store_onStdoutData] at hv
      exact hkept hv
  | close _ _ _ _ =>
      rw [handle_eq, foldl_stores_eq fun _ => not_store_onClose] at hv
      exact hkept hv
  | callback hx _ =>
      have hmem := List.mem_of_getElem? hx
      rw [handle_eq] at hv
      cases onRead_stored hv with
      | inl hold => exact hkept hold
      | inr hread =>
          obtain ⟨t, ht, hparse⟩ := Option.bind_eq_some_iff.mp hread.2
          cases hreads _ hmem s hread.1.1 with
          | inl hnone => cases ht.symm.trans hnone
          | inr hpart =>
              obtain ⟨res, t', ⟨p, hp, hps, hres⟩, ht', hprefix⟩ := hpart
              cases ht.symm.trans ht'
              rw [hread.1.2] at hprefix
              refine ⟨res, ⟨p, ?_, hps, hres⟩, parse_prefix_results hres hprefix hparse⟩
              rw [handle_eq]
              exact hp

/-! ## The results on a site -/

/-- A form of the session that has ended has these results. -/
def Site.HasResults (E : Host) (σ : Site) (s : SessionID) (r : Results) : Prop :=
  ∃ f ∈ σ.forms, f.stage ≠ .receiving ∧ f.session = s ∧
    (f.upload E).results E.order s = some r

/-- The files of the session are all absent or all the results of one of its forms. -/
def Site.Uniform (E : Host) (σ : Site) (s : SessionID) : Prop :=
  (∀ f, σ.core.files s.text f = none) ∨
    ∃ r, σ.HasResults E s r ∧ ∀ f, σ.core.files s.text f = some (r.text f)

section

variable {E : Host} {σ : Site}

/-- What the server has results of was received. -/
theorem InPlace.hasResults (h : InPlace E σ) {r : Results}
    (hr : σ.core.HasResults E.order s r) : σ.HasResults E s r := by
  obtain ⟨p, hp, rfl, hres⟩ := hr
  obtain ⟨f, hf, hended, hs, hu⟩ := h.procs p hp
  exact ⟨f, hf, hended, hs, hu ▸ hres⟩

/-- So the files that are uniform for the server are so on the site. -/
theorem InPlace.uniform (h : InPlace E σ) {s : SessionID}
    (hu : σ.core.Uniform E.order s (σ.core.files s.text)) : σ.Uniform E s := by
  cases hu with
  | inl hnone => exact Or.inl hnone
  | inr hall =>
      obtain ⟨r, hr, hfiles⟩ := hall
      exact Or.inr ⟨r, h.hasResults hr, hfiles⟩

/-- What is observed of a step of the site is observed of a step of its server. -/
theorem InPlace.sent (h : InPlace E σ) {i : SiteInput} {r : Site × List Obs}
    (hstep : Site.step E σ i = some r) {key : Text} {ev : Event} {pl : Payload} {id : SocketId}
    (hsent : .sent key ev pl id ∈ r.2) :
    ∃ k, step E.order σ.core k = some (r.1.core, r.2) := by
  cases siteMove_of_step hstep with
  | form _ _ => cases hsent
  | fileBegin _ _ _ => cases hsent
  | receive _ _ _ _ => cases hsent
  | formEnd _ _ hcore =>
      cases move_of_step hcore with
      | upload _ _ => cases hsent
  | core _ hcore =>
      rw [h.before_eq] at hcore
      exact ⟨_, hcore⟩

/-- In every run in which a form ends only when the analysers of its session have ended,
no file is begun outside or in the place of one that is still needed, documents have
threads and no analyser is cut off between its files: what is sent as `bar` is the whole
time line of one of the documents received, what is sent as `radar` is the whole hour
histogram of one of them, and when all analysers of a session have ended its three files
are all absent or all the results of one document. -/
theorem results_of_separate_uploads
    (h : (site E).Reach (Undisturbed E (Separate false)) σ) (s : SessionID) :
    (∀ i r pl id, Site.step E σ i = some r → .sent s.text .bar pl id ∈ r.2 →
        ∃ res, σ.HasResults E s res ∧ pl = .json res.timeline) ∧
      (∀ i r pl id, Site.step E σ i = some r → .sent s.text .radar pl id ∈ r.2 →
        ∃ res, σ.HasResults E s res ∧ pl = .json res.hourHistogram) ∧
      (σ.core.Ended s → σ.Uniform E s) := by
  obtain ⟨hcore, hplace⟩ := core_of_reach h
  have hchart : ∀ (c : Chart) i r pl id, Site.step E σ i = some r →
      .sent s.text c.event pl id ∈ r.2 →
      ∃ res, σ.HasResults E s res ∧ pl = .json (res.json c.file) := by
    intro c i r pl id hstep hsent
    obtain ⟨k, hk⟩ := hplace.sent hstep hsent
    obtain ⟨res, hres, hpl⟩ := sent_chart_complete hcore hk hsent
    exact ⟨res, hplace.hasResults hres, hpl⟩
  refine ⟨hchart .timeline, hchart .hourHistogram, fun hended => hplace.uniform ?_⟩
  exact (sessionOk_of_reach hcore s).uniform (fun hcuts => by cases hcuts) hended

end

/-- The site after one form, whose analyser has ended and was read. -/
def separateSite (cuts : Bool) : Site :=
  (site sampleHost).after (Undisturbed sampleHost (Separate cuts))
    (.core (.newSession .least) :: pageForm 0 firstSession samplePage ++
      List.map .core (wholeRun 0 ++ [.land 0, .callback 0]))

/-- Its files are all there and hold the results. -/
theorem results_of_one_upload :
    (separateSite false).core.Ended firstSession ∧
      (separateSite false).core.files firstSession.text .messages ≠ none ∧
      (separateSite false).Uniform sampleHost firstSession := by
  have hstate : (separateSite false).core.Ended firstSession ∧
      (separateSite false).core.files firstSession.text .messages ≠ none := by decide +kernel
  have hreach : (site sampleHost).Reach (Undisturbed sampleHost (Separate false))
      (separateSite false) := System.reach_after _
  exact ⟨hstate.1, hstate.2, (results_of_separate_uploads hreach firstSession).2.2 hstate.1⟩

/-! ## Uploads that overlap -/

/-- Two uploads overlap: the analyser of the first writes its last file when that
of the second has written all of its own. -/
def overlappingInputs : List SiteInput :=
  .core (.newSession .least) :: pageForm 0 firstSession samplePage ++ [.core (.py 0 1000)] ++
    pageForm 1 firstSession longerPage ++
    List.map .core (List.replicate 18 (.py 0 1000) ++ List.replicate 29 (.py 1 1000) ++
      List.replicate 6 (.py 0 1000))

def overlappingSite : Site := (site sampleHost).after System.anyInput overlappingInputs

/-- After two uploads that overlapped, the files are not those of one upload. -/
theorem overlapping_uploads_mix :
    (site sampleHost).Reach System.anyInput overlappingSite ∧
      overlappingSite.core.Ended firstSession ∧
      ¬overlappingSite.Uniform sampleHost firstSession := by
  have hstate : overlappingSite.core.Ended firstSession ∧
      overlappingSite.core.files firstSession.text .messages ≠ none ∧
      ∀ f ∈ overlappingSite.forms,
        ((f.upload sampleHost).results .insertion firstSession).map
            (fun r => outFiles.map fun f => some (r.text f)) ≠
          some (outFiles.map (overlappingSite.core.files firstSession.text)) := by decide +kernel
  obtain ⟨hended, hsome, hdiffer⟩ := hstate
  refine ⟨System.reach_after _, hended, fun hu => ?_⟩
  cases hu with
  | inl hnone => exact hsome (hnone .messages)
  | inr hall =>
      obtain ⟨r, ⟨f, hf, _, _, hr⟩, hfiles⟩ := hall
      refine hdiffer f hf ?_
      have horder : sampleHost.order = .insertion := rfl
      rw [← horder, hr, Option.map_some, Option.some.injEq]
      exact List.map_congr_left fun g _ => (hfiles g).symm

end Server
