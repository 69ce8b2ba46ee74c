import FbTesting.Analyser.Orderly
import FbTesting.Server.Drain
import FbTesting.Server.Failures
import FbTesting.Server.Results

/-!
# Runs that do not end the server

The handlers look up a socket and parse a file without asking whether they are
there, and an exception that escapes one of them ends the server.  What has to be
in order for a handler was decided by earlier steps: the callback of a read needs
the socket that was connected when the read was started, and a file that was whole
when it was read.

`Careful` says what has to be in order when something begins.  A session connects
while nothing is writing its `messages.json`, uploads a document that the analyser
can read, with a tab and while nothing of it is under way, closes that tab only when
nothing is under way any more, and the name of a chart arrives only when its file
was closed.  The program takes none of these cares itself.  In the runs that do, no
handler throws, at whatever time the acts of the analysers, their output and the
reads come between (`careful_stays_alive`), and the care does not stop them.
-/

namespace Server

open Base Node Analyser Python

/-! ## Cares -/

/-- No analyser of the session has still to close the file. -/
def State.Settled (σ : State) (s : SessionID) (f : OutFile) : Prop :=
  ∀ p ∈ σ.procs, p.session = s → .close f ∉ p.todo

instance (σ : State) (s : SessionID) (f : OutFile) : Decidable (σ.Settled s f) :=
  inferInstanceAs (Decidable (∀ p ∈ _, _ → _))

/-- Nothing that the session has caused is under way. -/
structure State.AtRest (σ : State) (s : SessionID) : Prop where
  procs : ∀ p ∈ σ.procs, p.session = s → p.closed = true
  started : ∀ r ∈ σ.started, r.key ≠ s.text
  landed : ∀ x ∈ σ.landed, x.1.key ≠ s.text

instance (σ : State) (s : SessionID) : Decidable (σ.AtRest s) :=
  decidable_of_iff
    ((∀ p ∈ σ.procs, p.session = s → p.closed = true) ∧ (∀ r ∈ σ.started, r.key ≠ s.text) ∧
      ∀ x ∈ σ.landed, x.1.key ≠ s.text)
    ⟨fun h => ⟨h.1, h.2.1, h.2.2⟩, fun h => ⟨h.1, h.2, h.3⟩⟩

instance (σ : State) (s : SessionID) : Decidable (σ.LastConnected s) :=
  inferInstanceAs (Decidable (∃ id ∈ σ.lastSocket s, id ∈ σ.connected))

/-- Care is taken with the input. -/
def Careful (H : HashOrder) (σ : State) : Input → Prop
  | .handshake _ (some (.valid s)) =>
      σ.files s.text .messages = none ∨ σ.Settled s .messages
  | .disconnect id => ∀ p ∈ σ.procs, σ.lastSocket p.session = some id → σ.AtRest p.session
  | .upload s u => σ.AtRest s ∧ σ.LastConnected s ∧ (u.results H s).isSome = true
  | .formError _ _ => False
  | .stdout i k => ∀ p ∈ σ.procs[i]?, ∀ c ∈ chartOf (beforeReturn (p.pipe.take (k + 1))),
      σ.Settled p.session c.file
  | _ => True

instance (H : HashOrder) (σ : State) (i : Input) : Decidable (Careful H σ i) :=
  match i with
  | .handshake _ (some (.valid _)) => inferInstanceAs (Decidable (_ ∨ _))
  | .disconnect _ => inferInstanceAs (Decidable (∀ p ∈ σ.procs, _ → _))
  | .upload _ _ => inferInstanceAs (Decidable (_ ∧ _))
  | .formError _ _ => isFalse id
  | .stdout i _ => inferInstanceAs (Decidable (∀ p ∈ σ.procs[i]?, _))
  | .newSession _ | .handshake _ none | .handshake _ (some .undefined)
  | .handshake _ (some .tampered) | .callback _ | .py _ _ | .stderr _ | .close _ | .land _ =>
      isTrue trivial

variable {H : HashOrder} {σ τ : State} {s : SessionID}

/-- Nothing of the session is under way, so that its analysers have ended. -/
theorem State.AtRest.ended (h : σ.AtRest s) (hdone : ClosedDone σ) : σ.Ended s :=
  fun p hp hs => hdone p hp (h.procs p hp hs)

/-- An upload with results has threads. -/
theorem hasThreads_of_results {u : Upload} (h : (u.results H s).isSome = true) :
    u.hasThreads = true := by
  obtain ⟨r, hr⟩ := Option.isSome_iff_exists.mp h
  obtain ⟨d, _, hd, hne, _⟩ := extracted_of_results hr
  rw [Upload.hasThreads, hd]
  cases d with
  | nil => exact absurd rfl hne
  | cons t d => rfl

/-- The uploads of a careful run do not overlap. -/
theorem separate_of_careful (h : (machine H).Reach (Careful H) σ) :
    (machine H).Reach (Separate true) σ := by
  induction h with
  | init => exact .init
  | @step σ τ i os hσ hok hstep ih =>
      refine .step ih ?_ hstep
      cases i with
      | upload s u =>
          have hended := hok.1.ended (closedDone_of_reach hσ)
          exact ⟨hended, fun _ => hasThreads_of_results hok.2.2⟩
      | py j k => exact fun hcuts => by cases hcuts
      | _ => trivial

/-! ## Files that are whole -/

/-- A file that is there and that no analyser has still to close is whole. -/
theorem SessionOk.whole {f : OutFile} (h : SessionOk H true σ s) (halive : σ.alive = true)
    (hsettled : σ.Settled s f) (hsome : σ.files s.text f ≠ none) :
    ∃ res, σ.HasResults H s res ∧ σ.files s.text f = some (res.text f) := by
  have huniform : ∀ {fs : OutFile → Option Text}, σ.Uniform H s fs → fs f ≠ none →
      ∃ res, σ.HasResults H s res ∧ fs f = some (res.text f) := by
    intro fs hu hne
    cases hu with
    | inl hnone => exact absurd (hnone f) hne
    | inr hall =>
        obtain ⟨res, hres, hfs⟩ := hall
        exact ⟨res, hres, hfs f⟩
  cases h with
  | rest _ hu => exact huniform hu hsome
  | cut _ hdead _ _ =>
      rw [halive] at hdead
      cases hdead
  | @work i p hp hs _ hworking =>
      have hmem := List.mem_of_getElem? hp
      have hclose := hsettled p hmem hs
      cases hworking with
      | inl hsilent => exact huniform hsilent.2 hsome
      | inr hphase =>
          obtain ⟨res, old, hr, hold, hph⟩ := hphase
          have hres : σ.HasResults H s res := ⟨p, hmem, hs, hr⟩
          have hf := mem_outFiles f
          have hrestored : σ.files s.text f = old f →
              ∃ res, σ.HasResults H s res ∧ σ.files s.text f = some (res.text f) := by
            intro heq
            rw [heq] at hsome ⊢
            exact huniform hold hsome
          generalize p.todo = todo at hph hclose
          generalize p.offset = offset at hph
          cases hph with
          | between hfiles hdone hrest _ =>
              rw [← hfiles] at hf
              cases List.mem_append.mp hf with
              | inl hbefore => exact ⟨res, hres, hdone f hbefore⟩
              | inr hafter => exact hrestored (hrest f hafter)
          | writing hfiles hdone hrest _ _ _ =>
              rw [← hfiles] at hf
              cases List.mem_append.mp hf with
              | inl hbefore => exact ⟨res, hres, hdone f hbefore⟩
              | inr hmem =>
                  cases List.mem_cons.mp hmem with
                  | inl heq =>
                      rw [heq] at hclose
                      exact absurd (List.mem_cons_of_mem _ List.mem_cons_self) hclose
                  | inr hafter => exact hrestored (hrest f hafter)
          | closing hfiles hdone hrest hcur _ =>
              rw [← hfiles] at hf
              cases List.mem_append.mp hf with
              | inl hbefore => exact ⟨res, hres, hdone f hbefore⟩
              | inr hmem =>
                  cases List.mem_cons.mp hmem with
                  | inl heq =>
                      rw [heq]
                      exact ⟨res, hres, hcur⟩
                  | inr hafter => exact hrestored (hrest f hafter)

/-- So it is read as JSON. -/
theorem fileValue_of_settled {f : OutFile} (h : SessionOk H true σ s) (halive : σ.alive = true)
    (hsettled : σ.Settled s f) (hsome : σ.files s.text f ≠ none) :
    fileValue (σ.files s.text f) ≠ none := by
  obtain ⟨res, ⟨p, _, _, hr⟩, hfile⟩ := h.whole halive hsettled hsome
  have hparse : fileValue (some (res.text f)) = some (res.json f) :=
    Json.parse_dump (results_exact hr f).1
  rw [hfile, hparse]
  exact Option.some_ne_none _

/-- Only sessions have files. -/
def FilesOwned (σ : State) : Prop := ∀ key f, σ.files key f ≠ none → ∃ s : SessionID, key = s.text

theorem filesOwned_of_reach {ok : State → Input → Prop} (h : (machine H).Reach ok σ) :
    FilesOwned σ := by
  refine System.Reach.invariant FilesOwned (fun _ _ hne => absurd rfl hne) ?_ h
  intro σ i r hσ _ hstep
  cases move_of_step hstep with
  | @py i k p p' files hp hact =>
      intro key f hne
      by_cases hkey : key = p.session.text
      · exact ⟨p.session, hkey⟩
      · change Function.update σ.files p.session.text files key f ≠ none at hne
        rw [Function.update_of_ne hkey] at hne
        exact hσ key f hne
  | newSession _ => exact hσ
  | refused _ => exact hσ
  | connection _ _ _ => exact hσ
  | disconnect _ => exact hσ
  | upload _ _ => exact hσ
  | land _ _ => exact hσ
  | _ => rw [handle_eq]; exact hσ

/-! ## Acts of an orderly analyser -/

/-- Each file is there, or has still to be opened. -/
def Opened (todo : List Act) (files : OutFile → Option Text) : Prop :=
  ∀ f, .open f ∉ todo → files f ≠ none

theorem update_ne_none {files : OutFile → Option Text} {f g : OutFile} (t : Text)
    (h : files g ≠ none) : Function.update files f (some t) g ≠ none := by
  by_cases hgf : g = f
  · rw [hgf, Function.update_self]
    exact Option.some_ne_none t
  · rw [Function.update_of_ne hgf]
    exact h

/-- What an act of an orderly analyser keeps, while the server is alive. -/
theorem Proc.act_orderly {p p' : Proc} {k : Nat} {files files' : OutFile → Option Text}
    (ho : Orderly p.todo) (h : p.act true k files = some (p', files')) :
    Orderly p'.todo ∧ p'.err = p.err ∧ (∀ f, .close f ∈ p'.todo → .close f ∈ p.todo) ∧
      (∀ f, files f ≠ none → files' f ≠ none) ∧ (Opened p.todo files → Opened p'.todo files') := by
  cases hp : p.todo with
  | nil => exact absurd hp (Proc.act_todo_ne_nil h)
  | cons a rest =>
      rw [hp] at ho
      have hlater : ∀ f, Act.close f ∈ rest → Act.close f ∈ a :: rest :=
        fun f => List.mem_cons_of_mem a
      rw [Proc.act, hp] at h
      cases a with
      | stderr e => exact False.elim ho
      | stdout t =>
          cases h
          exact ⟨ho, rfl, hlater, fun f hf => hf, fun hop f hf => hop f (by simpa using hf)⟩
      | flush =>
          cases h
          exact ⟨ho, rfl, hlater, fun f hf => hf, fun hop f hf => hop f (by simpa using hf)⟩
      | close g =>
          cases h
          exact ⟨ho, rfl, hlater, fun f hf => hf, fun hop f hf => hop f (by simpa using hf)⟩
      | «open» g =>
          cases h
          refine ⟨ho.2, rfl, hlater, fun f hf => update_ne_none _ hf, fun hop f hf => ?_⟩
          by_cases hfg : f = g
          · rw [hfg, Function.update_self]
            exact Option.some_ne_none _
          · exact update_ne_none _ (hop f (by simpa [hfg] using hf))
      | write g t =>
          cases h
          refine ⟨?_, rfl, ?_, fun f hf => update_ne_none _ hf, fun hop f hf => ?_⟩
          · show Orderly (if _ then _ else _)
            split
            · exact ho.2
            · exact ho
          · intro f hf
            change _ ∈ (if _ then _ else _) at hf
            split at hf
            · exact hlater f hf
            · simpa using hf
          · refine update_ne_none _ (hop f ?_)
            change _ ∉ (if _ then _ else _) at hf
            split at hf
            · simpa using hf
            · simpa using hf

/-! ## The invariant -/

/-- The analyser prints no traceback and has a tab until it is closed. -/
structure ProcOk (σ : State) (p : Proc) : Prop where
  err : p.err = []
  orderly : Orderly p.todo
  opened : Opened p.todo (σ.files p.session.text)
  pipe : p.closed = true → p.pipe = []
  tab : p.closed = false → σ.LastConnected p.session

/-- The file of the read is there and closed. -/
def FileOk (σ : State) (r : Read) : Prop :=
  ∃ s : SessionID, r.key = s.text ∧ σ.Settled s r.file ∧ σ.files s.text r.file ≠ none

/-- The read of a chart has a tab. -/
def Tabbed (σ : State) (r : Read) : Prop :=
  ∀ c, ∀ s : SessionID, r.kind = .chart c → r.key = s.text → σ.LastConnected s

/-- A session has one analyser at most that is not closed. -/
def OneOpen (procs : List Proc) : Prop :=
  ∀ (i j : Nat) (p q : Proc), procs[i]? = some p → procs[j]? = some q → p.session = q.session →
    p.closed = false → q.closed = false → i = j

/-- All that is under way has what its handlers will need. -/
structure Safe (σ : State) : Prop where
  alive : σ.alive = true
  procs : ∀ p ∈ σ.procs, ProcOk σ p
  one : OneOpen σ.procs
  started : ∀ r ∈ σ.started, FileOk σ r ∧ Tabbed σ r
  landed : ∀ x ∈ σ.landed, fileValue x.2 ≠ none ∧ Tabbed σ x.1

theorem safe_initial : Safe State.initial where
  alive := rfl
  procs := fun _ hp => absurd hp List.not_mem_nil
  one := fun _ _ _ _ hp => by simp [State.initial] at hp
  started := fun _ hr => absurd hr List.not_mem_nil
  landed := fun _ hx => absurd hx List.not_mem_nil

/-- What a step keeps: no file disappears, and no file and no tab of a session that
has something under way is opened again or closed. -/
structure Kept (σ τ : State) : Prop where
  files : ∀ key f, σ.files key f ≠ none → τ.files key f ≠ none
  settled : ∀ s f, ¬σ.AtRest s → σ.Settled s f → τ.Settled s f
  tab : ∀ s : SessionID, σ.Uploaded s.text → ¬σ.AtRest s → σ.LastConnected s → τ.LastConnected s

/-- A step on neither the analysers nor the sockets. -/
theorem Kept.of_eq (hp : τ.procs = σ.procs) (hf : τ.files = σ.files) (hi : τ.issued = σ.issued)
    (hc : τ.connected = σ.connected) : Kept σ τ := by
  refine ⟨fun key f h => by rwa [hf], fun s f _ h => ?_, fun s _ _ h => ?_⟩
  · rw [State.Settled, hp]
    exact h
  · rw [State.LastConnected, State.lastSocket, hi, hc]
    exact h

/-- A step on one analyser, which opens or writes only what it closes later. -/
theorem Kept.set {i : Nat} {p p' : Proc} (hpi : σ.procs[i]? = some p)
    (hp : τ.procs = σ.procs.set i p') (hsess : p'.session = p.session)
    (hclose : ∀ f, .close f ∈ p'.todo → .close f ∈ p.todo)
    (hf : ∀ key f, σ.files key f ≠ none → τ.files key f ≠ none) (hi : τ.issued = σ.issued)
    (hc : τ.connected = σ.connected) : Kept σ τ := by
  refine ⟨hf, fun s f _ h q hq hqs hmem => ?_, fun s _ _ h => ?_⟩
  · rw [hp] at hq
    cases mem_set_cases hq with
    | inl heq =>
        rw [heq, hsess] at hqs
        rw [heq] at hmem
        exact h p (List.mem_of_getElem? hpi) hqs (hclose f hmem)
    | inr hold => exact h q hold hqs hmem
  · rw [State.LastConnected, State.lastSocket, hi, hc]
    exact h

theorem OneOpen.set {procs : List Proc} (h : OneOpen procs) {i : Nat} {p p' : Proc}
    (hpi : procs[i]? = some p) (hsess : p'.session = p.session)
    (hclosed : p'.closed = false → p.closed = false) : OneOpen (procs.set i p') := by
  have hback : ∀ {j : Nat} {q : Proc}, (procs.set i p')[j]? = some q → q.closed = false →
      ∃ q', procs[j]? = some q' ∧ q'.session = q.session ∧ q'.closed = false := by
    intro j q hq hopen
    cases getElem?_set_cases hq with
    | inl hnew =>
        obtain ⟨rfl, rfl⟩ := hnew
        exact ⟨p, hpi, hsess.symm, hclosed hopen⟩
    | inr hold => exact ⟨q, hold.2, rfl, hopen⟩
  intro j k q q' hq hq' hs hopen hopen'
  obtain ⟨x, hx, hxs, hxo⟩ := hback hq hopen
  obtain ⟨y, hy, hys, hyo⟩ := hback hq' hopen'
  exact h j k x y hx hy ((hxs.trans hs).trans hys.symm) hxo hyo

/-- A session that has an open analyser or a read is not at rest. -/
theorem not_atRest_of_open {p : Proc} (hp : p ∈ σ.procs) (hopen : p.closed = false) :
    ¬σ.AtRest p.session := by
  intro h
  rw [h.procs p hp rfl] at hopen
  cases hopen

/-- What is kept, with what is new, is enough. -/
theorem Safe.of_kept (h : Safe σ) (hown : ChartReadsOwned σ) (hk : Kept σ τ)
    (halive : τ.alive = true) (hprocs : ∀ p ∈ τ.procs, p ∈ σ.procs ∨ ProcOk τ p)
    (hone : OneOpen τ.procs)
    (hstarted : ∀ r ∈ τ.started, r ∈ σ.started ∨ (FileOk τ r ∧ Tabbed τ r))
    (hlanded : ∀ x ∈ τ.landed, x ∈ σ.landed ∨ (fileValue x.2 ≠ none ∧ Tabbed τ x.1)) :
    Safe τ where
  alive := halive
  one := hone
  procs := by
    intro p hp
    cases hprocs p hp with
    | inr hnew => exact hnew
    | inl hold =>
        have hok := h.procs p hold
        refine ⟨hok.err, hok.orderly, fun f hf => hk.files _ f (hok.opened f hf), hok.pipe, ?_⟩
        intro hopen
        exact hk.tab _ ⟨p, hold, rfl⟩ (not_atRest_of_open hold hopen) (hok.tab hopen)
  started := by
    intro r hr
    cases hstarted r hr with
    | inr hnew => exact hnew
    | inl hold =>
        obtain ⟨⟨s, hs, hsettled, hfile⟩, htab⟩ := h.started r hold
        have hbusy : ∀ t : SessionID, r.key = t.text → ¬σ.AtRest t :=
          fun t ht hrest => hrest.started r hold ht
        refine ⟨⟨s, hs, hk.settled s _ (hbusy s hs) hsettled, hk.files _ _ hfile⟩, ?_⟩
        intro c t hc ht
        have hup := hown.started r hold c hc
        rw [ht] at hup
        exact hk.tab t hup (hbusy t ht) (htab c t hc ht)
  landed := by
    intro x hx
    cases hlanded x hx with
    | inr hnew => exact hnew
    | inl hold =>
        obtain ⟨hvalue, htab⟩ := h.landed x hold
        refine ⟨hvalue, fun c t hc ht => ?_⟩
        have hup := hown.landed x hold c hc
        rw [ht] at hup
        exact hk.tab t hup (fun hrest => hrest.landed x hold ht) (htab c t hc ht)

/-! ## Steps -/

/-- The run of a handler that returns. -/
theorem Safe.handle (h : Safe σ) (hown : ChartReadsOwned σ) {key : Text} {body : Handler}
    (hk : Kept σ τ) (halive : τ.alive = true) (hprocs : ∀ p ∈ τ.procs, p ∈ σ.procs ∨ ProcOk τ p)
    (hone : OneOpen τ.procs) (hstarted : τ.started = σ.started)
    (hlanded : ∀ x ∈ τ.landed, x ∈ σ.landed) (hok : body.result = .ok ())
    (hreads : ∀ r ∈ body.acts.flatMap (Effect.reads key), FileOk τ r ∧ Tabbed τ r) :
    Safe (τ.handle key body).1 := by
  rw [handle_eq]
  refine h.of_kept hown ⟨hk.files, hk.settled, hk.tab⟩ ?_ (fun p hp => ?_) hone (fun r hr => ?_)
    fun x hx => Or.inl (hlanded x hx)
  · simp [halive, hok, Except.isOk, Except.toBool]
  · cases hprocs p hp with
    | inl hold => exact Or.inl hold
    | inr hnew => exact Or.inr ⟨hnew.err, hnew.orderly, hnew.opened, hnew.pipe, hnew.tab⟩
  · cases List.mem_append.mp hr with
    | inl hold => exact Or.inl (hstarted ▸ hold)
    | inr hnew => exact Or.inr (hreads r hnew)

/-- A connection makes its socket the last of its session, and leaves the others. -/
theorem lastConnected_connection {id : SocketId} {c : SignedSid} (h : σ.LastConnected s) :
    (σ.connection id c).LastConnected s := by
  by_cases hc : c = .valid s
  · refine ⟨id, ?_, List.mem_cons_self⟩
    simp [State.lastSocket, State.connection, hc]
  · obtain ⟨x, hx, hconn⟩ := h
    refine ⟨x, ?_, List.mem_cons_of_mem _ hconn⟩
    simpa [State.lastSocket, State.connection, hc] using hx

theorem safe_connection (h : Safe σ) (hown : ChartReadsOwned σ) (hfiles : FilesOwned σ)
    {id : SocketId} {c : SignedSid} (hcare : Careful H σ (.handshake id (some c))) :
    Safe (σ.connection id c) := by
  have hk : Kept σ (σ.connection id c) :=
    ⟨fun _ _ hf => hf, fun _ _ _ hs => hs, fun _ _ _ ht => lastConnected_connection ht⟩
  refine h.of_kept hown hk h.alive (fun p hp => Or.inl hp) h.one (fun r hr => ?_)
    fun x hx => Or.inl hx
  simp only [State.connection] at hr
  split at hr
  next hsome =>
    cases List.mem_append.mp hr with
    | inl hold => exact Or.inl hold
    | inr hnew =>
        have hr' := List.mem_singleton.mp hnew
        have hfile : σ.files c.key .messages ≠ none := Option.isSome_iff_ne_none.mp hsome
        obtain ⟨s, hs⟩ := hfiles _ _ hfile
        have hc := SignedSid.key_eq_text_iff.mp hs
        subst hc hr'
        refine Or.inr ⟨⟨s, rfl, ?_, hfile⟩, fun d t hd => by cases hd⟩
        cases hcare with
        | inl hnone => exact absurd hnone hfile
        | inr hsettled => exact hsettled
  next hnone => exact Or.inl hr

theorem safe_disconnect (h : Safe σ) (hown : ChartReadsOwned σ) {id : SocketId}
    (hcare : Careful H σ (.disconnect id)) :
    Safe { σ with connected := σ.connected.filter (· ≠ id) } := by
  refine h.of_kept hown ⟨fun _ _ hf => hf, fun _ _ _ hs => hs, fun s hup hbusy ht => ?_⟩ h.alive
    (fun p hp => Or.inl hp) h.one (fun r hr => Or.inl hr) fun x hx => Or.inl hx
  obtain ⟨x, hx, hconn⟩ := ht
  obtain ⟨p, hp, hps⟩ := hup
  have hs : p.session = s := SessionID.ext hps
  refine ⟨x, hx, List.mem_filter.mpr ⟨hconn, ?_⟩⟩
  have hne : x ≠ id := by
    rintro rfl
    refine hbusy ?_
    have hrest := hcare p hp
    rw [hs] at hrest
    exact hrest hx
  simpa using hne

theorem safe_upload (h : Safe σ) (hown : ChartReadsOwned σ) {u : Upload}
    (hcare : Careful H σ (.upload s u)) :
    Safe { σ with procs := σ.procs ++ [Proc.start H s u] } := by
  obtain ⟨hrest, htab, hres⟩ := hcare
  obtain ⟨res, hres⟩ := Option.isSome_iff_exists.mp hres
  obtain ⟨horderly, _, hopens⟩ := analyse_of_results hres
  have hsettled : ∀ t f, ¬σ.AtRest t → σ.Settled t f →
      State.Settled { σ with procs := σ.procs ++ [Proc.start H s u] } t f := by
    intro t f hbusy hold q hq hqt
    cases List.mem_append.mp hq with
    | inl hmem => exact hold q hmem hqt
    | inr hnew =>
        rw [List.mem_singleton.mp hnew] at hqt
        exact absurd (hqt ▸ hrest) hbusy
  refine h.of_kept hown ⟨fun _ _ hf => hf, hsettled, fun _ _ _ ht => ht⟩ h.alive (fun p hp => ?_)
    ?_ (fun r hr => Or.inl hr) fun x hx => Or.inl hx
  · cases List.mem_append.mp hp with
    | inl hold => exact Or.inl hold
    | inr hnew =>
        rw [List.mem_singleton.mp hnew]
        refine Or.inr ⟨rfl, horderly, fun f hf => ?_, fun hclosed => ?_, fun _ => htab⟩
        · exact absurd (hopens f (mem_outFiles f)) hf
        · cases hclosed
  · have hold : ∀ {j : Nat} {q : Proc}, σ.procs[j]? = some q → q.session = s →
        q.closed = false → False := by
      intro j q hq hqs hopen
      rw [hrest.procs q (List.mem_of_getElem? hq) hqs] at hopen
      cases hopen
    intro i j p q hp hq hs hpo hqo
    cases getElem?_concat_cases hp with
    | inl hpold =>
        cases getElem?_concat_cases hq with
        | inl hqold => exact h.one i j p q hpold hqold hs hpo hqo
        | inr hqnew => exact (hold hpold (by rw [hs, hqnew.2]; rfl) hpo).elim
    | inr hpnew =>
        cases getElem?_concat_cases hq with
        | inl hqold => exact (hold hqold (by rw [← hs, hpnew.2]; rfl) hqo).elim
        | inr hqnew => rw [hpnew.1, hqnew.1]

theorem safe_py (h : Safe σ) (hown : ChartReadsOwned σ) (hdone : ClosedDone σ) {i k : Nat}
    {p p' : Proc} {files : OutFile → Option Text} (hp : σ.procs[i]? = some p)
    (hact : p.act σ.alive k (σ.files p.session.text) = some (p', files)) :
    Safe { σ with procs := σ.procs.set i p',
                  files := Function.update σ.files p.session.text files } := by
  have hmem := List.mem_of_getElem? hp
  have hok := h.procs p hmem
  have hsess := (Proc.act_session hact).1
  have hclosed := Proc.act_closed hact
  rw [h.alive] at hact
  obtain ⟨ho, herr, hclose, hkeep, hopened⟩ := Proc.act_orderly hok.orderly hact
  have hopen : p.closed = false := by
    cases hc : p.closed with
    | false => rfl
    | true => exact absurd (hdone p hmem hc) (Proc.act_todo_ne_nil hact)
  have hfiles : ∀ key f, σ.files key f ≠ none →
      Function.update σ.files p.session.text files key f ≠ none := by
    intro key f hf
    by_cases hkey : key = p.session.text
    · subst hkey
      rw [Function.update_self]
      exact hkeep f hf
    · rw [Function.update_of_ne hkey]
      exact hf
  have hset : Kept σ { σ with procs := σ.procs.set i p',
                              files := Function.update σ.files p.session.text files } :=
    Kept.set hp rfl hsess hclose hfiles rfl rfl
  refine h.of_kept hown hset h.alive (fun q hq => ?_) (h.one.set hp hsess fun hc => hclosed ▸ hc)
    (fun r hr => Or.inl hr) fun x hx => Or.inl hx
  cases mem_set_cases hq with
  | inr hold => exact Or.inl hold
  | inl heq =>
      rw [heq]
      refine Or.inr ⟨herr.trans hok.err, ho, ?_, fun hc => ?_, fun _ => ?_⟩
      · show Opened p'.todo (Function.update σ.files p.session.text files p'.session.text)
        rw [hsess, Function.update_self]
        exact hopened hok.opened
      · rw [hclosed, hopen] at hc
        cases hc
      · rw [hsess]
        exact hok.tab hopen

theorem safe_stdout (h : Safe σ) (hown : ChartReadsOwned σ) (hcurrent : SocketsCurrent σ)
    {i k : Nat} {p : Proc} (hp : σ.procs[i]? = some p) (hpipe : p.pipe ≠ [])
    (hcare : Careful H σ (.stdout i k)) :
    Safe (State.handle { σ with procs := σ.procs.set i { p with pipe := p.pipe.drop (k + 1) } }
      p.session.text (onStdoutData (σ.live p.session.text) (p.pipe.take (k + 1)))).1 := by
  have hok := h.procs p (List.mem_of_getElem? hp)
  have hopen : p.closed = false := by
    cases hc : p.closed with
    | false => rfl
    | true => exact absurd (hok.pipe hc) hpipe
  have htab := hok.tab hopen
  have hset : Kept σ { σ with procs := σ.procs.set i { p with pipe := p.pipe.drop (k + 1) } } :=
    Kept.set hp rfl rfl (fun _ hf => hf) (fun _ _ hf => hf) rfl rfl
  refine h.handle hown hset h.alive (fun q hq => ?_) (h.one.set hp rfl fun hc => hc) rfl
    (fun x hx => hx) (onStdoutData_ok_iff.mpr fun _ => (live_ne_none_iff hcurrent).mpr htab) ?_
  · cases mem_set_cases hq with
    | inr hold => exact Or.inl hold
    | inl heq =>
        rw [heq]
        refine Or.inr ⟨hok.err, hok.orderly, hok.opened, fun hc => ?_, fun _ => htab⟩
        rw [hopen] at hc
        cases hc
  · intro r hr
    obtain hnone | ⟨c, hc, hone⟩ := reads_onStdoutData p.session.text (σ.live p.session.text)
      (p.pipe.take (k + 1))
    · rw [hnone] at hr
      cases hr
    · rw [hone] at hr
      have hsettled := hcare p hp c (chartOf_eq_some_iff.mpr hc)
      have hfile : σ.files p.session.text c.file ≠ none := by
        refine hok.opened _ fun hmem => ?_
        exact hsettled p (List.mem_of_getElem? hp) rfl (hok.orderly.close_of_open hmem)
      have hr' := List.mem_singleton.mp hr
      subst hr'
      have hread : Read.file ⟨p.session.text, .chart c⟩ = c.file := by cases c <;> rfl
      refine ⟨⟨p.session, rfl, ?_, ?_⟩, fun d t _ ht => ?_⟩
      · rw [hread]
        exact hset.settled _ _ (not_atRest_of_open (List.mem_of_getElem? hp) hopen) hsettled
      · rw [hread]
        exact hfile
      · have hts : p.session = t := SessionID.ext ht
        rw [← hts]
        exact htab

theorem safe_close (h : Safe σ) (hown : ChartReadsOwned σ) (hdone : ClosedDone σ) {i : Nat}
    {p : Proc} (hp : σ.procs[i]? = some p) (hdrained : p.drained = true)
    (hopen : p.closed = false) :
    Safe (State.handle { σ with procs := σ.procs.set i { p with closed := true } }
      p.session.text (onClose p.code)).1 := by
  have hmem := List.mem_of_getElem? hp
  have hok := h.procs p hmem
  simp only [Proc.drained, Bool.and_eq_true, List.isEmpty_iff] at hdrained
  obtain ⟨⟨htodo, hpipe⟩, _⟩ := hdrained
  have hset : Kept σ { σ with procs := σ.procs.set i { p with closed := true } } :=
    Kept.set hp rfl rfl (fun _ hf => hf) (fun _ _ hf => hf) rfl rfl
  -- no other analyser of the session is open, so that all its files are closed
  have hsettled : σ.Settled p.session .messages := by
    intro q hq hqs hclose
    cases hc : q.closed with
    | true =>
        rw [hdone q hq hc] at hclose
        cases hclose
    | false =>
        obtain ⟨j, hj⟩ := List.mem_iff_getElem?.mp hq
        have hij := h.one i j p q hp hj hqs.symm hopen hc
        subst hij
        rw [hp] at hj
        cases hj
        rw [htodo] at hclose
        cases hclose
  have hfile : σ.files p.session.text .messages ≠ none := by
    refine hok.opened _ ?_
    rw [htodo]
    exact List.not_mem_nil
  have hresult : (onClose p.code).result = .ok () := by rw [onClose_eq]
  refine h.handle hown hset h.alive (fun q hq => ?_) (h.one.set hp rfl fun hc => by cases hc) rfl
    (fun x hx => hx) hresult fun r hr => ?_
  · cases mem_set_cases hq with
    | inr hold => exact Or.inl hold
    | inl heq =>
        rw [heq]
        exact Or.inr ⟨hok.err, hok.orderly, hok.opened, fun _ => hpipe, fun hc => by cases hc⟩
  · rw [reads_onClose] at hr
    have hr' := List.mem_singleton.mp hr
    subst hr'
    exact ⟨⟨p.session, rfl, hset.settled _ _ (not_atRest_of_open hmem hopen) hsettled, hfile⟩,
      fun d t hd => by cases hd⟩

theorem safe_land (h : Safe σ) (hown : ChartReadsOwned σ) (hsessions : ∀ s, SessionOk H true σ s)
    {j : Nat} {r : Read} (hr : σ.started[j]? = some r) :
    Safe { σ with started := σ.started.eraseIdx j,
                  landed := σ.landed ++ [(r, σ.files r.key r.file)] } := by
  refine h.of_kept hown (.of_eq rfl rfl rfl rfl) h.alive (fun p hp => Or.inl hp) h.one
    (fun x hx => Or.inl (List.mem_of_mem_eraseIdx hx)) fun x hx => ?_
  cases List.mem_append.mp hx with
  | inl hold => exact Or.inl hold
  | inr hnew =>
      rw [List.mem_singleton.mp hnew]
      obtain ⟨⟨s, hs, hsettled, hfile⟩, htab⟩ := h.started r (List.mem_of_getElem? hr)
      refine Or.inr ⟨?_, htab⟩
      show fileValue (σ.files r.key r.file) ≠ none
      rw [hs]
      exact fileValue_of_settled (hsessions s) h.alive hsettled hfile

/-- The callback of a read of JSON returns, if it is not that of a chart or there is
a socket. -/
theorem onRead_ok {r : Read} {live : Option SocketId} {content : Option Text}
    (hvalue : fileValue content ≠ none) (hlive : ∀ c, r.kind = .chart c → live ≠ none) :
    (onRead r live content).result = .ok () := by
  obtain ⟨key, kind⟩ := r
  cases kind with
  | chart c => exact onRead_chart_ok_iff.mpr ⟨hlive c rfl, hvalue⟩
  | close => exact onRead_close_ok_iff.mpr (Or.inr hvalue)
  | connect =>
      obtain ⟨v, hv⟩ := Option.ne_none_iff_exists'.mp hvalue
      obtain ⟨t, ht, hparse⟩ := Option.bind_eq_some_iff.mp hv
      rw [ht, onRead_connect]
      simp [storeParsed_eq, hparse]

theorem safe_callback (h : Safe σ) (hown : ChartReadsOwned σ) (hcurrent : SocketsCurrent σ)
    {j : Nat} {r : Read} {content : Option Text} (hr : σ.landed[j]? = some (r, content)) :
    Safe (State.handle { σ with landed := σ.landed.eraseIdx j } r.key
      (onRead r (σ.live r.key) content)).1 := by
  have hmem := List.mem_of_getElem? hr
  obtain ⟨hvalue, htab⟩ := h.landed _ hmem
  have hresult : (onRead r (σ.live r.key) content).result = .ok () := by
    refine onRead_ok hvalue fun c hc => ?_
    obtain ⟨p, hp, hkey⟩ := hown.landed _ hmem c hc
    rw [← hkey]
    exact (live_ne_none_iff hcurrent).mpr (htab c p.session hc hkey.symm)
  refine h.handle hown (.of_eq rfl rfl rfl rfl) h.alive (fun p hp => Or.inl hp) h.one rfl
    (fun x hx => List.mem_of_mem_eraseIdx hx) hresult fun x hx => ?_
  rw [reads_onRead] at hx
  cases hx

theorem safe_of_reach (h : (machine H).Reach (Careful H) σ) : Safe σ := by
  refine System.Reach.invariant_of (fun σ => (machine H).Reach (Careful H) σ) Safe (fun h => h)
    safe_initial ?_ h
  intro σ i r hreach hσ hcare hstep
  have hown := chartReadsOwned_of_reach hreach
  have hdone := closedDone_of_reach hreach
  cases move_of_step hstep with
  | newSession _ =>
      exact hσ.of_kept hown (.of_eq rfl rfl rfl rfl) hσ.alive (fun p hp => Or.inl hp) hσ.one
        (fun r hr => Or.inl hr) fun x hx => Or.inl hx
  | refused _ => exact hσ
  | connection _ _ _ => exact safe_connection hσ hown (filesOwned_of_reach hreach) hcare
  | disconnect _ => exact safe_disconnect hσ hown hcare
  | upload _ _ => exact safe_upload hσ hown hcare
  | formError _ _ => exact False.elim hcare
  | py hp hact => exact safe_py hσ hown hdone hp hact
  | stdout hp _ hpipe =>
      exact safe_stdout hσ hown (socketsCurrent_of_reach hreach) hp hpipe hcare
  | stderr hp _ herr => exact absurd (hσ.procs _ (List.mem_of_getElem? hp)).err herr
  | close hp _ hdrained hopen => exact safe_close hσ hown hdone hp hdrained hopen
  | land hr _ => exact safe_land hσ hown (sessionOk_of_reach (separate_of_careful hreach)) hr
  | callback hr _ => exact safe_callback hσ hown (socketsCurrent_of_reach hreach) hr

/-! ## What careful runs come to -/

/-- A step that leaves the server alive has thrown nothing. -/
theorem not_threw_of_alive {i : Input} {r : State × List Obs} (h : Move H σ i r)
    (halive : r.1.alive = true) (e : JsError) : .threw e ∉ r.2 := by
  have hhandle : ∀ {τ : State} {key : Text} {body : Handler},
      (τ.handle key body).1.alive = true → .threw e ∉ (τ.handle key body).2 := by
    intro τ key body ha hthrew
    rw [threw_mem_handle] at hthrew
    rw [handle_eq, hthrew] at ha
    simp [Except.isOk, Except.toBool] at ha
  cases h with
  | newSession _ => exact List.not_mem_nil
  | refused _ => exact List.not_mem_nil
  | connection _ _ _ => exact List.not_mem_nil
  | disconnect _ => exact List.not_mem_nil
  | upload _ _ => exact List.not_mem_nil
  | py _ _ => exact List.not_mem_nil
  | land _ _ => exact List.not_mem_nil
  | formError _ _ => exact hhandle halive
  | stdout _ _ _ => exact hhandle halive
  | stderr _ _ _ => exact hhandle halive
  | close _ _ _ _ => exact hhandle halive
  | callback _ _ => exact hhandle halive

/-- A single character is not the name of a chart. -/
theorem careful_of_least {i : Input} (h : i.least = true) : Careful H σ i := by
  cases i with
  | stdout i k =>
      cases k with
      | succ k => cases h
      | zero =>
          intro p _ c hc
          have hkey := chartOf_eq_some_iff.mp hc
          have hshort : (beforeReturn (p.pipe.take 1)).length ≤ 1 :=
            (List.takeWhile_prefix _).length_le.trans (List.length_take_le 1 _)
          rw [hkey] at hshort
          cases c <;> exact absurd hshort (by decide)
  | _ => trivial

/-- From every state of a careful run what is under way can be brought to its end. -/
theorem exists_careful_end (h : (machine H).Reach (Careful H) σ) :
    ∃ is r, (∀ i ∈ is, i.internal = true) ∧ (machine H).exec (Careful H) σ is = some r ∧
      r.1.alive = true ∧ Idle r.1 ∧ ∀ s, r.1.Uniform H s (r.1.files s.text) := by
  have hstop : ∃ is r, (∀ i ∈ is, i.internal = true) ∧
      (machine H).exec (Careful H) σ is = some r ∧ Stuck H (Careful H) r.1 :=
    exists_stuck σ.work rfl
  obtain ⟨is, r, his, hrun, hstuck⟩ := hstop
  have hreach := System.reach_of_exec h hrun
  have halive := (safe_of_reach hreach).alive
  have hidle := idle_of_stuck hstuck halive fun _ => careful_of_least
  refine ⟨is, r, his, hrun, halive, hidle, fun s => ?_⟩
  exact (sessionOk_of_reach (separate_of_careful hreach) s).uniform (fun _ => halive)
    fun p hp _ => (hidle.procs p hp).2.1

end Server
