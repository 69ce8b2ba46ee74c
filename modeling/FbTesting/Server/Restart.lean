import FbTesting.Base.Simulation
import FbTesting.Server.Results

/-!
# The server after a restart

What the server holds in memory is gone after a restart, and so are the forms and the
analysers that were running.  The files stay, and the sessions, which are kept in the
store of the cookies.  `lives` is the site over any number of lives, where a restart
may come at any time.

What a session gets back is what the callback of its next connection makes of
`messages.json`.  The file was left as it was when the machine went down: absent,
whole, or a part.  A whole file is the data of the session again.  A part is not
JSON, the callback throws, and that ends the server.  If files that are uploaded stay
below the directories for uploads, nothing but an upload of the session changes the
file, so that a session whose analyser was cut off ends every later life of the
server as soon as it connects (`restart_restores_iff`).
-/

namespace Server

open Base Node Analyser

/-! ## Lives -/

/-- The state after a restart. -/
def State.restart (σ : State) : State :=
  { State.initial with sessions := σ.sessions, issued := σ.issued, files := σ.files }

def Site.restart (σ : Site) : Site := ⟨σ.core.restart, [], σ.stored⟩

/-- The site over its lives, from a restart in `σ` on.  `none` is another restart. -/
def lives (E : Host) (σ : Site) : System Site (Option SiteInput) Obs where
  init := σ.restart
  step := fun τ i =>
    match i with
    | none => some (τ.restart, [])
    | some i => Site.step E τ i

/-- The session posts no form, and a file begins below its session's directory for
uploads. -/
def NoUpload (E : Host) (s : SessionID) (τ : Site) : Option SiteInput → Prop
  | some (.form t) => t ≠ s
  | some (.fileBegin j name) => ∀ f ∈ τ.forms[j]?,
      Below (uploadsDir E.cwd f.session) (E.place f.session name)
  | _ => True

/-- Only connections read the data of the session, what they read is `content`,
and the data is what `content` holds, if there is any. -/
structure Resumed (s : SessionID) (content : Option Text) (τ : State) : Prop where
  known : s ∈ τ.sessions
  file : τ.files s.text .messages = content
  procs : ∀ p ∈ τ.procs, p.session.text ≠ s.text
  landed : ∀ x ∈ τ.landed, x.1.key = s.text → x.1.kind = .connect ∧ x.2 = content
  started : ∀ x ∈ τ.started, x.key = s.text → x.kind = .connect
  data : ∀ v, τ.userData s.text = some v → fileValue content = some v

variable {H : HashOrder} {σ τ : State} {s : SessionID} {content : Option Text}

theorem Resumed.restart (hs : s ∈ τ.sessions) (h : τ.files s.text .messages = content) :
    Resumed s content τ.restart where
  known := hs
  file := h
  procs := fun _ hp => absurd hp List.not_mem_nil
  landed := fun _ hx => absurd hx List.not_mem_nil
  started := fun _ hx => absurd hx List.not_mem_nil
  data := fun _ hv => by cases hv

/-- A handler of another name leaves it. -/
theorem Resumed.handle_of_ne (h : Resumed s content τ) {k : Text} (hk : k ≠ s.text) (b : Handler) :
    Resumed s content (τ.handle k b).1 := by
  rw [handle_eq]
  refine ⟨h.known, h.file, h.procs, h.landed, fun x hx hkey => ?_, fun v hv => ?_⟩
  · cases List.mem_append.mp hx with
    | inl hold => exact h.started x hold hkey
    | inr hnew => exact absurd ((key_of_mem_reads hnew).symm.trans hkey) hk
  · exact h.data v ((foldl_stores_of_ne (Ne.symm hk) _ _).symm.trans hv)

/-- An analyser of another session is replaced. -/
theorem Resumed.set (h : Resumed s content τ) {i : Nat} {p q : Proc} (hp : τ.procs[i]? = some p)
    (hq : q.session = p.session) :
    Resumed s content { τ with procs := τ.procs.set i q } := by
  refine ⟨h.known, h.file, fun x hx => ?_, h.landed, h.started, h.data⟩
  cases mem_set_cases hx with
  | inl heq =>
      rw [heq, hq]
      exact h.procs p (List.mem_of_getElem? hp)
  | inr hold => exact h.procs x hold

/-- The callback of a connection of the session. -/
theorem handle_connect (τ : State) (s : SessionID) (live : Option SocketId) (t : Text) :
    (τ.handle s.text (onRead ⟨s.text, .connect⟩ live (some t))).1 =
      match Json.parse t with
      | some v => { τ with userData := Function.update τ.userData s.text (some v) }
      | none => { τ with alive := false } := by
  rw [handle_eq, onRead_connect]
  simp only [storeParsed_eq]
  cases Json.parse t with
  | some v => simp [Except.isOk, Except.toBool, Effect.stores, Effect.reads]
  | none => simp [Except.isOk, Except.toBool]

/-- The callback of a read of the session. -/
theorem Resumed.handle_connect (h : Resumed s content τ) (live : Option SocketId) :
    Resumed s content (τ.handle s.text (onRead ⟨s.text, .connect⟩ live content)).1 := by
  cases content with
  | none =>
      rw [handle_eq, onRead_connect]
      refine ⟨h.known, h.file, h.procs, h.landed, fun x hx => ?_, h.data⟩
      exact h.started x (by simpa [Effect.reads] using hx)
  | some t =>
      rw [Server.handle_connect]
      cases hv : Json.parse t with
      | none => exact ⟨h.known, h.file, h.procs, h.landed, h.started, h.data⟩
      | some v =>
          refine ⟨h.known, h.file, h.procs, h.landed, h.started, fun w hw => ?_⟩
          have hwv : some v = some w :=
            (Function.update_self s.text (some v) τ.userData).symm.trans hw
          rw [fileValue, Option.bind_some, hv, hwv]

theorem Resumed.move (h : Resumed s content τ) {i : Input} {r : State × List Obs}
    (hmove : Move H τ i r) (hi : ∀ u, i ≠ .upload s u) : Resumed s content r.1 := by
  cases hmove with
  | newSession _ =>
      exact ⟨List.mem_cons_of_mem _ h.known, h.file, h.procs, h.landed, h.started, h.data⟩
  | refused _ => exact h
  | disconnect _ => exact ⟨h.known, h.file, h.procs, h.landed, h.started, h.data⟩
  | connection _ _ _ =>
      refine ⟨h.known, h.file, h.procs, h.landed, fun x hx hkey => ?_, h.data⟩
      simp only [State.connection] at hx
      split at hx
      · cases List.mem_append.mp hx with
        | inl hold => exact h.started x hold hkey
        | inr hnew => rw [List.mem_singleton.mp hnew]
      · exact h.started x hx hkey
  | @upload t u _ _ =>
      refine ⟨h.known, h.file, fun p hp => ?_, h.landed, h.started, h.data⟩
      cases List.mem_append.mp hp with
      | inl hold => exact h.procs p hold
      | inr hnew =>
          rw [List.mem_singleton.mp hnew]
          exact fun heq => hi u (congrArg (Input.upload · u) (SessionID.ext heq))
  | @formError t err _ _ =>
      by_cases hk : t.text = s.text
      · rw [handle_eq]
        refine ⟨h.known, h.file, h.procs, h.landed, fun x hx => ?_, h.data⟩
        cases List.mem_append.mp hx with
        | inl hold => exact h.started x hold
        | inr hnew => cases hnew
      · exact h.handle_of_ne hk _
  | @py i k p p' files hp hact =>
      have hne := h.procs p (List.mem_of_getElem? hp)
      have hset := h.set hp (Proc.act_session hact).1
      refine ⟨h.known, ?_, hset.procs, h.landed, h.started, h.data⟩
      show Function.update τ.files p.session.text files s.text .messages = content
      rw [Function.update_of_ne (Ne.symm hne)]
      exact h.file
  | stdout hp _ _ =>
      refine Resumed.handle_of_ne ?_ (h.procs _ (List.mem_of_getElem? hp)) _
      exact h.set hp rfl
  | stderr hp _ _ =>
      refine Resumed.handle_of_ne ?_ (h.procs _ (List.mem_of_getElem? hp)) _
      exact h.set hp rfl
  | close hp _ _ _ =>
      refine Resumed.handle_of_ne ?_ (h.procs _ (List.mem_of_getElem? hp)) _
      exact h.set hp rfl
  | @land j x hx _ =>
      refine ⟨h.known, h.file, h.procs, fun y hy hkey => ?_, fun y hy => ?_, h.data⟩
      · cases List.mem_append.mp hy with
        | inl hold => exact h.landed y hold hkey
        | inr hnew =>
            rw [List.mem_singleton.mp hnew] at hkey ⊢
            have hkind := h.started x (List.mem_of_getElem? hx) hkey
            refine ⟨hkind, ?_⟩
            have hfile : x.file = .messages := by rw [Read.file, hkind]
            rw [hkey, hfile]
            exact h.file
      · exact h.started y (List.mem_of_mem_eraseIdx hy)
  | @callback j x c hx _ =>
      have herase : Resumed s content { τ with landed := τ.landed.eraseIdx j } :=
        ⟨h.known, h.file, h.procs, fun y hy => h.landed y (List.mem_of_mem_eraseIdx hy), h.started,
          h.data⟩
      by_cases hk : x.key = s.text
      · obtain ⟨hkind, rfl⟩ := h.landed _ (List.mem_of_getElem? hx) hk
        obtain ⟨key, kind⟩ := x
        cases hk
        cases hkind
        exact herase.handle_connect _
      · exact herase.handle_of_ne hk _

variable {E : Host} {υ : Site}

/-- No form is one of the session, and none has a file in the place of one of the
analysers'. -/
structure SiteResumed (E : Host) (s : SessionID) (content : Option Text) (υ : Site) : Prop where
  core : Resumed s content υ.core
  forms : ∀ f ∈ υ.forms, f.session ≠ s
  places : ∀ f ∈ υ.forms, ∀ name, f.filename = some name →
    outAt E.cwd (E.place f.session name) = none

theorem SiteResumed.restart (hs : s ∈ υ.core.sessions)
    (h : υ.core.files s.text .messages = content) : SiteResumed E s content υ.restart where
  core := .restart hs h
  forms := fun _ hf => absurd hf List.not_mem_nil
  places := fun _ hf => absurd hf List.not_mem_nil

/-- An analyser that reads its document is one of another session. -/
theorem SiteResumed.before (h : SiteResumed E s content υ) (i : Input) :
    Resumed s content (υ.before E i) := by
  cases i with
  | py i k =>
      rw [Site.before]
      split
      next f hfind =>
        have hf := h.forms f (List.mem_of_find?_eq_some hfind)
        refine ⟨h.core.known, h.core.file, fun p hp => ?_, h.core.landed, h.core.started,
          h.core.data⟩
        cases mem_set_cases hp with
        | inl heq =>
            rw [heq]
            exact fun hkey => hf (SessionID.ext hkey)
        | inr hold => exact h.core.procs p hold
      next => exact h.core
  | _ => exact h.core

/-- A form of the same session goes on, with a file that is none of the analysers'. -/
theorem SiteResumed.forms_set (h : SiteResumed E s content υ) {τ : State}
    (hcore : Resumed s content τ) {j : Nat} {f f' : Form} (hf : υ.forms[j]? = some f)
    (hsession : f'.session = f.session)
    (hplace : ∀ name, f'.filename = some name → outAt E.cwd (E.place f'.session name) = none)
    (stored : Path → Option Text) :
    SiteResumed E s content ⟨τ, υ.forms.set j f', stored⟩ := by
  refine ⟨hcore, fun g hg => ?_, fun g hg => ?_⟩
  · cases mem_set_cases hg with
    | inl heq =>
        rw [heq, hsession]
        exact h.forms f (List.mem_of_getElem? hf)
    | inr hold => exact h.forms g hold
  · cases mem_set_cases hg with
    | inl heq =>
        rw [heq]
        exact hplace
    | inr hold => exact h.places g hold

theorem SiteResumed.move (h : SiteResumed E s content υ) {i : SiteInput} {r : Site × List Obs}
    (hmove : SiteMove E υ i r) (hi : NoUpload E s υ (some i)) : SiteResumed E s content r.1 := by
  cases hmove with
  | @form t _ _ =>
      refine ⟨h.core, fun f hf => ?_, fun f hf name hname => ?_⟩
      · cases List.mem_append.mp hf with
        | inl hold => exact h.forms f hold
        | inr hnew =>
            rw [List.mem_singleton.mp hnew]
            exact hi
      · cases List.mem_append.mp hf with
        | inl hold => exact h.places f hold name hname
        | inr hnew =>
            rw [List.mem_singleton.mp hnew] at hname
            cases hname
  | fileBegin hf _ _ =>
      have hout := outAt_of_below (hi _ hf)
      rw [Site.write_eq hout]
      refine h.forms_set h.core hf ?_ (fun name hname => ?_) _
      · rfl
      · cases hname
        exact hout
  | receive hf hname _ _ =>
      have hsame := h.places _ (List.mem_of_getElem? hf)
      rw [Site.write_eq (hsame _ hname)]
      refine h.forms_set h.core hf ?_ ?_ _
      · rfl
      · exact hsame
  | formEnd hf _ hstep =>
      have hmem := List.mem_of_getElem? hf
      have hsame := h.places _ hmem
      refine h.forms_set (h.core.move (move_of_step hstep) fun u heq => ?_) hf ?_ ?_ _
      · cases heq
        exact h.forms _ hmem rfl
      · rfl
      · exact hsame
  | @core i _ hother hstep =>
      refine ⟨(h.before i).move (move_of_step hstep) fun u heq => ?_, fun g hg => ?_,
        fun g hg name hname => ?_⟩
      · rw [heq] at hother
        cases hother
      · obtain ⟨f, hf, rfl⟩ := List.mem_map.mp hg
        rw [(f.follows_after (E := E) i).session]
        exact h.forms f hf
      · obtain ⟨f, hf, rfl⟩ := List.mem_map.mp hg
        have hfollows := f.follows_after (E := E) i
        have hsame : (f.after i).filename = f.filename := congrArg Upload.filename hfollows.upload
        rw [hsame] at hname
        rw [hfollows.session]
        exact h.places f hf name hname

theorem resumed_of_reach {σ : Site} (hs : s ∈ σ.core.sessions)
    (hυ : (lives E σ).Reach (NoUpload E s) υ) :
    SiteResumed E s (σ.core.files s.text .messages) υ := by
  refine System.Reach.invariant (SiteResumed E s (σ.core.files s.text .messages))
    (.restart hs rfl) ?_ hυ
  intro τ i r hres hok hstep
  cases i with
  | none =>
      cases hstep
      exact .restart hres.core.known hres.core.file
  | some i => exact hres.move (siteMove_of_step hstep) hok

/-! ## What a session gets back -/

/-- A whole file is read as the messages, and no other file is read. -/
theorem fileValue_eq_some_iff {cuts : Bool} (h : (machine H).Reach (Separate cuts) σ) {v : Json} :
    fileValue (σ.files s.text .messages) = some v ↔
      ∃ res, σ.HasResults H s res ∧ σ.files s.text .messages = some (res.text .messages) ∧
        v = res.messages := by
  constructor
  · intro hv
    obtain ⟨t, ht, hparse⟩ := Option.bind_eq_some_iff.mp hv
    cases (sessionOk_of_reach h s).holdsPart .messages with
    | inl hnone => rw [hnone] at ht; cases ht
    | inr hpart =>
        obtain ⟨res, t', ⟨p, hp, hps, hres⟩, ht', hprefix⟩ := hpart
        rw [ht, Option.some.injEq] at ht'
        subst ht'
        obtain ⟨hexact, hcont⟩ := results_exact hres .messages
        have hwhole : t = res.text .messages := by
          by_contra hne
          rw [Json.parse_prefix_dump hexact hcont hprefix hne] at hparse
          cases hparse
        refine ⟨res, ⟨p, hp, hps, hres⟩, by rw [ht, hwhole], ?_⟩
        exact parse_prefix_results hres hprefix hparse
  · rintro ⟨res, ⟨p, hp, hps, hres⟩, hfile, rfl⟩
    rw [hfile]
    exact Json.parse_dump (results_exact hres .messages).1

/-- The callback of a connection ends the server, or it stores what it read. -/
theorem alive_handle_connect (ha : τ.alive = true) (live : Option SocketId) {r : State}
    (hr : (τ.handle s.text (onRead ⟨s.text, .connect⟩ live content)).1 = r) :
    (r.alive = true ↔ ∃ v, fileValue content = some v) ∧
      ∀ v, fileValue content = some v → r.userData s.text = some v := by
  subst hr
  cases content with
  | none =>
      rw [handle_eq, onRead_connect]
      simp [fileValue, Except.isOk, Except.toBool]
  | some t =>
      rw [Server.handle_connect]
      cases hv : Json.parse t with
      | none => simp [fileValue, hv]
      | some v => simp [fileValue, hv, ha]

/-- A session whose file is there connects to a server that was just started. -/
theorem exec_reconnect (hs : s ∈ τ.sessions) {id : SocketId} (hid : id ∉ τ.issued.map Prod.fst)
    (hfile : (τ.files s.text .messages).isSome = true) :
    ∃ (τ' : State) (live : Option SocketId) (os : List Obs), τ'.alive = true ∧
      (machine H).exec System.anyInput τ.restart
          [.handshake id (some (.valid s)), .land 0, .callback 0] =
        some ((τ'.handle s.text
          (onRead ⟨s.text, .connect⟩ live (τ.files s.text .messages))).1, os) := by
  have hknown : CookieKnown τ.sessions (some (.valid s)) := fun t ht => by
    cases ht
    exact hs
  have hconnect : (machine H).step τ.restart (.handshake id (some (.valid s))) =
      some ({ τ.restart.connection id (.valid s) with started := [⟨s.text, .connect⟩] }, []) := by
    have hstarted : (τ.restart.connection id (.valid s)).started = [⟨s.text, .connect⟩] :=
      if_pos hfile
    rw [← hstarted]
    exact if_pos ⟨rfl, hid, hknown⟩
  exact ⟨{ τ.restart.connection id (.valid s) with started := [] }, _, _, rfl,
    System.exec_cons_eq_some.mpr ⟨trivial, _, hconnect, _, rfl, rfl⟩⟩

/-- `messages.json` of the session is all that one document has to say. -/
def Site.Whole (E : Host) (σ : Site) (s : SessionID) : Prop :=
  ∃ res, σ.HasResults E s res ∧ σ.core.files s.text .messages = some (res.text .messages)

theorem whole_iff {cuts : Bool} {σ : Site} (h : (machine E.order).Reach (Separate cuts) σ.core)
    (hplace : InPlace E σ) :
    (∃ v, fileValue (σ.core.files s.text .messages) = some v) ↔ σ.Whole E s := by
  constructor
  · rintro ⟨v, hv⟩
    obtain ⟨res, hres, hfile, _⟩ := (fileValue_eq_some_iff h).mp hv
    exact ⟨res, hplace.hasResults hres, hfile⟩
  · rintro ⟨res, ⟨f, _, _, _, hres⟩, hfile⟩
    rw [hfile]
    exact ⟨_, Json.parse_dump (results_exact hres .messages).1⟩

/-- A site without forms and analysers has nothing out of place. -/
theorem inPlace_restart (E : Host) (υ : Site) : InPlace E υ.restart where
  stored := fun _ hf => absurd hf List.not_mem_nil
  apart := fun _ _ _ _ _ hf => by simp [Site.restart] at hf
  unread := fun _ hf => absurd hf List.not_mem_nil
  procs := fun _ hp => absurd hp List.not_mem_nil

/-- The machine goes down in a state of the site that was reached with uploads that do not
overlap and are not disturbed.  Later the session posts no form, and files are uploaded
below the directories for uploads only.  In all later lives of the server, what it holds
of the session is the messages of one document that the session has sent.  The callback
of a connection of the session leaves the server alive just if `messages.json` was whole
when the machine went down, and a server that was just started reads it when the session
connects. -/
theorem restart_restores_iff {σ : Site}
    (hσ : (site E).Reach (Undisturbed E (Separate true)) σ) (hs : s ∈ σ.core.sessions)
    (hυ : (lives E σ).Reach (NoUpload E s) υ) :
    (∀ v, υ.core.userData s.text = some v → ∃ res, σ.HasResults E s res ∧ v = res.messages) ∧
      (∀ j kind content r, υ.core.landed[j]? = some (⟨s.text, kind⟩, content) →
        Site.step E υ (.core (.callback j)) = some r →
          (r.1.core.alive = true ↔ σ.Whole E s) ∧
          (r.1.core.alive = true → (r.1.core.userData s.text).isSome = true)) ∧
      ∀ id, id ∉ υ.core.issued.map Prod.fst → (σ.core.files s.text .messages).isSome = true →
        ∃ r, (site E).exec (Undisturbed E System.anyInput) υ.restart
            (List.map .core [.handshake id (some (.valid s)), .land 0, .callback 0]) = some r ∧
          (r.1.core.alive = true ↔ σ.Whole E s) ∧
          (r.1.core.alive = true → (r.1.core.userData s.text).isSome = true) := by
  obtain ⟨hcore, hplace⟩ := core_of_reach hσ
  have hres := (resumed_of_reach hs hυ).core
  have hcallback : ∀ (τ' r : State) live, τ'.alive = true →
      (τ'.handle s.text (onRead ⟨s.text, .connect⟩ live (σ.core.files s.text .messages))).1 = r →
      (r.alive = true ↔ σ.Whole E s) ∧
        (r.alive = true → (r.userData s.text).isSome = true) := by
    intro τ' r live ha hr
    obtain ⟨halive, hdata⟩ := alive_handle_connect ha live hr
    refine ⟨halive.trans (whole_iff hcore hplace), fun h => ?_⟩
    obtain ⟨v, hv⟩ := halive.mp h
    rw [hdata v hv, Option.isSome_some]
  refine ⟨fun v hv => ?_, fun j kind content r hj hstep => ?_, fun id hid hfile => ?_⟩
  · obtain ⟨res, hr, _, heq⟩ := (fileValue_eq_some_iff hcore).mp (hres.data v hv)
    exact ⟨res, hplace.hasResults hr, heq⟩
  · cases siteMove_of_step hstep with
    | core _ hback =>
        cases move_of_step hback with
        | callback hx ha =>
            cases hj.symm.trans hx
            obtain ⟨rfl, rfl⟩ := hres.landed _ (List.mem_of_getElem? hj) rfl
            exact hcallback { υ.core with landed := υ.core.landed.eraseIdx j } _ _ ha rfl
  · rw [← hres.file] at hfile
    obtain ⟨τ', live, os, ha, hexec⟩ := exec_reconnect (H := E.order) hres.known hid hfile
    rw [hres.file] at hexec
    obtain ⟨τ, hrun, hend, _⟩ := site_exec_of_exec (inPlace_restart E υ)
      (by simp [Input.isUpload]) hexec
    refine ⟨_, hrun, ?_⟩
    rw [hend]
    exact hcallback _ _ _ ha rfl

/-- An analyser that was cut off in the middle of `messages.json`. -/
def cutOffSite : Site :=
  (site sampleHost).after (Undisturbed sampleHost (Separate true))
    (.core (.newSession .least) :: pageForm 0 firstSession samplePage ++
      List.map .core (List.replicate 6 (.py 0 3)))

/-- The session ends the next life of the server when it connects. -/
theorem restart_restores_iff_cut_off :
    ∃ r, (site sampleHost).exec (Undisturbed sampleHost System.anyInput) cutOffSite.restart.restart
        (List.map .core [.handshake 1 (some (.valid firstSession)), .land 0, .callback 0]) =
          some r ∧ r.1.core.alive = false := by
  have hstate : firstSession ∈ cutOffSite.core.sessions ∧
      1 ∉ cutOffSite.restart.core.issued.map Prod.fst ∧
      (cutOffSite.core.files firstSession.text .messages).isSome = true ∧
      fileValue (cutOffSite.core.files firstSession.text .messages) = none := by decide +kernel
  obtain ⟨hknown, hid, hsome, hpart⟩ := hstate
  have hreach : (site sampleHost).Reach (Undisturbed sampleHost (Separate true)) cutOffSite :=
    System.reach_after _
  obtain ⟨_, _, hconnect⟩ := restart_restores_iff hreach hknown .init
  obtain ⟨r, hrun, halive, _⟩ := hconnect 1 hid hsome
  refine ⟨r, hrun, Bool.eq_false_iff.mpr fun ha => ?_⟩
  obtain ⟨hcore, hplace⟩ := core_of_reach hreach
  obtain ⟨v, hv⟩ := (whole_iff hcore hplace).mpr (halive.mp ha)
  rw [hpart] at hv
  cases hv

end Server
