import Mathlib.Logic.Function.Basic
import FbTesting.Base.Run
import FbTesting.Server.RunPython

/-!
# The server and its analysers

The state is what the server holds in memory (`userData`, `sockets`, the
connected sockets and the IDs they connected with), the three files of each
session, the analysers that were started and the reads that are under way.  The
inputs are the steps that the environment may take in any order: sessions and
sockets come and go, uploads end or fail, an analyser performs its next act, a
chunk of its output arrives, it is reported as closed, a read takes the content
of its file, and the callback of a read runs.

A handler runs to its end before the next input.  An exception that escapes it
ends the server: `alive` is then false, and only the analysers go on, up to a flush
that finds the pipe closed.

An upload is taken from its end on, with the document that its analyser finds.  What
forms store before that is in `Site`.

`sockets` and `userData` are objects, so that they are maps from property names.
A socket is remembered with the ID of its handshake in `issued`, the newest
first; this is `socket.request.sessionID` of each socket, and no step reads it
but the connection handler.
-/

namespace Server

open Base Node Analyser Python

/-! ## State -/

/-- What a form delivers at its end: the name of the file, if there was one, and
what pyquery makes of it. -/
structure Upload where
  filename : Option Text
  doc : Except PyError Document

/-- The path given to the analyser.  The name of a missing file is `undefined`. -/
def Upload.filepath (s : SessionID) (u : Upload) : Text :=
  "./users/".toList ++ s.text ++ "/uploads/".toList ++ u.filename.getD "undefined".toList

/-- A run of the analyser. -/
structure Proc where
  session : SessionID
  upload : Upload
  /-- The acts that are still to be performed. -/
  todo : List Act
  /-- Written to standard output but not flushed. -/
  buffer : Text
  /-- Flushed but not delivered. -/
  pipe : Text
  /-- Tracebacks that were not delivered. -/
  err : List PyError
  /-- The position in the open file. -/
  offset : Nat
  /-- The exit status it will have. -/
  code : Nat
  /-- `close` was reported. -/
  closed : Bool

/-- What a read of a file is for. -/
inductive ReadKind where
  | chart (c : Chart)
  /-- `messages.json`, when an analyser has ended. -/
  | close
  /-- `messages.json`, when a socket has connected. -/
  | connect
deriving DecidableEq

/-- A read that was started, with the property name of its session. -/
structure Read where
  key : Text
  kind : ReadKind
deriving DecidableEq

/-- The file it reads. -/
def Read.file (r : Read) : OutFile :=
  match r.kind with
  | .chart .hourHistogram => .hourHistogram
  | .chart .timeline => .timeline
  | .close => .messages
  | .connect => .messages

/-- The state. -/
structure State where
  alive : Bool
  sessions : List SessionID
  /-- Every socket that connected, with the cookie of its handshake, newest first. -/
  issued : List (SocketId × SignedSid)
  /-- `nsp.connected`. -/
  connected : List SocketId
  sockets : Text → Option SocketId
  userData : Text → Option Json
  files : Text → OutFile → Option Text
  procs : List Proc
  /-- Reads that have not taken the content of their file. -/
  started : List Read
  /-- Reads that have, with the content, in the order in which they did. -/
  landed : List (Read × Option Text)

/-- The state of a server that was just started, with no user directories. -/
def State.initial : State where
  alive := true
  sessions := []
  issued := []
  connected := []
  sockets := fun _ => none
  userData := fun _ => none
  files := fun _ _ => none
  procs := []
  started := []
  landed := []

/-! ## Effects of handlers -/

/-- What is observed of the server. -/
inductive Obs where
  /-- An event caused by an upload of a session was sent to a socket. -/
  | sent (key : Text) (event : Event) (payload : Payload) (socket : SocketId)
  /-- An exception escaped a handler. -/
  | threw (e : JsError)

/-- `nsp.connected[sockets[key]]`. -/
def State.live (σ : State) (key : Text) : Option SocketId :=
  (σ.sockets key).bind fun id => if id ∈ σ.connected then some id else none

/-- What an effect changes. -/
def State.perform (key : Text) (σ : State) : Effect → State
  | .emit _ _ _ => σ
  | .console _ => σ
  | .readChart c => { σ with started := σ.started ++ [⟨key, .chart c⟩] }
  | .readStore => { σ with started := σ.started ++ [⟨key, .close⟩] }
  | .store v => { σ with userData := Function.update σ.userData key (some v) }

/-- What is observed of an effect. -/
def Effect.obs (key : Text) : Effect → List Obs
  | .emit event payload socket => [.sent key event payload socket]
  | _ => []

/-- The run of a handler for a session. -/
def State.handle (σ : State) (key : Text) (h : Handler) : State × List Obs :=
  let σ' := h.acts.foldl (State.perform key) σ
  let os := h.acts.flatMap (Effect.obs key)
  match h.result with
  | .ok _ => (σ', os)
  | .error e => ({ σ' with alive := false }, os ++ [.threw e])

/-! ## Analysers -/

/-- A write at a position of a file.  A gap before it is filled with zeros. -/
def writeAt (content : Text) (offset : Nat) (t : Text) : Text :=
  content.take offset ++ List.replicate (offset - content.length) '\x00' ++ t ++
    content.drop (offset + t.length)

theorem writeAt_length (c t : Text) : writeAt c c.length t = c ++ t := by
  simp [writeAt]

/-- The next act of an analyser on the files of its session; a write puts at most
`k + 1` characters.  When the server has ended nobody reads its output: to flush some
is an `IOError`, after which nothing more is done. -/
def Proc.act (p : Proc) (alive : Bool) (k : Nat) (files : OutFile → Option Text) :
    Option (Proc × (OutFile → Option Text)) :=
  match p.todo with
  | [] => none
  | .stdout t :: rest => some ({ p with todo := rest, buffer := p.buffer ++ t }, files)
  | .flush :: rest =>
      if alive = true ∨ p.buffer = [] then
        some ({ p with todo := rest, pipe := p.pipe ++ p.buffer, buffer := [] }, files)
      else some ({ p with todo := [], buffer := [] }, files)
  | .open f :: rest =>
      some ({ p with todo := rest, offset := 0 }, Function.update files f (some []))
  | .write f t :: rest =>
      let part := t.take (k + 1)
      let todo := if t.length ≤ k + 1 then rest else .write f (t.drop (k + 1)) :: rest
      some ({ p with todo := todo, offset := p.offset + part.length },
        Function.update files f (some (writeAt ((files f).getD []) p.offset part)))
  | .close _ :: rest => some ({ p with todo := rest }, files)
  | .stderr e :: rest => some ({ p with todo := rest, err := p.err ++ [e] }, files)

/-- An analyser that has ended, all of its output having been delivered. -/
def Proc.drained (p : Proc) : Bool := p.todo.isEmpty && p.pipe.isEmpty && p.err.isEmpty

/-- The text of a traceback. -/
def traceback : Text := "Traceback (most recent call last):".toList

/-! ## Steps -/

/-- What the environment may do. -/
inductive Input where
  /-- A session is created. -/
  | newSession (d : Draw)
  /-- A handshake with a fresh socket, with or without a cookie header. -/
  | handshake (id : SocketId) (cookie : Option SignedSid)
  | disconnect (id : SocketId)
  /-- The end of a form. -/
  | upload (s : SessionID) (u : Upload)
  /-- A failure reported by the form parser. -/
  | formError (s : SessionID) (err : Text)
  /-- The next act of an analyser. -/
  | py (i k : Nat)
  /-- The next `k + 1` characters of its standard output arrive. -/
  | stdout (i k : Nat)
  /-- A traceback arrives. -/
  | stderr (i : Nat)
  /-- The end of an analyser is reported. -/
  | close (i : Nat)
  /-- A read takes the content of its file. -/
  | land (j : Nat)
  /-- The callback of a read runs. -/
  | callback (j : Nat)

/-- `nsp.on('connection')` for a socket whose handshake had the cookie `c`. -/
def State.connection (σ : State) (id : SocketId) (c : SignedSid) : State :=
  { σ with
    issued := (id, c) :: σ.issued
    connected := id :: σ.connected
    sockets := Function.update σ.sockets c.key (some id)
    started :=
      if (σ.files c.key .messages).isSome then σ.started ++ [⟨c.key, .connect⟩] else σ.started }

/-- What a callback is given. -/
def readResult : Option Text → Except Text Text
  | some t => .ok t
  | none => .error "Error: ENOENT".toList

/-- The callback of a read. -/
def onRead (r : Read) (live : Option SocketId) (content : Option Text) : Handler :=
  match r.kind with
  | .chart c => onChartRead c live (readResult content)
  | .close => onCloseRead (readResult content)
  | .connect => onConnectionRead (readResult content)

/-- A cookie names a session that was created, or none. -/
def CookieKnown (sessions : List SessionID) (c : Option SignedSid) : Prop :=
  ∀ s, c = some (.valid s) → s ∈ sessions

instance (sessions : List SessionID) (c : Option SignedSid) : Decidable (CookieKnown sessions c) :=
  match c with
  | none => isTrue fun _ h => nomatch h
  | some .undefined => isTrue fun _ h => nomatch h
  | some .tampered => isTrue fun _ h => nomatch h
  | some (.valid s) =>
      decidable_of_iff (s ∈ sessions)
        ⟨fun h _ heq => by cases heq; exact h, fun h => h s rfl⟩

section

variable (H : HashOrder)

/-- `runPython`: the run of the analyser on an upload. -/
def Proc.start (s : SessionID) (u : Upload) : Proc :=
  let run := analyse H s.text (u.filepath s) u.doc
  { session := s, upload := u, todo := run.acts, buffer := [], pipe := [], err := [], offset := 0,
    code := run.code, closed := false }

/-- The step of the server and its analysers. -/
def step (σ : State) : Input → Option (State × List Obs)
  | .newSession d =>
      if σ.alive then some ({ σ with sessions := genuuid d :: σ.sessions }, []) else none
  | .handshake id cookie =>
      if σ.alive ∧ id ∉ σ.issued.map Prod.fst ∧ CookieKnown σ.sessions cookie then
        match cookie with
        | none => some (σ, [])
        | some c => some (σ.connection id c, [])
      else none
  | .disconnect id =>
      if σ.alive then some ({ σ with connected := σ.connected.filter (· ≠ id) }, []) else none
  | .upload s u =>
      if σ.alive ∧ s ∈ σ.sessions then some ({ σ with procs := σ.procs ++ [Proc.start H s u] }, [])
      else none
  | .formError s err =>
      if σ.alive ∧ s ∈ σ.sessions then some (σ.handle s.text (onFormError err)) else none
  | .py i k => do
      let p ← σ.procs[i]?
      let (p', files) ← p.act σ.alive k (σ.files p.session.text)
      some ({ σ with procs := σ.procs.set i p',
                     files := Function.update σ.files p.session.text files }, [])
  | .stdout i k => do
      let p ← σ.procs[i]?
      if σ.alive ∧ p.pipe ≠ [] then
        some (State.handle { σ with procs := σ.procs.set i { p with pipe := p.pipe.drop (k + 1) } }
          p.session.text (onStdoutData (σ.live p.session.text) (p.pipe.take (k + 1))))
      else none
  | .stderr i => do
      let p ← σ.procs[i]?
      if σ.alive ∧ p.err ≠ [] then
        some (State.handle { σ with procs := σ.procs.set i { p with err := p.err.drop 1 } }
          p.session.text (onStderrData traceback))
      else none
  | .close i => do
      let p ← σ.procs[i]?
      if σ.alive ∧ p.drained ∧ ¬p.closed then
        some (State.handle { σ with procs := σ.procs.set i { p with closed := true } }
          p.session.text (onClose p.code))
      else none
  | .land j => do
      let r ← σ.started[j]?
      if σ.alive then
        some ({ σ with started := σ.started.eraseIdx j,
                       landed := σ.landed ++ [(r, σ.files r.key r.file)] }, [])
      else none
  | .callback j => do
      let (r, content) ← σ.landed[j]?
      if σ.alive then
        some (State.handle { σ with landed := σ.landed.eraseIdx j } r.key
          (onRead r (σ.live r.key) content))
      else none

/-- The system. -/
def machine : System State Input Obs := ⟨State.initial, step H⟩

/-! ## What a step can do -/

/-- A step by its cases, with the conditions under which it is possible. -/
inductive Move (σ : State) : Input → State × List Obs → Prop where
  | newSession {d : Draw} (alive : σ.alive = true) :
      Move σ (.newSession d) ({ σ with sessions := genuuid d :: σ.sessions }, [])
  | refused {id : SocketId} (alive : σ.alive = true) : Move σ (.handshake id none) (σ, [])
  | connection {id : SocketId} {c : SignedSid} (alive : σ.alive = true)
      (fresh : id ∉ σ.issued.map Prod.fst) (known : CookieKnown σ.sessions (some c)) :
      Move σ (.handshake id (some c)) (σ.connection id c, [])
  | disconnect {id : SocketId} (alive : σ.alive = true) :
      Move σ (.disconnect id) ({ σ with connected := σ.connected.filter (· ≠ id) }, [])
  | upload {s : SessionID} {u : Upload} (alive : σ.alive = true) (known : s ∈ σ.sessions) :
      Move σ (.upload s u) ({ σ with procs := σ.procs ++ [Proc.start H s u] }, [])
  | formError {s : SessionID} {err : Text} (alive : σ.alive = true) (known : s ∈ σ.sessions) :
      Move σ (.formError s err) (σ.handle s.text (onFormError err))
  | py {i k : Nat} {p p' : Proc} {files : OutFile → Option Text} (proc : σ.procs[i]? = some p)
      (act : p.act σ.alive k (σ.files p.session.text) = some (p', files)) :
      Move σ (.py i k) ({ σ with procs := σ.procs.set i p',
                                 files := Function.update σ.files p.session.text files }, [])
  | stdout {i k : Nat} {p : Proc} (proc : σ.procs[i]? = some p) (alive : σ.alive = true)
      (pipe : p.pipe ≠ []) :
      Move σ (.stdout i k)
        (State.handle { σ with procs := σ.procs.set i { p with pipe := p.pipe.drop (k + 1) } }
          p.session.text (onStdoutData (σ.live p.session.text) (p.pipe.take (k + 1))))
  | stderr {i : Nat} {p : Proc} (proc : σ.procs[i]? = some p) (alive : σ.alive = true)
      (err : p.err ≠ []) :
      Move σ (.stderr i)
        (State.handle { σ with procs := σ.procs.set i { p with err := p.err.drop 1 } }
          p.session.text (onStderrData traceback))
  | close {i : Nat} {p : Proc} (proc : σ.procs[i]? = some p) (alive : σ.alive = true)
      (drained : p.drained = true) (closed : p.closed = false) :
      Move σ (.close i)
        (State.handle { σ with procs := σ.procs.set i { p with closed := true } }
          p.session.text (onClose p.code))
  | land {j : Nat} {r : Read} (read : σ.started[j]? = some r) (alive : σ.alive = true) :
      Move σ (.land j) ({ σ with started := σ.started.eraseIdx j,
                                 landed := σ.landed ++ [(r, σ.files r.key r.file)] }, [])
  | callback {j : Nat} {r : Read} {content : Option Text}
      (read : σ.landed[j]? = some (r, content)) (alive : σ.alive = true) :
      Move σ (.callback j)
        (State.handle { σ with landed := σ.landed.eraseIdx j } r.key
          (onRead r (σ.live r.key) content))

variable {H}

/-- Every step is one of the cases. -/
theorem move_of_step {σ : State} {i : Input} {r : State × List Obs} (h : step H σ i = some r) :
    Move H σ i r := by
  cases i with
  | newSession d =>
      obtain ⟨ha, hr⟩ := Option.ite_none_right_eq_some.mp h
      cases hr
      exact .newSession ha
  | handshake id cookie =>
      obtain ⟨⟨ha, hfresh, hknown⟩, hr⟩ := Option.ite_none_right_eq_some.mp h
      cases cookie with
      | none => cases hr; exact .refused ha
      | some c => cases hr; exact .connection ha hfresh hknown
  | disconnect id =>
      obtain ⟨ha, hr⟩ := Option.ite_none_right_eq_some.mp h
      cases hr
      exact .disconnect ha
  | upload s u =>
      obtain ⟨⟨ha, hs⟩, hr⟩ := Option.ite_none_right_eq_some.mp h
      cases hr
      exact .upload ha hs
  | formError s err =>
      obtain ⟨⟨ha, hs⟩, hr⟩ := Option.ite_none_right_eq_some.mp h
      cases hr
      exact .formError ha hs
  | py i k =>
      obtain ⟨p, hp, h⟩ := Option.bind_eq_some_iff.mp h
      obtain ⟨⟨p', files⟩, hact, hr⟩ := Option.bind_eq_some_iff.mp h
      cases hr
      exact .py hp hact
  | stdout i k =>
      obtain ⟨p, hp, h⟩ := Option.bind_eq_some_iff.mp h
      obtain ⟨⟨ha, hpipe⟩, hr⟩ := Option.ite_none_right_eq_some.mp h
      cases hr
      exact .stdout hp ha hpipe
  | stderr i =>
      obtain ⟨p, hp, h⟩ := Option.bind_eq_some_iff.mp h
      obtain ⟨⟨ha, herr⟩, hr⟩ := Option.ite_none_right_eq_some.mp h
      cases hr
      exact .stderr hp ha herr
  | close i =>
      obtain ⟨p, hp, h⟩ := Option.bind_eq_some_iff.mp h
      obtain ⟨⟨ha, hdone, hopen⟩, hr⟩ := Option.ite_none_right_eq_some.mp h
      cases hr
      exact .close hp ha hdone (Bool.eq_false_iff.mpr hopen)
  | land j =>
      obtain ⟨r, hread, h⟩ := Option.bind_eq_some_iff.mp h
      obtain ⟨ha, hr⟩ := Option.ite_none_right_eq_some.mp h
      cases hr
      exact .land hread ha
  | callback j =>
      obtain ⟨⟨r, content⟩, hr, h⟩ := Option.bind_eq_some_iff.mp h
      obtain ⟨ha, hres⟩ := Option.ite_none_right_eq_some.mp h
      cases hres
      exact .callback hr ha

/-- Every case is a step.  A handshake without a cookie is left out: its case does
not say that the socket is fresh. -/
theorem step_of_move {σ : State} {i : Input} {r : State × List Obs} (h : Move H σ i r)
    (hi : ∀ id, i ≠ .handshake id none) : step H σ i = some r := by
  cases h with
  | newSession alive => simp [step, alive]
  | refused _ => exact absurd rfl (hi _)
  | connection alive fresh known => exact if_pos ⟨alive, fresh, known⟩
  | disconnect alive => simp [step, alive]
  | upload alive known => simp [step, alive, known]
  | formError alive known => simp [step, alive, known]
  | py proc act => simp [step, proc, act]
  | stdout proc alive pipe => simp [step, proc, alive, pipe]
  | stderr proc alive err => simp [step, proc, alive, err]
  | close proc alive drained closed => simp [step, proc, alive, drained, closed]
  | land read alive => simp [step, read, alive]
  | callback read alive => simp [step, read, alive]

end

/-- Only acts of analysers are steps of a server that has ended. -/
theorem py_of_not_alive {H : HashOrder} {σ : State} {i : Input} {r : State × List Obs}
    (h : Move H σ i r) (ha : σ.alive = false) : ∃ j k, i = .py j k := by
  cases h with
  | py _ _ => exact ⟨_, _, rfl⟩
  | newSession h => simp [ha] at h
  | refused h => simp [ha] at h
  | connection h _ _ => simp [ha] at h
  | disconnect h => simp [ha] at h
  | upload h _ => simp [ha] at h
  | formError h _ => simp [ha] at h
  | stdout _ h _ => simp [ha] at h
  | stderr _ h _ => simp [ha] at h
  | close _ h _ _ => simp [ha] at h
  | land _ h => simp [ha] at h
  | callback _ h => simp [ha] at h

theorem alive_of_move {H : HashOrder} {σ : State} {i : Input} {r : State × List Obs}
    (h : Move H σ i r) (ha : r.1.alive = true) : σ.alive = true := by
  cases hσ : σ.alive with
  | true => rfl
  | false =>
      obtain ⟨j, k, rfl⟩ := py_of_not_alive h hσ
      cases h with
      | py _ _ => exact hσ.symm.trans ha

section

variable {p p' : Proc} {alive : Bool} {k : Nat} {files files' : OutFile → Option Text}

theorem Proc.act_todo_ne_nil {r : Proc × (OutFile → Option Text)}
    (h : p.act alive k files = some r) : p.todo ≠ [] := by
  intro hnil
  rw [Proc.act, hnil] at h
  cases h

/-- A flush whose output is not read ends the analyser, and any other goes through. -/
theorem Proc.act_flush {rest : List Act} (htodo : p.todo = .flush :: rest)
    (h : p.act alive k files = some (p', files')) :
    files' = files ∧
      (p' = { p with todo := rest, pipe := p.pipe ++ p.buffer, buffer := [] } ∨
        (alive = false ∧ p.buffer ≠ [] ∧ p' = { p with todo := [], buffer := [] })) := by
  rw [Proc.act, htodo] at h
  dsimp only at h
  split at h
  case isTrue _ =>
    cases h
    exact ⟨rfl, Or.inl rfl⟩
  case isFalse hbroken =>
    cases h
    rw [not_or, Bool.not_eq_true] at hbroken
    exact ⟨rfl, Or.inr ⟨hbroken.1, hbroken.2, rfl⟩⟩

/-- What no act changes of its analyser. -/
theorem Proc.act_keeps (h : p.act alive k files = some (p', files')) :
    p'.session = p.session ∧ p'.upload = p.upload ∧ p'.closed = p.closed := by
  cases htodo : p.todo with
  | nil => exact absurd htodo (Proc.act_todo_ne_nil h)
  | cons a rest =>
      cases a with
      | flush =>
          obtain ⟨_, rfl | ⟨_, _, rfl⟩⟩ := Proc.act_flush htodo h
          · exact ⟨rfl, rfl, rfl⟩
          · exact ⟨rfl, rfl, rfl⟩
      | _ =>
          rw [Proc.act, htodo] at h
          cases h
          exact ⟨rfl, rfl, rfl⟩

/-- An act leaves the session and the upload of its analyser. -/
theorem Proc.act_session (h : p.act alive k files = some (p', files')) :
    p'.session = p.session ∧ p'.upload = p.upload :=
  ⟨(Proc.act_keeps h).1, (Proc.act_keeps h).2.1⟩

theorem Proc.act_closed (h : p.act alive k files = some (p', files')) : p'.closed = p.closed :=
  (Proc.act_keeps h).2.2

end

/-- What an element had and its replacement has, some element still has. -/
theorem exists_mem_set {α : Type} {l : List α} {i : Nat} {a b : α} {P : α → Prop}
    (ha : l[i]? = some a) (hab : P a → P b) (h : ∃ x ∈ l, P x) : ∃ x ∈ l.set i b, P x := by
  obtain ⟨x, hx, hP⟩ := h
  obtain ⟨j, hj⟩ := List.mem_iff_getElem?.mp hx
  by_cases hij : i = j
  · subst hij
    rw [ha] at hj
    cases hj
    refine ⟨b, List.mem_iff_getElem?.mpr ⟨i, ?_⟩, hab hP⟩
    exact List.getElem?_set_self (List.getElem?_eq_some_iff.mp ha).1
  · refine ⟨x, List.mem_iff_getElem?.mpr ⟨j, ?_⟩, hP⟩
    rwa [List.getElem?_set_ne hij]

/-- An element after a replacement is the replacement or was there. -/
theorem mem_set_cases {α : Type} {l : List α} {i : Nat} {b x : α} (h : x ∈ l.set i b) :
    x = b ∨ x ∈ l := (List.mem_or_eq_of_mem_set h).symm

/-- The element at a place after a replacement. -/
theorem getElem?_set_cases {α : Type} {l : List α} {i j : Nat} {b x : α}
    (h : (l.set i b)[j]? = some x) : (i = j ∧ x = b) ∨ (i ≠ j ∧ l[j]? = some x) := by
  by_cases hij : i = j
  · refine Or.inl ⟨hij, ?_⟩
    rw [List.getElem?_set, if_pos hij] at h
    obtain ⟨_, heq⟩ := Option.ite_none_right_eq_some.mp h
    exact (Option.some.inj heq).symm
  · rw [List.getElem?_set_ne hij] at h
    exact Or.inr ⟨hij, h⟩

/-- The element at a place after one was added at the end. -/
theorem getElem?_concat_cases {α : Type} {l : List α} {j : Nat} {a x : α}
    (h : (l ++ [a])[j]? = some x) : l[j]? = some x ∨ (j = l.length ∧ x = a) := by
  rw [List.getElem?_append] at h
  split at h
  · exact Or.inl h
  · obtain ⟨hlt, hx⟩ := List.getElem?_eq_some_iff.mp h
    rw [List.length_singleton] at hlt
    refine Or.inr ⟨by omega, ?_⟩
    rw [← hx, List.getElem_singleton]

theorem getElem?_set_eq {α : Type} {l : List α} {i : Nat} {a b : α} (h : l[i]? = some a) :
    (l.set i b)[i]? = some b := List.getElem?_set_self (List.getElem?_eq_some_iff.mp h).1

/-! ## What the callbacks do -/

/-- What is stored for a file: its value, if it is there and is JSON. -/
def fileValue (content : Option Text) : Option Json := content.bind Json.parse

theorem jsonParse_readResult (content : Option Text) :
    jsonParse ((readResult content).toOption.getD "undefined".toList) =
      match fileValue content with
      | some v => .ok v
      | none => .error .syntaxError := by
  cases content with
  | none => rfl
  | some t =>
      change jsonParse t = _
      rw [jsonParse]
      rfl

/-- Printing an error only prints. -/
theorem console_of_mem_printError {e : Except Text Text} {a : Effect}
    (h : a ∈ (printError e).acts) : ∃ t, a = .console t := by
  cases e with
  | error err => exact ⟨err, List.mem_singleton.mp h⟩
  | ok t => cases h

/-- The callback of a chart's file: it sends what the file holds, if there is a
socket and the file is there and is JSON, and throws otherwise. -/
theorem onRead_chart (key : Text) (c : Chart) (live : Option SocketId) (content : Option Text) :
    onRead ⟨key, .chart c⟩ live content =
      match live, fileValue content with
      | none, _ => ⟨(printError (readResult content)).acts, .error .typeError⟩
      | some _, none => ⟨(printError (readResult content)).acts, .error .syntaxError⟩
      | some id, some v =>
          ⟨(printError (readResult content)).acts ++ [.emit c.event (.json v) id, .console c.log],
            .ok ()⟩ := by
  change onChartRead c live (readResult content) = _
  have hprint : (printError (readResult content)).result = .ok () := by cases content <;> rfl
  rw [onChartRead, Traced.bind_ok hprint, jsonParse_readResult]
  cases live with
  | none => simp [emit]
  | some id =>
      cases fileValue content with
      | none => simp [emit, Except.map, bind, Traced.bind, Traced.lift]
      | some v => rfl

/-- The assignment of what `messages.json` holds. -/
theorem storeParsed_eq (t : Text) :
    storeParsed t =
      match Json.parse t with
      | some v => ⟨[.store v], .ok ()⟩
      | none => ⟨[], .error .syntaxError⟩ := by
  rw [storeParsed, jsonParse]
  cases Json.parse t <;> rfl

/-- The callback after an analyser: a missing file is let pass. -/
theorem onRead_close (key : Text) (live : Option SocketId) (content : Option Text) :
    onRead ⟨key, .close⟩ live content =
      match content with
      | none => ⟨[.console "Error: ENOENT".toList], .ok ()⟩
      | some t => storeParsed t := by
  cases content <;> rfl

/-- The callback after a connection: a missing file is an exception. -/
theorem onRead_connect (key : Text) (live : Option SocketId) (content : Option Text) :
    onRead ⟨key, .connect⟩ live content =
      match content with
      | none => ⟨[.console "Error: ENOENT".toList], .error .referenceError⟩
      | some t => storeParsed t := by
  cases content <;> rfl

/-- The end of an analyser starts the read of `messages.json`. -/
theorem onClose_eq (code : Nat) :
    onClose code = ⟨(printCode code).acts ++ [.readStore], .ok ()⟩ := by
  have hprint : (printCode code).result = .ok () := by
    unfold printCode
    split <;> rfl
  rw [onClose, Traced.bind_ok hprint]
  rfl

theorem console_of_mem_printCode {code : Nat} {a : Effect} (h : a ∈ (printCode code).acts) :
    ∃ t, a = .console t := by
  unfold printCode at h
  split at h
  · exact ⟨_, List.mem_singleton.mp h⟩
  · cases h

/-- The handler of the end of an analyser prints, and starts the read. -/
theorem mem_onClose {code : Nat} {a : Effect} (h : a ∈ (onClose code).acts) :
    (∃ t, a = .console t) ∨ a = .readStore := by
  rw [onClose_eq] at h
  cases List.mem_append.mp h with
  | inl hprint => exact Or.inl (console_of_mem_printCode hprint)
  | inr hread => exact Or.inr (List.mem_singleton.mp hread)

/-! ## What the run of a handler can do -/

/-- The reads an effect starts. -/
def Effect.reads (key : Text) : Effect → List Read
  | .readChart c => [⟨key, .chart c⟩]
  | .readStore => [⟨key, .close⟩]
  | _ => []

/-- What an effect makes of the stored data. -/
def Effect.stores (key : Text) (userData : Text → Option Json) : Effect → Text → Option Json
  | .store v => Function.update userData key (some v)
  | _ => userData

/-- The effects of a handler change the stored data of its session and start
reads for it; everything else stays. -/
theorem foldl_perform (key : Text) (as : List Effect) : ∀ σ : State,
    as.foldl (State.perform key) σ =
      { σ with
        userData := as.foldl (Effect.stores key) σ.userData
        started := σ.started ++ as.flatMap (Effect.reads key) } := by
  induction as with
  | nil => intro σ; simp
  | cons a as ih =>
      intro σ
      rw [List.foldl_cons, ih]
      cases a <;> simp [State.perform, Effect.stores, Effect.reads]

theorem handle_eq (σ : State) (key : Text) (h : Handler) :
    σ.handle key h =
      ({ σ with
          alive := σ.alive && h.result.isOk
          userData := h.acts.foldl (Effect.stores key) σ.userData
          started := σ.started ++ h.acts.flatMap (Effect.reads key) },
        h.acts.flatMap (Effect.obs key) ++
          match h.result with
          | .ok _ => []
          | .error e => [.threw e]) := by
  rw [State.handle, foldl_perform]
  cases h.result with
  | ok u => simp [Except.isOk, Except.toBool]
  | error e => simp [Except.isOk, Except.toBool]

/-- The stored data of other sessions stays. -/
theorem foldl_stores_of_ne {key x : Text} (hx : x ≠ key) (as : List Effect) :
    ∀ ud : Text → Option Json, as.foldl (Effect.stores key) ud x = ud x := by
  induction as with
  | nil => intro ud; rfl
  | cons a as ih =>
      intro ud
      rw [List.foldl_cons, ih]
      cases a with
      | store v => exact Function.update_of_ne hx _ _
      | emit _ _ _ => rfl
      | console _ => rfl
      | readChart _ => rfl
      | readStore => rfl

/-! ## The analysers after a step -/

/-- An analyser was there before the step, or the step is its upload. -/
theorem upload_of_move {H : HashOrder} {σ : State} {i : Input} {r : State × List Obs}
    (h : Move H σ i r) {p : Proc}
    (hp : p ∈ r.1.procs) :
    (∃ q ∈ σ.procs, q.session = p.session ∧ q.upload = p.upload) ∨
      i = .upload p.session p.upload := by
  have hset : ∀ {j : Nat} {a b : Proc}, p ∈ σ.procs.set j b → σ.procs[j]? = some a →
      b.session = a.session → b.upload = a.upload →
      ∃ q ∈ σ.procs, q.session = p.session ∧ q.upload = p.upload := by
    intro j a b hmem ha hs hu
    cases mem_set_cases hmem with
    | inl heq => exact ⟨a, List.mem_of_getElem? ha, heq ▸ hs.symm, heq ▸ hu.symm⟩
    | inr hold => exact ⟨p, hold, rfl, rfl⟩
  cases h with
  | newSession _ => exact Or.inl ⟨p, hp, rfl, rfl⟩
  | refused _ => exact Or.inl ⟨p, hp, rfl, rfl⟩
  | connection _ _ _ => exact Or.inl ⟨p, hp, rfl, rfl⟩
  | disconnect _ => exact Or.inl ⟨p, hp, rfl, rfl⟩
  | land _ _ => exact Or.inl ⟨p, hp, rfl, rfl⟩
  | upload _ _ =>
      cases List.mem_append.mp hp with
      | inl hold => exact Or.inl ⟨p, hold, rfl, rfl⟩
      | inr hnew =>
          rw [List.mem_singleton.mp hnew]
          exact Or.inr rfl
  | py ha hact =>
      exact Or.inl (hset hp ha (Proc.act_session hact).1 (Proc.act_session hact).2)
  | formError _ _ => rw [handle_eq] at hp; exact Or.inl ⟨p, hp, rfl, rfl⟩
  | callback _ _ => rw [handle_eq] at hp; exact Or.inl ⟨p, hp, rfl, rfl⟩
  | stdout ha _ _ => rw [handle_eq] at hp; exact Or.inl (hset hp ha rfl rfl)
  | stderr ha _ _ => rw [handle_eq] at hp; exact Or.inl (hset hp ha rfl rfl)
  | close ha _ _ _ => rw [handle_eq] at hp; exact Or.inl (hset hp ha rfl rfl)

end Server
