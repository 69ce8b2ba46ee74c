import FbTesting.Server.Delivery

/-!
# What an upload can break

An upload causes a chain of events: the end of its form or a failure of it, the
output of its analyser, the end of the analyser, and the callbacks of the reads
that these start.  An exception that escapes one of their handlers ends the
server for everybody.

No handler changes the data or the socket of another session.  Which handlers
throw is said by `Harmless`: the failure of a form and a traceback always throw;
progress and charts throw without a connected socket; a chart's file has to be
there and be JSON; and `messages.json` may be missing but has to be JSON.
-/

namespace Server

open Base Node Analyser

/-- The input is an event that an upload of the session causes. -/
inductive UploadEvent (σ : State) : Input → SessionID → Prop where
  | formEnd {s : SessionID} {u : Upload} : UploadEvent σ (.upload s u) s
  | formError {s : SessionID} {err : Text} : UploadEvent σ (.formError s err) s
  | stdout {i k : Nat} {p : Proc} : σ.procs[i]? = some p → UploadEvent σ (.stdout i k) p.session
  | stderr {i : Nat} {p : Proc} : σ.procs[i]? = some p → UploadEvent σ (.stderr i) p.session
  | close {i : Nat} {p : Proc} : σ.procs[i]? = some p → UploadEvent σ (.close i) p.session
  | chartRead {j : Nat} {s : SessionID} {c : Chart} {content : Option Text} :
      σ.landed[j]? = some (⟨s.text, .chart c⟩, content) → UploadEvent σ (.callback j) s
  | closeRead {j : Nat} {s : SessionID} {content : Option Text} :
      σ.landed[j]? = some (⟨s.text, .close⟩, content) → UploadEvent σ (.callback j) s

/-- No exception escapes, and the data and sockets of other sessions stay. -/
def Confined (σ : State) (s : SessionID) (r : State × List Obs) : Prop :=
  (∀ e, .threw e ∉ r.2) ∧
    ∀ t : SessionID, t ≠ s →
      r.1.userData t.text = σ.userData t.text ∧ r.1.sockets t.text = σ.sockets t.text

/-- The socket of the session that connected last is connected. -/
def State.LastConnected (σ : State) (s : SessionID) : Prop :=
  ∃ id, σ.lastSocket s = some id ∧ id ∈ σ.connected

/-- Where a read is harmless. -/
def ReadHarmless (σ : State) (s : SessionID) (content : Option Text) : ReadKind → Prop
  | .chart _ => σ.LastConnected s ∧ fileValue content ≠ none
  | .close => content = none ∨ fileValue content ≠ none
  | .connect => True

/-- Where the handler of an event does not throw, in terms of the state before. -/
def Harmless (σ : State) (s : SessionID) : Input → Prop
  | .formError _ _ => False
  | .stderr _ => False
  | .stdout i k => ∀ p, σ.procs[i]? = some p → progressMatch (p.pipe.take (k + 1)) ≠ none →
      σ.LastConnected s
  | .callback j => ∀ x, σ.landed[j]? = some x → ReadHarmless σ s x.2 x.1.kind
  | _ => True

/-- The run of a handler is confined when the handler does not throw. -/
theorem confined_handle_iff {σ τ : State} {s : SessionID} (h : Handler)
    (hdata : τ.userData = σ.userData) (hsock : τ.sockets = σ.sockets) :
    Confined σ s (τ.handle s.text h) ↔ h.result = .ok () := by
  constructor
  · intro hc
    cases hres : h.result with
    | ok u => rfl
    | error e => exact absurd (threw_mem_handle.mpr hres) (hc.1 e)
  · intro hok
    refine ⟨fun e he => ?_, fun t ht => ?_⟩
    · rw [threw_mem_handle, hok] at he
      cases he
    · have hne : t.text ≠ s.text := fun heq => ht (SessionID.ext heq)
      rw [handle_eq]
      refine ⟨?_, ?_⟩
      · show List.foldl (Effect.stores s.text) τ.userData h.acts t.text = _
        rw [foldl_stores_of_ne hne, hdata]
      · show τ.sockets t.text = _
        rw [hsock]

theorem live_ne_none_iff {σ : State} (h : SocketsCurrent σ) {s : SessionID} :
    σ.live s.text ≠ none ↔ σ.LastConnected s := by
  rw [Option.ne_none_iff_exists']
  exact exists_congr fun id => live_eq_some_iff h

/-- The handler of standard output returns unless a progress number finds no
socket. -/
theorem onStdoutData_ok_iff {live : Option SocketId} {data : Text} :
    (onStdoutData live data).result = .ok () ↔ (progressMatch data ≠ none → live ≠ none) := by
  constructor
  · intro hok
    by_contra hnot
    rw [onStdoutData_throws (a := (live, data)) hnot] at hok
    cases hok
  · intro h
    exact (onStdoutData_returns (a := (live, data)) h).1

theorem onRead_chart_ok_iff {key : Text} {c : Chart} {live : Option SocketId}
    {content : Option Text} :
    (onRead ⟨key, .chart c⟩ live content).result = .ok () ↔
      live ≠ none ∧ fileValue content ≠ none := by
  rw [onRead_chart]
  cases live with
  | none => simp
  | some id => cases fileValue content <;> simp

theorem onRead_close_ok_iff {key : Text} {live : Option SocketId} {content : Option Text} :
    (onRead ⟨key, .close⟩ live content).result = .ok () ↔
      content = none ∨ fileValue content ≠ none := by
  rw [onRead_close]
  cases content with
  | none => simp
  | some t =>
      simp only [storeParsed_eq, fileValue, Option.bind_some]
      cases Json.parse t <;> simp

/-- What holds of each element there is holds of the one that is there. -/
theorem forall_some_iff {α : Type} {a : Option α} {x : α} (ha : a = some x) (P : α → Prop) :
    (∀ y, a = some y → P y) ↔ P x := by
  subst ha
  simp only [Option.some.injEq, forall_eq']

variable {H : HashOrder}

/-- In every state of every run: an event that an upload causes is confined to
the session of the upload exactly when it is harmless. -/
theorem upload_confined_iff {σ : State} {i : Input} {r : State × List Obs} {s : SessionID}
    (h : (machine H).Reach System.anyInput σ) (hevent : UploadEvent σ i s)
    (hstep : step H σ i = some r) : Confined σ s r ↔ Harmless σ s i := by
  have hlive := live_ne_none_iff (socketsCurrent_of_reach h) (s := s)
  have hmove := move_of_step hstep
  cases hevent with
  | formEnd =>
      cases hmove with
      | upload _ _ =>
          have hnone : ∀ e, Obs.threw e ∉ ([] : List Obs) := fun _ he => by cases he
          exact ⟨fun _ => trivial, fun _ => ⟨hnone, fun _ _ => ⟨rfl, rfl⟩⟩⟩
  | formError =>
      cases hmove with
      | formError _ _ =>
          refine (confined_handle_iff _ (by rfl) (by rfl)).trans ?_
          constructor
          · intro hok
            cases hok
          · intro hf
            exact False.elim hf
  | stdout hp =>
      cases hmove with
      | stdout hp' _ _ =>
          rw [hp] at hp'
          cases hp'
          refine (confined_handle_iff _ (by rfl) (by rfl)).trans ?_
          rw [onStdoutData_ok_iff, hlive, Harmless, forall_some_iff hp]
  | stderr hp =>
      cases hmove with
      | stderr hp' _ _ =>
          rw [hp] at hp'
          cases hp'
          refine (confined_handle_iff _ (by rfl) (by rfl)).trans ?_
          constructor
          · intro hok
            cases hok
          · intro hf
            exact False.elim hf
  | close hp =>
      cases hmove with
      | close hp' _ _ _ =>
          rw [hp] at hp'
          cases hp'
          refine (confined_handle_iff _ (by rfl) (by rfl)).trans ?_
          rw [onClose_eq]
          exact ⟨fun _ => trivial, fun _ => rfl⟩
  | chartRead hr =>
      cases hmove with
      | callback hr' _ =>
          rw [hr] at hr'
          cases hr'
          refine (confined_handle_iff _ (by rfl) (by rfl)).trans ?_
          rw [onRead_chart_ok_iff, hlive, Harmless, forall_some_iff hr]
          rfl
  | closeRead hr =>
      cases hmove with
      | callback hr' _ =>
          rw [hr] at hr'
          cases hr'
          refine (confined_handle_iff _ (by rfl) (by rfl)).trans ?_
          rw [onRead_close_ok_iff, Harmless, forall_some_iff hr]
          rfl

/-- An upload without trouble: the progress number of a session with an open tab. -/
theorem upload_confined_one_tab :
    ∃ r, step .insertion (stateBefore oneTab) (.stdout 0 1) = some r ∧
      Confined (stateBefore oneTab) firstSession r := by
  obtain ⟨r, hr⟩ := exists_step_oneTab
  have hproc : (stateBefore oneTab).procs[0]?.map Proc.session = some firstSession := by
    decide +kernel
  obtain ⟨p, hp, hs⟩ := Option.map_eq_some_iff.mp hproc
  have hevent := UploadEvent.stdout (k := 1) hp
  rw [hs] at hevent
  have hlast : (stateBefore oneTab).lastSocket firstSession = some 1 ∧
      1 ∈ (stateBefore oneTab).connected := by decide +kernel
  exact ⟨r, hr, (upload_confined_iff (System.reach_after _) hevent hr).mpr
    fun _ _ _ => ⟨1, hlast⟩⟩

/-- A document with a message that has no timestamp. -/
def undatedUpload : Upload :=
  ⟨some "messages.htm".toList,
    .ok [[⟨some (.ofText "Friend1".toList), none, some "This is a message".toList⟩]]⟩

/-- It is uploaded, and its analyser prints a traceback. -/
def undatedState : State :=
  (machine .insertion).after System.anyInput
    [.newSession .least, .upload firstSession undatedUpload, .py 0 0, .py 0 0]

/-- The traceback of one bad document ends the server. -/
theorem traceback_ends_server :
    ∃ r, (machine .insertion).Reach System.anyInput undatedState ∧
      UploadEvent undatedState (.stderr 0) firstSession ∧
      step .insertion undatedState (.stderr 0) = some r ∧ ¬Confined undatedState firstSession r := by
  have hproc : undatedState.procs[0]?.map Proc.session = some firstSession := by decide +kernel
  obtain ⟨p, hp, hs⟩ := Option.map_eq_some_iff.mp hproc
  have hevent := UploadEvent.stderr hp
  rw [hs] at hevent
  obtain ⟨r, hr⟩ : ∃ r, step .insertion undatedState (.stderr 0) = some r :=
    Option.isSome_iff_exists.mp (by decide +kernel)
  refine ⟨r, System.reach_after _, hevent, hr, fun hc => ?_⟩
  cases move_of_step hr with
  | stderr _ _ _ => exact hc.1 .error (threw_mem_handle.mpr rfl)

end Server
