import FbTesting.Server.Machine
import FbTesting.Server.Pipe

/-!
# Where events go

`sockets` keeps one socket per session, the one that connected last, and nothing
removes it when that socket disconnects.  `SocketsCurrent` is this fact, an
invariant of all runs.  From it follow both sides of the delivery of events.

An event goes to no other session: the property name under which a socket is kept
is that of the session of its handshake, and a handshake without a valid cookie
is kept under a name that no session has.

An event is delivered, or dropped without an exception, only as long as the
socket that connected last is connected.  When it is not, the lookup yields
`undefined` and the handler throws, whether or not the session has another socket.
-/

namespace Server

open Base Node Analyser

/-! ## Sockets of a session -/

/-- The socket of a session that connected last. -/
def State.lastSocket (σ : State) (s : SessionID) : Option SocketId :=
  (σ.issued.find? fun x => x.2 = .valid s).map Prod.fst

/-- A connected socket whose handshake had the cookie of the session. -/
def State.HasSocket (σ : State) (s : SessionID) (id : SocketId) : Prop :=
  (id, .valid s) ∈ σ.issued ∧ id ∈ σ.connected

/-- Under the name of a session the map has the socket that connected last. -/
def SocketsCurrent (σ : State) : Prop := ∀ s : SessionID, σ.sockets s.text = σ.lastSocket s

/-- No socket ID is used twice. -/
def IdsDistinct (σ : State) : Prop := (σ.issued.map Prod.fst).Nodup

theorem mem_issued_of_lastSocket {σ : State} {s : SessionID} {id : SocketId}
    (h : σ.lastSocket s = some id) : (id, .valid s) ∈ σ.issued := by
  obtain ⟨⟨x, c⟩, hx, hid⟩ := Option.map_eq_some_iff.mp h
  have hc : c = .valid s := by simpa using List.find?_some hx
  have hmem := List.mem_of_find?_eq_some hx
  cases hid
  rwa [hc] at hmem

/-- What is kept when neither the sockets nor their handshakes change. -/
theorem SocketsCurrent.of_eq {σ τ : State} (h : SocketsCurrent σ) (hs : τ.sockets = σ.sockets)
    (hi : τ.issued = σ.issued) : SocketsCurrent τ := by
  intro s
  rw [hs, State.lastSocket, hi]
  exact h s

/-- A connection replaces the socket of its own session and of no other. -/
theorem SocketsCurrent.connection {σ : State} (h : SocketsCurrent σ) (id : SocketId)
    (c : SignedSid) : SocketsCurrent (σ.connection id c) := by
  intro s
  have hkey : s.text = c.key ↔ c = .valid s := by
    rw [eq_comm]
    exact SignedSid.key_eq_text_iff
  by_cases hc : c = .valid s
  · simp [State.connection, State.lastSocket, hkey.mpr hc, hc]
  · have hne : s.text ≠ c.key := fun heq => hc (hkey.mp heq)
    have hold := h s
    simpa [State.connection, State.lastSocket, Function.update_of_ne hne, hc] using hold

variable {H : HashOrder}

/-- The sockets and the handshakes change on a connection only. -/
theorem sockets_of_move {σ : State} {i : Input} {r : State × List Obs} (h : Move H σ i r) :
    (r.1.sockets = σ.sockets ∧ r.1.issued = σ.issued) ∨
      ∃ id c, id ∉ σ.issued.map Prod.fst ∧ r.1 = σ.connection id c := by
  cases h with
  | connection _ hfresh _ => exact Or.inr ⟨_, _, hfresh, rfl⟩
  | newSession _ => exact Or.inl ⟨rfl, rfl⟩
  | refused _ => exact Or.inl ⟨rfl, rfl⟩
  | disconnect _ => exact Or.inl ⟨rfl, rfl⟩
  | upload _ _ => exact Or.inl ⟨rfl, rfl⟩
  | py _ _ => exact Or.inl ⟨rfl, rfl⟩
  | land _ _ => exact Or.inl ⟨rfl, rfl⟩
  | formError _ _ => rw [handle_eq]; exact Or.inl ⟨rfl, rfl⟩
  | stdout _ _ _ => rw [handle_eq]; exact Or.inl ⟨rfl, rfl⟩
  | stderr _ _ _ => rw [handle_eq]; exact Or.inl ⟨rfl, rfl⟩
  | close _ _ _ _ => rw [handle_eq]; exact Or.inl ⟨rfl, rfl⟩
  | callback _ _ => rw [handle_eq]; exact Or.inl ⟨rfl, rfl⟩

theorem socketsCurrent_of_reach {ok : State → Input → Prop} {σ : State}
    (h : (machine H).Reach ok σ) : SocketsCurrent σ := by
  refine System.Reach.invariant SocketsCurrent (fun _ => rfl) ?_ h
  intro σ i r hσ _ hstep
  cases sockets_of_move (move_of_step hstep) with
  | inl hsame => exact hσ.of_eq hsame.1 hsame.2
  | inr hconn =>
      obtain ⟨id, c, _, hnew⟩ := hconn
      rw [hnew]
      exact hσ.connection id c

theorem idsDistinct_of_reach {ok : State → Input → Prop} {σ : State}
    (h : (machine H).Reach ok σ) : IdsDistinct σ := by
  refine System.Reach.invariant IdsDistinct ?_ ?_ h
  · exact List.nodup_nil
  intro σ i r hσ _ hstep
  cases sockets_of_move (move_of_step hstep) with
  | inl hsame =>
      rw [IdsDistinct, hsame.2]
      exact hσ
  | inr hconn =>
      obtain ⟨id, c, hfresh, hnew⟩ := hconn
      rw [hnew]
      exact List.nodup_cons.mpr ⟨hfresh, hσ⟩

/-- The lookup yields the socket that connected last, while it is connected. -/
theorem live_eq_some_iff {σ : State} (h : SocketsCurrent σ) {s : SessionID} {id : SocketId} :
    σ.live s.text = some id ↔ σ.lastSocket s = some id ∧ id ∈ σ.connected := by
  rw [State.live, h s]
  cases σ.lastSocket s with
  | none => simp
  | some x =>
      by_cases hx : x ∈ σ.connected
      · simp only [Option.bind_some, if_pos hx, Option.some.injEq]
        constructor
        · intro heq
          exact ⟨heq, heq ▸ hx⟩
        · intro heq
          exact heq.1
      · simp only [Option.bind_some, if_neg hx, Option.some.injEq, reduceCtorEq, false_iff]
        intro heq
        exact hx (heq.1 ▸ heq.2)

/-! ## What is observed of a handler -/

theorem sent_mem_handle {σ : State} {k key : Text} {h : Handler} {ev : Event} {pl : Payload}
    {id : SocketId} :
    .sent key ev pl id ∈ (σ.handle k h).2 ↔ key = k ∧ .emit ev pl id ∈ h.acts := by
  rw [handle_eq, List.mem_append, List.mem_flatMap]
  constructor
  · intro hmem
    cases hmem with
    | inl hact =>
        obtain ⟨a, ha, hobs⟩ := hact
        cases a with
        | emit ev' pl' id' =>
            have heq := List.mem_singleton.mp hobs
            cases heq
            exact ⟨rfl, ha⟩
        | console _ => cases hobs
        | readChart _ => cases hobs
        | readStore => cases hobs
        | store _ => cases hobs
    | inr hthrow =>
        split at hthrow
        · cases hthrow
        · cases List.mem_singleton.mp hthrow
  · intro hmem
    refine Or.inl ⟨_, hmem.2, ?_⟩
    rw [hmem.1]
    exact List.mem_singleton.mpr rfl

theorem threw_mem_handle {σ : State} {k : Text} {h : Handler} {e : JsError} :
    .threw e ∈ (σ.handle k h).2 ↔ h.result = .error e := by
  rw [handle_eq, List.mem_append, List.mem_flatMap]
  constructor
  · intro hmem
    cases hmem with
    | inl hact =>
        obtain ⟨a, _, hobs⟩ := hact
        cases a with
        | emit ev pl id => cases List.mem_singleton.mp hobs
        | console _ => cases hobs
        | readChart _ => cases hobs
        | readStore => cases hobs
        | store _ => cases hobs
    | inr hthrow =>
        split at hthrow
        · cases hthrow
        · rename_i heq
          cases List.mem_singleton.mp hthrow
          exact heq
  · intro hres
    refine Or.inr ?_
    rw [hres]
    exact List.mem_singleton.mpr rfl

/-! ## Emits -/

/-- A progress number is sent to the socket, if there is one. -/
theorem onStdoutData_progress {data t : Text} (h : progressMatch data = some t) (id : SocketId) :
    onStdoutData (some id) data =
      ⟨[.emit .progress (.text t) id,
          .console ("extracting facebook data....".toList ++ t ++ lineStart)] ++
        (lookUpChart data).acts, .ok ()⟩ := by
  rw [onStdoutData, sendProgress, h, ← lookUpChart_result data]
  rfl

theorem not_emit_lookUpChart {data : Text} {ev : Event} {pl : Payload} {id : SocketId} :
    .emit ev pl id ∉ (lookUpChart data).acts := by
  unfold lookUpChart
  split
  · exact List.not_mem_cons_of_ne_of_not_mem nofun List.not_mem_nil
  · split
    · exact List.not_mem_cons_of_ne_of_not_mem nofun List.not_mem_nil
    · exact List.not_mem_nil

theorem emit_mem_emit {live : Option SocketId} {ev ev' : Event} {payload : Except JsError Payload}
    {pl : Payload} {id : SocketId} (h : .emit ev pl id ∈ (emit live ev' payload).acts) :
    live = some id ∧ ev = ev' := by
  cases live with
  | none => cases h
  | some x =>
      cases payload with
      | error e => cases h
      | ok p =>
          cases List.mem_singleton.mp h
          exact ⟨rfl, rfl⟩

/-- The handler of standard output sends progress, to the socket of the session. -/
theorem emit_mem_onStdoutData {live : Option SocketId} {data : Text} {ev : Event} {pl : Payload}
    {id : SocketId} (h : .emit ev pl id ∈ (onStdoutData live data).acts) :
    live = some id ∧ ev = .progress := by
  cases Traced.mem_acts_bind h with
  | inr hlook =>
      obtain ⟨_, _, hmem⟩ := hlook
      exact absurd hmem not_emit_lookUpChart
  | inl hsend =>
      unfold sendProgress at hsend
      split at hsend
      · cases Traced.mem_acts_bind hsend with
        | inl hemit => exact emit_mem_emit hemit
        | inr hcons =>
            obtain ⟨_, _, hmem⟩ := hcons
            cases List.mem_singleton.mp hmem
      · cases hsend

theorem not_emit_storeParsed {t : Text} {ev : Event} {pl : Payload} {id : SocketId} :
    .emit ev pl id ∉ (storeParsed t).acts := by
  intro h
  rw [storeParsed_eq] at h
  split at h
  · cases List.mem_singleton.mp h
  · cases h

/-- A callback sends to the socket of the session, and only for a chart, whose
file it sends. -/
theorem emit_mem_onRead {r : Read} {live : Option SocketId} {content : Option Text} {ev : Event}
    {pl : Payload} {id : SocketId} (h : .emit ev pl id ∈ (onRead r live content).acts) :
    live = some id ∧ ∃ c v, r.kind = .chart c ∧ ev = c.event ∧ fileValue content = some v ∧
      pl = .json v := by
  have hprint : .emit ev pl id ∉ (printError (readResult content)).acts := by
    intro hmem
    obtain ⟨t, ht⟩ := console_of_mem_printError hmem
    cases ht
  obtain ⟨key, kind⟩ := r
  cases kind with
  | chart c =>
      rw [onRead_chart] at h
      split at h
      · exact absurd h hprint
      · exact absurd h hprint
      · rename_i v hv
        cases List.mem_append.mp h with
        | inl hmem => exact absurd hmem hprint
        | inr hmem =>
            cases hmem with
            | head => exact ⟨rfl, c, v, rfl, rfl, hv, rfl⟩
            | tail _ hlog => cases List.mem_singleton.mp hlog
  | close =>
      rw [onRead_close] at h
      split at h
      · cases List.mem_singleton.mp h
      · exact absurd h not_emit_storeParsed
  | connect =>
      rw [onRead_connect] at h
      split at h
      · cases List.mem_singleton.mp h
      · exact absurd h not_emit_storeParsed

/-! ## Reads of charts belong to uploads -/

/-- A session with this property name has made an upload. -/
def State.Uploaded (σ : State) (key : Text) : Prop := ∃ p ∈ σ.procs, p.session.text = key

/-- The reads of charts that are under way were caused by uploads. -/
structure ChartReadsOwned (σ : State) : Prop where
  started : ∀ r ∈ σ.started, ∀ c, r.kind = .chart c → σ.Uploaded r.key
  landed : ∀ x ∈ σ.landed, ∀ c, x.1.kind = .chart c → σ.Uploaded x.1.key

/-- No upload is forgotten. -/
theorem proc_of_move {σ : State} {i : Input} {r : State × List Obs} (h : Move H σ i r)
    {P : SessionID → Upload → Prop} (hP : ∃ p ∈ σ.procs, P p.session p.upload) :
    ∃ p ∈ r.1.procs, P p.session p.upload := by
  cases h with
  | newSession _ => exact hP
  | refused _ => exact hP
  | connection _ _ _ => exact hP
  | disconnect _ => exact hP
  | land _ _ => exact hP
  | upload _ _ =>
      obtain ⟨p, hp, hpair⟩ := hP
      exact ⟨p, List.mem_append_left _ hp, hpair⟩
  | py hp hact =>
      refine exists_mem_set hp (fun hpair => ?_) hP
      rwa [(Proc.act_session hact).1, (Proc.act_session hact).2]
  | formError _ _ => rw [handle_eq]; exact hP
  | callback _ _ => rw [handle_eq]; exact hP
  | stdout hp _ _ => rw [handle_eq]; exact exists_mem_set hp (fun hpair => hpair) hP
  | stderr hp _ _ => rw [handle_eq]; exact exists_mem_set hp (fun hpair => hpair) hP
  | close hp _ _ _ => rw [handle_eq]; exact exists_mem_set hp (fun hpair => hpair) hP

theorem uploaded_of_move {σ : State} {i : Input} {r : State × List Obs} (h : Move H σ i r)
    {key : Text} (hup : σ.Uploaded key) : r.1.Uploaded key :=
  proc_of_move h (P := fun s _ => s.text = key) hup

theorem uploaded_of_getElem? {σ : State} {i : Nat} {p : Proc} (hp : σ.procs[i]? = some p) :
    σ.Uploaded p.session.text := ⟨p, List.mem_of_getElem? hp, rfl⟩

/-- The reads a handler starts are for its own session. -/
theorem key_of_mem_reads {key : Text} {as : List Effect} {r : Read}
    (h : r ∈ as.flatMap (Effect.reads key)) : r.key = key := by
  obtain ⟨a, _, hr⟩ := List.mem_flatMap.mp h
  cases a with
  | readChart c => rw [List.mem_singleton.mp hr]
  | readStore => rw [List.mem_singleton.mp hr]
  | emit _ _ _ => cases hr
  | console _ => cases hr
  | store _ => cases hr

/-- The handler of standard output starts no read, or that of the chart whose name
the chunk begins with. -/
theorem reads_onStdoutData (key : Text) (live : Option SocketId) (data : Text) :
    (onStdoutData live data).acts.flatMap (Effect.reads key) = [] ∨
      ∃ c : Chart, beforeReturn data = c.key ∧
        (onStdoutData live data).acts.flatMap (Effect.reads key) = [⟨key, .chart c⟩] := by
  have hsend : (sendProgress live data).acts.flatMap (Effect.reads key) = [] := by
    unfold sendProgress
    split
    · cases live <;> rfl
    · rfl
  have hlook : (lookUpChart data).acts.flatMap (Effect.reads key) = [] ∨
      ∃ c : Chart, beforeReturn data = c.key ∧
        (lookUpChart data).acts.flatMap (Effect.reads key) = [⟨key, .chart c⟩] := by
    unfold lookUpChart
    split
    · exact Or.inl rfl
    · split
      · rename_i c hc
        exact Or.inr ⟨c, chartOf_eq_some_iff.mp hc, rfl⟩
      · exact Or.inl rfl
  rw [onStdoutData]
  cases hres : (sendProgress live data).result with
  | ok u =>
      rw [Traced.bind_ok hres, List.flatMap_append, hsend]
      exact hlook
  | error e =>
      rw [Traced.bind_error hres, hsend]
      exact Or.inl rfl

/-- The handler of the end of an analyser starts one read. -/
theorem reads_onClose (key : Text) (code : Nat) :
    (onClose code).acts.flatMap (Effect.reads key) = [⟨key, .close⟩] := by
  have hprint : (printCode code).acts.flatMap (Effect.reads key) = [] := by
    refine List.flatMap_eq_nil_iff.mpr fun a ha => ?_
    obtain ⟨t, rfl⟩ := console_of_mem_printCode ha
    rfl
  rw [onClose_eq, List.flatMap_append, hprint]
  rfl

/-- The reads that are under way after a handler were so before, or are for its
own session. -/
theorem started_of_handle {σ : State} {key : Text} {h : Handler} {r : Read}
    (hr : r ∈ (σ.handle key h).1.started) : r ∈ σ.started ∨ r.key = key := by
  rw [handle_eq] at hr
  cases List.mem_append.mp hr with
  | inl hold => exact Or.inl hold
  | inr hnew => exact Or.inr (key_of_mem_reads hnew)

/-- The callbacks start no reads. -/
theorem reads_onRead (key : Text) (r : Read) (live : Option SocketId) (content : Option Text) :
    (onRead r live content).acts.flatMap (Effect.reads key) = [] := by
  have hprint : (printError (readResult content)).acts.flatMap (Effect.reads key) = [] := by
    cases content <;> rfl
  have hstore : ∀ t, (storeParsed t).acts.flatMap (Effect.reads key) = [] := by
    intro t
    rw [storeParsed_eq]
    cases Json.parse t <;> rfl
  obtain ⟨k, kind⟩ := r
  cases kind with
  | chart c =>
      rw [onRead_chart]
      split
      · exact hprint
      · exact hprint
      · rw [List.flatMap_append, hprint]
        rfl
  | close =>
      rw [onRead_close]
      split
      · rfl
      · exact hstore _
  | connect =>
      rw [onRead_connect]
      split
      · rfl
      · exact hstore _

/-- A read that is under way after a step was under way before, or it is the
read of a connection, or it was started for an upload. -/
theorem started_of_move {σ : State} {i : Input} {r : State × List Obs} (h : Move H σ i r)
    {x : Read} (hx : x ∈ r.1.started) :
    x ∈ σ.started ∨ x.kind = .connect ∨ σ.Uploaded x.key := by
  cases h with
  | newSession _ => exact Or.inl hx
  | refused _ => exact Or.inl hx
  | disconnect _ => exact Or.inl hx
  | upload _ _ => exact Or.inl hx
  | py _ _ => exact Or.inl hx
  | land _ _ => exact Or.inl (List.mem_of_mem_eraseIdx hx)
  | connection _ _ _ =>
      simp only [State.connection] at hx
      split at hx
      · cases List.mem_append.mp hx with
        | inl hold => exact Or.inl hold
        | inr hnew => exact Or.inr (Or.inl (by rw [List.mem_singleton.mp hnew]))
      · exact Or.inl hx
  | formError _ _ =>
      rw [handle_eq] at hx
      cases List.mem_append.mp hx with
      | inl hold => exact Or.inl hold
      | inr hnew => cases hnew
  | callback _ _ =>
      rw [handle_eq, reads_onRead, List.append_nil] at hx
      exact Or.inl hx
  | stdout hp _ _ =>
      cases started_of_handle hx with
      | inl hold => exact Or.inl hold
      | inr hkey => exact Or.inr (Or.inr (hkey ▸ uploaded_of_getElem? hp))
  | stderr hp _ _ =>
      cases started_of_handle hx with
      | inl hold => exact Or.inl hold
      | inr hkey => exact Or.inr (Or.inr (hkey ▸ uploaded_of_getElem? hp))
  | close hp _ _ _ =>
      cases started_of_handle hx with
      | inl hold => exact Or.inl hold
      | inr hkey => exact Or.inr (Or.inr (hkey ▸ uploaded_of_getElem? hp))

/-- A read that has taken its content after a step had it before, or it took it
in this step. -/
theorem landed_of_move {σ : State} {i : Input} {r : State × List Obs} (h : Move H σ i r)
    {x : Read × Option Text} (hx : x ∈ r.1.landed) :
    x ∈ σ.landed ∨ (x.1 ∈ σ.started ∧ x.2 = σ.files x.1.key x.1.file) := by
  cases h with
  | newSession _ => exact Or.inl hx
  | refused _ => exact Or.inl hx
  | connection _ _ _ => exact Or.inl hx
  | disconnect _ => exact Or.inl hx
  | upload _ _ => exact Or.inl hx
  | py _ _ => exact Or.inl hx
  | land hr _ =>
      cases List.mem_append.mp hx with
      | inl hold => exact Or.inl hold
      | inr hnew =>
          rw [List.mem_singleton.mp hnew]
          exact Or.inr ⟨List.mem_of_getElem? hr, rfl⟩
  | formError _ _ => rw [handle_eq] at hx; exact Or.inl hx
  | stdout _ _ _ => rw [handle_eq] at hx; exact Or.inl hx
  | stderr _ _ _ => rw [handle_eq] at hx; exact Or.inl hx
  | close _ _ _ _ => rw [handle_eq] at hx; exact Or.inl hx
  | callback _ _ => rw [handle_eq] at hx; exact Or.inl (List.mem_of_mem_eraseIdx hx)

theorem chartReadsOwned_of_reach {ok : State → Input → Prop} {σ : State}
    (h : (machine H).Reach ok σ) : ChartReadsOwned σ := by
  refine System.Reach.invariant ChartReadsOwned
    ⟨fun _ hr => absurd hr List.not_mem_nil, fun _ hx => absurd hx List.not_mem_nil⟩ ?_ h
  intro σ i r hσ _ hstep
  have hmove := move_of_step hstep
  constructor
  · intro x hx c hc
    refine uploaded_of_move hmove ?_
    cases started_of_move hmove hx with
    | inl hold => exact hσ.started x hold c hc
    | inr hnew =>
        cases hnew with
        | inl hconn =>
            rw [hc] at hconn
            cases hconn
        | inr hup => exact hup
  · intro x hx c hc
    refine uploaded_of_move hmove ?_
    cases landed_of_move hmove hx with
    | inl hold => exact hσ.landed x hold c hc
    | inr hnew => exact hσ.started x.1 hnew.1 c hc

/-! ## Events reach no other session -/

theorem not_emit_onClose {code : Nat} {ev : Event} {pl : Payload} {id : SocketId} :
    .emit ev pl id ∉ (onClose code).acts := by
  intro h
  obtain ⟨t, ht⟩ | hread := mem_onClose h
  · cases ht
  · cases hread

/-- What a step sends is sent by the handler of an analyser's output or by the
callback of a read. -/
theorem sent_cases {σ : State} {i : Input} {r : State × List Obs} (h : Move H σ i r) {key : Text}
    {ev : Event} {pl : Payload} {id : SocketId} (hsent : .sent key ev pl id ∈ r.2) :
    (∃ data, σ.Uploaded key ∧ .emit ev pl id ∈ (onStdoutData (σ.live key) data).acts) ∨
      ∃ x ∈ σ.landed, x.1.key = key ∧ .emit ev pl id ∈ (onRead x.1 (σ.live key) x.2).acts := by
  cases h with
  | newSession _ => cases hsent
  | refused _ => cases hsent
  | connection _ _ _ => cases hsent
  | disconnect _ => cases hsent
  | upload _ _ => cases hsent
  | py _ _ => cases hsent
  | land _ _ => cases hsent
  | formError _ _ => cases List.mem_singleton.mp (sent_mem_handle.mp hsent).2
  | stderr _ _ _ => cases List.mem_singleton.mp (sent_mem_handle.mp hsent).2
  | close _ _ _ _ => exact absurd (sent_mem_handle.mp hsent).2 not_emit_onClose
  | stdout hp _ _ =>
      obtain ⟨rfl, hemit⟩ := sent_mem_handle.mp hsent
      exact Or.inl ⟨_, uploaded_of_getElem? hp, hemit⟩
  | callback hr _ =>
      obtain ⟨rfl, hemit⟩ := sent_mem_handle.mp hsent
      exact Or.inr ⟨_, List.mem_of_getElem? hr, rfl, hemit⟩

/-- What a step sends was caused by an upload, and goes to the socket that the
lookup yields for its session. -/
theorem sent_of_move {σ : State} {i : Input} {r : State × List Obs} (h : Move H σ i r)
    (howned : ChartReadsOwned σ) {key : Text} {ev : Event} {pl : Payload} {id : SocketId}
    (hsent : .sent key ev pl id ∈ r.2) : σ.Uploaded key ∧ σ.live key = some id := by
  obtain ⟨data, hup, hemit⟩ | ⟨x, hx, hkey, hemit⟩ := sent_cases h hsent
  · exact ⟨hup, (emit_mem_onStdoutData hemit).1⟩
  · obtain ⟨hlive, c, _, hc, _⟩ := emit_mem_onRead hemit
    exact ⟨hkey ▸ howned.landed x hx c hc, hlive⟩

/-- Every event that is sent was caused by an upload of some session, and goes to
a connected socket whose handshake had the cookie of that session and no other. -/
theorem events_reach_own_session {σ σ' : State} {i : Input} {os : List Obs}
    (h : (machine H).Reach System.anyInput σ) (hstep : step H σ i = some (σ', os)) {key : Text}
    {ev : Event} {pl : Payload} {id : SocketId} (hsent : .sent key ev pl id ∈ os) :
    ∃ s : SessionID, (∃ p ∈ σ.procs, p.session = s) ∧ key = s.text ∧ id ∈ σ.connected ∧
      ∀ c, (id, c) ∈ σ.issued ↔ c = .valid s := by
  obtain ⟨⟨p, hp, hkey⟩, hlive⟩ :=
    sent_of_move (move_of_step hstep) (chartReadsOwned_of_reach h) hsent
  rw [← hkey, live_eq_some_iff (socketsCurrent_of_reach h)] at hlive
  have hissued := mem_issued_of_lastSocket hlive.1
  refine ⟨p.session, ⟨p, hp, rfl⟩, hkey.symm, hlive.2, fun c => ?_⟩
  constructor
  · intro hc
    have hpair := List.inj_on_of_nodup_map (idsDistinct_of_reach h) hc hissued rfl
    cases hpair
    rfl
  · intro hc
    rw [hc]
    exact hissued

/-! ## Events reach a socket as long as the last one is connected -/

/-- The step sends an event for a session: a progress number arrived, or the
file of a chart was read and is JSON. -/
inductive Emits (σ : State) : Input → SessionID → Event → Payload → Prop where
  | progress {i k : Nat} {p : Proc} {t : Text} : σ.procs[i]? = some p →
      progressMatch (p.pipe.take (k + 1)) = some t →
      Emits σ (.stdout i k) p.session .progress (.text t)
  | chart {j : Nat} {s : SessionID} {c : Chart} {text : Text} {v : Json} :
      σ.landed[j]? = some (⟨s.text, .chart c⟩, some text) → Json.parse text = some v →
      Emits σ (.callback j) s c.event (.json v)

/-- The event goes to a connected socket of the session if there is one, and no
exception is thrown if there is none. -/
def DeliveredOrDropped (σ : State) (s : SessionID) (ev : Event) (pl : Payload)
    (os : List Obs) : Prop :=
  ((∃ id, σ.HasSocket s id) → ∃ id, σ.HasSocket s id ∧ .sent s.text ev pl id ∈ os) ∧
    ((¬∃ id, σ.HasSocket s id) → ∀ e, .threw e ∉ os)

/-- A step that sends an event delivers it to the socket of the lookup, or throws
when there is none. -/
theorem outcome_of_emits {σ : State} {i : Input} {r : State × List Obs} {s : SessionID}
    {ev : Event} {pl : Payload} (h : Move H σ i r) (hemits : Emits σ i s ev pl) :
    (∀ id, σ.live s.text = some id → .sent s.text ev pl id ∈ r.2 ∧ ∀ e, .threw e ∉ r.2) ∧
      (σ.live s.text = none → (∀ id, .sent s.text ev pl id ∉ r.2) ∧ .threw .typeError ∈ r.2) := by
  cases hemits with
  | progress hp hmatch =>
      cases h with
      | stdout hp' _ _ =>
          rw [hp] at hp'
          cases hp'
          constructor
          · intro id hlive
            rw [hlive, onStdoutData_progress hmatch]
            refine ⟨sent_mem_handle.mpr ⟨rfl, List.mem_cons_self⟩, fun e he => ?_⟩
            cases threw_mem_handle.mp he
          · intro hlive
            have hthrow := onStdoutData_throws (a := (none, _)) fun hh =>
              hh (by rw [hmatch]; exact nofun) rfl
            rw [hlive, hthrow]
            refine ⟨fun id hid => ?_, threw_mem_handle.mpr rfl⟩
            cases (sent_mem_handle.mp hid).2
  | chart hread hparse =>
      cases h with
      | callback hr _ =>
          rw [hread] at hr
          cases hr
          rw [onRead_chart]
          constructor
          · intro id hlive
            rw [hlive, fileValue, Option.bind_some, hparse]
            refine ⟨sent_mem_handle.mpr ⟨rfl, List.mem_cons_self⟩, fun e he => ?_⟩
            cases threw_mem_handle.mp he
          · intro hlive
            rw [hlive]
            refine ⟨fun id hid => ?_, threw_mem_handle.mpr rfl⟩
            cases (sent_mem_handle.mp hid).2

/-- In every state of every run: an event is delivered to a connected socket of
its session, or dropped without an exception if there is none, exactly when the
socket of the session that connected last is still connected. -/
theorem emit_delivered_iff {σ σ' : State} {i : Input} {os : List Obs} {s : SessionID} {ev : Event}
    {pl : Payload} (h : (machine H).Reach System.anyInput σ)
    (hstep : step H σ i = some (σ', os)) (hemits : Emits σ i s ev pl) :
    DeliveredOrDropped σ s ev pl os ↔ ∃ id, σ.lastSocket s = some id ∧ id ∈ σ.connected := by
  have hcur := socketsCurrent_of_reach h
  obtain ⟨hsome, hnone⟩ := outcome_of_emits (move_of_step hstep) hemits
  constructor
  · intro hgood
    cases hlive : σ.live s.text with
    | some id => exact ⟨id, (live_eq_some_iff hcur).mp hlive⟩
    | none =>
        obtain ⟨hunsent, hthrew⟩ := hnone hlive
        by_cases hsock : ∃ id, σ.HasSocket s id
        · obtain ⟨id, _, hsent⟩ := hgood.1 hsock
          exact absurd hsent (hunsent id)
        · exact absurd hthrew (hgood.2 hsock _)
  · intro hlast
    obtain ⟨id, hid⟩ := hlast
    obtain ⟨hsent, hquiet⟩ := hsome id ((live_eq_some_iff hcur).mpr hid)
    exact ⟨fun _ => ⟨id, ⟨mem_issued_of_lastSocket hid.1, hid.2⟩, hsent⟩, fun _ => hquiet⟩

/-! ## Two runs -/

/-- The session of the first draw. -/
def firstSession : SessionID := genuuid .least

/-- The upload of the sample document. -/
def sampleUpload : Upload := ⟨some "messages.htm".toList, sampleDocument⟩

/-- A session connects, uploads, and the analyser writes its first percentage. -/
def uploadInputs (tabs : List Input) : List Input :=
  [.newSession .least] ++ tabs ++
    [.upload firstSession sampleUpload, .py 0 0, .py 0 0, .py 0 0, .stdout 0 3]

/-- The state before the next chunk, after the session has used its tabs so. -/
def stateBefore (tabs : List Input) : State :=
  (machine .insertion).after System.anyInput (uploadInputs tabs)

/-- With one tab open the next chunk is a progress number. -/
def oneTab : List Input := [.handshake 1 (some (.valid firstSession))]

/-- Two tabs were open and the second was closed. -/
def secondTabClosed : List Input :=
  [.handshake 1 (some (.valid firstSession)), .handshake 2 (some (.valid firstSession)),
    .disconnect 2]

/-- The next chunk of the sample is a progress number. -/
theorem emits_progress {tabs : List Input}
    (h : (stateBefore tabs).procs[0]?.map (fun p => (p.session, progressMatch (p.pipe.take 2))) =
      some (firstSession, some "10".toList)) :
    Emits (stateBefore tabs) (.stdout 0 1) firstSession .progress (.text "10".toList) := by
  obtain ⟨p, hp, hpair⟩ := Option.map_eq_some_iff.mp h
  obtain ⟨hs, hmatch⟩ := Prod.mk.inj hpair
  have hemits := Emits.progress (k := 1) hp hmatch
  rwa [hs] at hemits

theorem oneTab_emits :
    Emits (stateBefore oneTab) (.stdout 0 1) firstSession .progress (.text "10".toList) :=
  emits_progress (by decide +kernel)

theorem secondTabClosed_emits :
    Emits (stateBefore secondTabClosed) (.stdout 0 1) firstSession .progress
      (.text "10".toList) :=
  emits_progress (by decide +kernel)

/-- The step that delivers the chunk is possible. -/
theorem exists_step_oneTab :
    ∃ r, step .insertion (stateBefore oneTab) (.stdout 0 1) = some r :=
  Option.isSome_iff_exists.mp (by decide +kernel)

/-- With its only tab open, the session gets the progress number. -/
theorem emit_delivered_one_tab :
    ∃ r, step .insertion (stateBefore oneTab) (.stdout 0 1) = some r ∧
      DeliveredOrDropped (stateBefore oneTab) firstSession .progress (.text "10".toList) r.2 := by
  obtain ⟨r, hr⟩ := exists_step_oneTab
  have hlast : (stateBefore oneTab).lastSocket firstSession = some 1 ∧
      1 ∈ (stateBefore oneTab).connected := by decide +kernel
  exact ⟨r, hr, (emit_delivered_iff (System.reach_after _) hr oneTab_emits).mpr ⟨1, hlast⟩⟩

/-- The socket it goes to is one of the session. -/
theorem events_reach_own_session_one_tab :
    ∃ r id, step .insertion (stateBefore oneTab) (.stdout 0 1) = some r ∧
      .sent firstSession.text .progress (.text "10".toList) id ∈ r.2 ∧
      ∃ s : SessionID, (∃ p ∈ (stateBefore oneTab).procs, p.session = s) ∧
        firstSession.text = s.text ∧ id ∈ (stateBefore oneTab).connected ∧
        ∀ c, (id, c) ∈ (stateBefore oneTab).issued ↔ c = .valid s := by
  obtain ⟨r, hr⟩ := exists_step_oneTab
  have hlive : (stateBefore oneTab).live firstSession.text = some 1 := by decide +kernel
  have hsent := ((outcome_of_emits (move_of_step hr) oneTab_emits).1 1 hlive).1
  exact ⟨r, 1, hr, hsent, events_reach_own_session (System.reach_after _) hr hsent⟩

/-- Two tabs are open, the second is closed, and the next progress number ends
the server, though the first tab is connected. -/
theorem second_tab_closed_throws :
    ∃ r, (machine .insertion).Reach System.anyInput (stateBefore secondTabClosed) ∧
      step .insertion (stateBefore secondTabClosed) (.stdout 0 1) = some r ∧
      Emits (stateBefore secondTabClosed) (.stdout 0 1) firstSession .progress
        (.text "10".toList) ∧
      ¬DeliveredOrDropped (stateBefore secondTabClosed) firstSession .progress
        (.text "10".toList) r.2 := by
  obtain ⟨r, hr⟩ : ∃ r, step .insertion (stateBefore secondTabClosed) (.stdout 0 1) = some r :=
    Option.isSome_iff_exists.mp (by decide +kernel)
  refine ⟨r, System.reach_after _, hr, secondTabClosed_emits, fun hgood => ?_⟩
  have hsock : (1, SignedSid.valid firstSession) ∈ (stateBefore secondTabClosed).issued ∧
      1 ∈ (stateBefore secondTabClosed).connected := by decide +kernel
  have hlive : (stateBefore secondTabClosed).live firstSession.text = none := by decide +kernel
  obtain ⟨hunsent, _⟩ := (outcome_of_emits (move_of_step hr) secondTabClosed_emits).2 hlive
  obtain ⟨id, _, hsent⟩ := hgood.1 ⟨1, hsock⟩
  exact hunsent id hsent

end Server
