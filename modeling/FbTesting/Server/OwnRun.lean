import FbTesting.Base.Simulation
import FbTesting.Server.Store
import FbTesting.Server.Uploads

/-!
# The run of one session

All sessions share one server, one `sockets` and one `userData`.  A property
name `key` sees of the state what stands under it: the sockets that connected
with it, the data, the files, the analysers and the reads (`State.view`).

The server that only one session uses simulates the server that all of them use.
A step that concerns the session (`State.ownInput`) is the same step of its own
server, at the place that the analyser or the read has there, and every other
step leaves its view as it is.  So whatever the others do, and in whatever order,
the session gets the events, the data and the files of the run that it would have
alone, if the files that are uploaded stay where they belong.  The one thing that the
others can do to it then is to throw: a server that has ended is ended for everyone,
and an analyser of the session is cut off at its next flush.
-/

namespace Server

open Base Node Analyser

/-! ## What stands under a name -/

/-- The socket connected with a cookie of this name. -/
def owned (key : Text) (issued : List (SocketId × SignedSid)) (id : SocketId) : Bool :=
  issued.any fun x => x.1 == id && x.2.key == key

def SessionID.named (key : Text) (s : SessionID) : Bool := s.text == key

def Proc.named (key : Text) (p : Proc) : Bool := p.session.text == key

def Read.named (key : Text) (r : Read) : Bool := r.key == key

/-- The state as the property name sees it. -/
def State.view (σ : State) (key : Text) : State where
  alive := σ.alive
  sessions := σ.sessions.filter (SessionID.named key)
  issued := σ.issued.filter fun x => x.2.key == key
  connected := σ.connected.filter (owned key σ.issued)
  sockets := fun k => if k = key then σ.sockets k else none
  userData := fun k => if k = key then σ.userData k else none
  files := fun k => if k = key then σ.files k else fun _ => none
  procs := σ.procs.filter (Proc.named key)
  started := σ.started.filter (Read.named key)
  landed := σ.landed.filter fun x => x.1.named key

/-- The input as it concerns the property name, if it does. -/
def State.ownInput (key : Text) (σ : State) : Input → Option Input
  | .newSession d => if (genuuid d).named key then some (.newSession d) else none
  | .handshake _ none => none
  | .handshake id (some c) => if c.key = key then some (.handshake id (some c)) else none
  | .disconnect id => if owned key σ.issued id then some (.disconnect id) else none
  | .upload s u => if s.named key then some (.upload s u) else none
  | .formError s err => if s.named key then some (.formError s err) else none
  | .py i k => (placeIn (Proc.named key) σ.procs i).map fun n => .py n k
  | .stdout i k => (placeIn (Proc.named key) σ.procs i).map fun n => .stdout n k
  | .stderr i => (placeIn (Proc.named key) σ.procs i).map .stderr
  | .close i => (placeIn (Proc.named key) σ.procs i).map .close
  | .land j => (placeIn (Read.named key) σ.started j).map .land
  | .callback j => (placeIn (fun x => x.1.named key) σ.landed j).map .callback

/-- What was sent for the session. -/
def Obs.sentFor (key : Text) : Obs → Option (Event × Payload × SocketId)
  | .sent k ev pl id => if k = key then some (ev, pl, id) else none
  | .threw _ => none

/-! ## Sockets of a name -/

/-- A socket is kept under the name of its handshake, and every connected socket
had a handshake. -/
structure SocketsOwned (σ : State) : Prop where
  sockets : ∀ key id, σ.sockets key = some id → owned key σ.issued id = true
  connected : ∀ id ∈ σ.connected, id ∈ σ.issued.map Prod.fst

@[simp] theorem owned_iff {key : Text} {issued : List (SocketId × SignedSid)} {id : SocketId} :
    owned key issued id = true ↔ ∃ c, (id, c) ∈ issued ∧ c.key = key := by
  simp [owned]

variable {H : HashOrder}

theorem connected_of_move {σ : State} {i : Input} {r : State × List Obs} (h : Move H σ i r) :
    r.1.connected ⊆ σ.connected ∨ ∃ id c, r.1 = σ.connection id c := by
  cases h with
  | connection _ _ _ => exact Or.inr ⟨_, _, rfl⟩
  | disconnect _ => exact Or.inl (List.filter_subset_self _)
  | newSession _ => exact Or.inl (List.Subset.refl _)
  | refused _ => exact Or.inl (List.Subset.refl _)
  | upload _ _ => exact Or.inl (List.Subset.refl _)
  | py _ _ => exact Or.inl (List.Subset.refl _)
  | land _ _ => exact Or.inl (List.Subset.refl _)
  | formError _ _ => rw [handle_eq]; exact Or.inl (List.Subset.refl _)
  | stdout _ _ _ => rw [handle_eq]; exact Or.inl (List.Subset.refl _)
  | stderr _ _ _ => rw [handle_eq]; exact Or.inl (List.Subset.refl _)
  | close _ _ _ _ => rw [handle_eq]; exact Or.inl (List.Subset.refl _)
  | callback _ _ => rw [handle_eq]; exact Or.inl (List.Subset.refl _)

theorem SocketsOwned.connection {σ : State} (h : SocketsOwned σ) (id : SocketId) (c : SignedSid) :
    SocketsOwned (σ.connection id c) := by
  constructor
  · intro key x hx
    rw [owned_iff]
    by_cases hkey : key = c.key
    · subst hkey
      simp only [State.connection, Function.update_self, Option.some.injEq] at hx
      exact ⟨c, by simp [State.connection, hx], rfl⟩
    · simp only [State.connection, Function.update_of_ne hkey] at hx
      obtain ⟨c', hc', hk⟩ := owned_iff.mp (h.sockets key x hx)
      exact ⟨c', List.mem_cons_of_mem _ hc', hk⟩
  · intro x hx
    simp only [State.connection, List.mem_cons, List.map_cons] at hx ⊢
    exact hx.imp_right (h.connected x)

theorem socketsOwned_initial : SocketsOwned State.initial :=
  ⟨by simp [State.initial], by simp [State.initial]⟩

theorem SocketsOwned.move {σ : State} {i : Input} {r : State × List Obs} (h : SocketsOwned σ)
    (hmove : Move H σ i r) : SocketsOwned r.1 := by
  obtain ⟨hsockets, hissued⟩ | ⟨id, c, _, hnew⟩ := sockets_of_move hmove
  · constructor
    · intro key id hid
      rw [hsockets] at hid
      rw [hissued]
      exact h.sockets key id hid
    · rw [hissued]
      obtain hsub | ⟨id, c, hnew⟩ := connected_of_move hmove
      · exact fun id hid => h.connected id (hsub hid)
      · rw [hnew] at hissued
        exact absurd hissued (by simp [State.connection])
  · rw [hnew]
    exact h.connection id c

/-- The lookup yields in the view what it yields in the state. -/
theorem live_view {σ : State} (h : SocketsOwned σ) (key : Text) :
    (σ.view key).live key = σ.live key := by
  simp only [State.live, State.view, if_pos]
  cases hs : σ.sockets key with
  | none => rfl
  | some id => simp [List.mem_filter, owned_iff.mp (h.sockets key id hs)]

/-! ## Handlers -/

theorem foldl_stores_view (key : Text) (as : List Effect) : ∀ ud : Text → Option Json,
    as.foldl (Effect.stores key) (fun k => if k = key then ud k else none) =
      fun k => if k = key then as.foldl (Effect.stores key) ud k else none := by
  induction as with
  | nil => intro ud; rfl
  | cons a as ih =>
      intro ud
      rw [List.foldl_cons, List.foldl_cons, ← ih]
      cases a with
      | store v =>
          congr 1
          funext k
          by_cases hk : k = key <;> simp [Effect.stores, hk]
      | emit _ _ _ => rfl
      | console _ => rfl
      | readChart _ => rfl
      | readStore => rfl

theorem filter_reads (key : Text) (as : List Effect) :
    (as.flatMap (Effect.reads key)).filter (Read.named key) = as.flatMap (Effect.reads key) := by
  refine List.filter_eq_self.mpr fun r hr => ?_
  simpa [Read.named] using key_of_mem_reads hr

/-- A handler of the session itself runs in its view as it does in the state. -/
theorem handle_view (σ : State) (key : Text) (h : Handler) :
    (σ.view key).handle key h = ((σ.handle key h).1.view key, (σ.handle key h).2) := by
  rw [handle_eq, handle_eq]
  simp only [State.view, foldl_stores_view, List.filter_append, filter_reads]

/-- A handler of another session leaves the view, but for an exception. -/
theorem handle_view_of_ne {σ : State} {k key : Text} (hk : k ≠ key) (h : Handler) :
    (σ.handle k h).1.view key = { σ.view key with alive := (σ.handle k h).1.alive } := by
  have hreads : (h.acts.flatMap (Effect.reads k)).filter (Read.named key) = [] := by
    refine List.filter_eq_nil_iff.mpr fun r hr => ?_
    simpa [Read.named, key_of_mem_reads hr] using hk
  have hdata : (fun x => if x = key then h.acts.foldl (Effect.stores k) σ.userData x else none) =
      fun x => if x = key then σ.userData x else none := by
    funext x
    split
    · rename_i hx
      exact foldl_stores_of_ne (fun hxk => hk (hxk.symm.trans hx)) h.acts σ.userData
    · rfl
  rw [handle_eq]
  simp only [State.view, List.filter_append, hreads, hdata, List.append_nil]

theorem sentFor_handle_of_ne {σ : State} {k key : Text} (hk : k ≠ key) (h : Handler) :
    (σ.handle k h).2.filterMap (Obs.sentFor key) = [] := by
  refine List.filterMap_eq_nil_iff.mpr fun o ho => ?_
  cases o with
  | threw e => rfl
  | sent k' ev pl id =>
      rw [(sent_mem_handle.mp ho).1]
      exact if_neg hk

/-! ## Steps of the session -/

/-- An act of an analyser of the session. -/
theorem step_view_py {σ : State} {i k n : Nat} {p p' : Proc} {files : OutFile → Option Text}
    {key : Text} (hp : σ.procs[i]? = some p)
    (hact : p.act σ.alive k (σ.files p.session.text) = some (p', files))
    (hn : placeIn (Proc.named key) σ.procs i = some n) :
    step H (σ.view key) (.py n k) =
      some (State.view { σ with procs := σ.procs.set i p',
                                files := Function.update σ.files p.session.text files } key, []) := by
  obtain ⟨hkey, hget⟩ := placeIn_eq_some hp hn
  have hkey' : p.session.text = key := by simpa [Proc.named] using hkey
  have hnamed : p'.named key = true := by
    rw [Proc.named, (Proc.act_session hact).1]
    exact hkey
  have hact' : p.act (σ.view key).alive k ((σ.view key).files p.session.text) =
      some (p', files) := by
    simpa [State.view, hkey'] using hact
  refine Eq.trans (step_of_move (Move.py hget hact') (fun _ => nofun)) ?_
  simp only [State.view, filter_set_of_pos hn hnamed, hkey']
  congr 3
  funext x
  by_cases hx : x = key <;> simp [hx]

/-- A connection of the session. -/
theorem view_connection {σ : State} (h : SocketsOwned σ) {id : SocketId} {c : SignedSid}
    (hfresh : id ∉ σ.issued.map Prod.fst) :
    (σ.connection id c).view c.key = (σ.view c.key).connection id c := by
  have hnot : id ∉ σ.connected := fun hid => hfresh (h.connected id hid)
  have hothers : σ.connected.filter (owned c.key (σ.connection id c).issued) =
      σ.connected.filter (owned c.key σ.issued) := by
    refine List.filter_congr fun x hx => ?_
    have hne : id ≠ x := fun heq => hnot (heq ▸ hx)
    simp [owned, State.connection, hne]
  have hself : owned c.key (σ.connection id c).issued id = true := by simp [State.connection]
  have hconnected : (id :: σ.connected).filter (owned c.key (σ.connection id c).issued) =
      id :: σ.connected.filter (owned c.key σ.issued) := by
    rw [List.filter_cons_of_pos hself, hothers]
  rw [State.view, show (σ.connection id c).connected = id :: σ.connected from rfl, hconnected]
  simp only [State.connection, State.view, List.filter_cons, if_pos, beq_self_eq_true]
  congr 1
  · funext x
    by_cases hx : x = c.key <;> simp [hx]
  · split <;> simp [Read.named]

/-- An analyser of the session is replaced at its place. -/
theorem view_set {σ : State} {key : Text} {i n : Nat} {p : Proc}
    (hn : placeIn (Proc.named key) σ.procs i = some n) (hp : p.named key = true) :
    State.view { σ with procs := σ.procs.set i p } key =
      { σ.view key with procs := (σ.view key).procs.set n p } := by
  rw [State.view, filter_set_of_pos hn hp]
  rfl

/-- A read of the session that is called back is taken from its place. -/
theorem view_eraseIdx {σ : State} {key : Text} {j n : Nat}
    (hn : placeIn (fun x => x.1.named key) σ.landed j = some n) :
    State.view { σ with landed := σ.landed.eraseIdx j } key =
      { σ.view key with landed := (σ.view key).landed.eraseIdx n } := by
  rw [State.view, filter_eraseIdx_of_pos hn]
  rfl

/-- A step of the session is a step of its own server. -/
theorem step_view {σ : State} {i k : Input} {r : State × List Obs} {key : Text}
    (hσ : SocketsOwned σ) (ha : σ.alive = true) (h : Move H σ i r)
    (hk : σ.ownInput key i = some k) : step H (σ.view key) k = some (r.1.view key, r.2) := by
  cases h with
  | @newSession d _ =>
      obtain ⟨hd, hk⟩ := Option.ite_none_right_eq_some.mp hk
      cases hk
      refine Eq.trans (step_of_move (.newSession ha) fun _ => nofun) ?_
      simp [State.view, hd]
  | refused _ => cases hk
  | @connection id c _ hfresh hknown =>
      obtain ⟨rfl, hsame⟩ := Option.ite_none_right_eq_some.mp hk
      cases hsame
      have hfresh' : id ∉ (σ.view c.key).issued.map Prod.fst :=
        fun hid => hfresh (List.map_subset _ (List.filter_subset_self _) hid)
      have hknown' : CookieKnown (σ.view c.key).sessions (some c) := by
        intro s hs
        cases hs
        exact List.mem_filter.mpr ⟨hknown s rfl, beq_self_eq_true s.text⟩
      rw [view_connection hσ hfresh]
      exact step_of_move (.connection ha hfresh' hknown') fun _ => nofun
  | @disconnect id _ =>
      obtain ⟨_, hk⟩ := Option.ite_none_right_eq_some.mp hk
      cases hk
      refine Eq.trans (step_of_move (.disconnect ha) fun _ => nofun) ?_
      simp only [State.view, List.filter_filter, Bool.and_comm]
  | @upload s u _ hs =>
      obtain ⟨hkey, hk⟩ := Option.ite_none_right_eq_some.mp hk
      cases hk
      have hs' : s ∈ (σ.view key).sessions := List.mem_filter.mpr ⟨hs, hkey⟩
      refine Eq.trans (step_of_move (.upload ha hs') fun _ => nofun) ?_
      have hnamed : (Proc.start H s u).named key = true := hkey
      simp [State.view, hnamed]
  | @formError s err _ hs =>
      obtain ⟨hkey, hk⟩ := Option.ite_none_right_eq_some.mp hk
      cases hk
      have hs' : s ∈ (σ.view key).sessions := List.mem_filter.mpr ⟨hs, hkey⟩
      obtain rfl : s.text = key := by simpa [SessionID.named] using hkey
      rw [← handle_view]
      exact step_of_move (.formError ha hs') fun _ => nofun
  | py hp hact =>
      obtain ⟨n, hn, rfl⟩ := Option.map_eq_some_iff.mp hk
      exact step_view_py hp hact hn
  | @stdout i k p hp _ hpipe =>
      obtain ⟨n, hn, rfl⟩ := Option.map_eq_some_iff.mp hk
      obtain ⟨hkey, hget⟩ := placeIn_eq_some hp hn
      obtain rfl : p.session.text = key := by simpa [Proc.named] using hkey
      rw [← handle_view, ← live_view hσ,
        view_set (p := { p with pipe := p.pipe.drop (k + 1) }) hn hkey]
      exact step_of_move (.stdout hget ha hpipe) fun _ => nofun
  | @stderr i p hp _ herr =>
      obtain ⟨n, hn, rfl⟩ := Option.map_eq_some_iff.mp hk
      obtain ⟨hkey, hget⟩ := placeIn_eq_some hp hn
      obtain rfl : p.session.text = key := by simpa [Proc.named] using hkey
      rw [← handle_view, view_set (p := { p with err := p.err.drop 1 }) hn hkey]
      exact step_of_move (.stderr hget ha herr) fun _ => nofun
  | @close i p hp _ hdrained hclosed =>
      obtain ⟨n, hn, rfl⟩ := Option.map_eq_some_iff.mp hk
      obtain ⟨hkey, hget⟩ := placeIn_eq_some hp hn
      obtain rfl : p.session.text = key := by simpa [Proc.named] using hkey
      rw [← handle_view, view_set (p := { p with closed := true }) hn hkey]
      exact step_of_move (.close hget ha hdrained hclosed) fun _ => nofun
  | @land j x hx _ =>
      obtain ⟨n, hn, rfl⟩ := Option.map_eq_some_iff.mp hk
      obtain ⟨hkey, hget⟩ := placeIn_eq_some hx hn
      obtain rfl : x.key = key := by simpa [Read.named] using hkey
      refine Eq.trans (step_of_move (.land hget ha) fun _ => nofun) ?_
      simp [State.view, filter_eraseIdx_of_pos hn, Read.named]
  | @callback j x content hx _ =>
      obtain ⟨n, hn, rfl⟩ := Option.map_eq_some_iff.mp hk
      obtain ⟨hkey, hget⟩ := placeIn_eq_some hx hn
      obtain rfl : x.key = key := by simpa [Read.named] using hkey
      rw [← handle_view, ← live_view hσ, view_eraseIdx hn]
      exact step_of_move (.callback hget ha) fun _ => nofun

/-! ## Steps of others -/

/-- An analyser of another session is replaced. -/
theorem view_set_of_ne {σ : State} {key : Text} {i : Nat} {p q : Proc} (hp : σ.procs[i]? = some p)
    (hp' : p.named key = false) (hq : q.named key = false) :
    State.view { σ with procs := σ.procs.set i q } key = σ.view key := by
  rw [State.view, filter_set_of_neg hp hp' hq]
  rfl

/-- A handler of another session, after a change that the session does not see. -/
theorem other_handle {σ τ : State} {k key : Text} (hview : τ.view key = σ.view key) (hk : k ≠ key)
    (h : Handler) :
    (τ.handle k h).1.view key = { σ.view key with alive := (τ.handle k h).1.alive } ∧
      (τ.handle k h).2.filterMap (Obs.sentFor key) = [] := by
  rw [handle_view_of_ne hk, hview]
  exact ⟨rfl, sentFor_handle_of_ne hk h⟩

theorem ne_of_not_named {p : Proc} {key : Text} (h : p.named key = false) :
    p.session.text ≠ key := by
  simpa [Proc.named] using h

/-- A step of another session leaves the view, but for an exception, and sends
nothing to the session. -/
theorem view_of_other {σ : State} {i : Input} {r : State × List Obs} {key : Text}
    (h : Move H σ i r) (hk : σ.ownInput key i = none) :
    r.1.view key = { σ.view key with alive := r.1.alive } ∧
      r.2.filterMap (Obs.sentFor key) = [] := by
  cases h with
  | @newSession d ha =>
      have hd : ¬(genuuid d).named key = true := by simpa [State.ownInput] using hk
      exact ⟨by simp [State.view, hd], rfl⟩
  | refused _ => exact ⟨rfl, rfl⟩
  | @connection id c _ hfresh _ =>
      have hc : c.key ≠ key := by simpa [State.ownInput] using hk
      refine ⟨?_, rfl⟩
      have howned : owned key (σ.connection id c).issued = owned key σ.issued := by
        funext x
        simp [owned, State.connection, hc]
      have hself : owned key σ.issued id = false := by
        rw [Bool.eq_false_iff]
        intro hown
        obtain ⟨c', hc', _⟩ := owned_iff.mp hown
        exact hfresh (List.mem_map.mpr ⟨_, hc', rfl⟩)
      rw [State.view, howned]
      simp only [State.connection, State.view, List.filter_cons, hself, hc, beq_iff_eq]
      congr 1
      · funext x
        by_cases hx : x = key
        · simp [hx, Ne.symm hc]
        · simp [hx]
      · split <;> simp [Read.named, hc]
  | @disconnect id ha =>
      have hid : ¬owned key σ.issued id = true := by simpa [State.ownInput] using hk
      refine ⟨?_, rfl⟩
      have hfilter : (σ.connected.filter (· ≠ id)).filter (owned key σ.issued) =
          σ.connected.filter (owned key σ.issued) := by
        rw [List.filter_filter]
        refine List.filter_congr fun x _ => ?_
        by_cases hx : x = id
        · simp [hx, Bool.eq_false_iff.mpr hid]
        · simp [hx]
      rw [State.view, hfilter]
      rfl
  | @upload s u _ _ =>
      have hs : ¬s.named key = true := by simpa [State.ownInput] using hk
      have hnamed : ¬(Proc.start H s u).named key = true := hs
      exact ⟨by simp [State.view, hnamed], rfl⟩
  | @formError s err _ _ =>
      have hs : ¬s.named key = true := by simpa [State.ownInput] using hk
      have hne : s.text ≠ key := by simpa [SessionID.named] using hs
      exact other_handle rfl hne _
  | py hp hact =>
      have hother := (placeIn_eq_none_iff hp).mp (Option.map_eq_none_iff.mp hk)
      refine ⟨?_, rfl⟩
      rw [State.view, filter_set_of_neg hp hother]
      · simp only [State.view]
        congr 1
        funext x
        by_cases hx : x = key
        · rw [if_pos hx, if_pos hx, Function.update_of_ne (hx ▸ (ne_of_not_named hother).symm)]
        · rw [if_neg hx, if_neg hx]
      · rw [Proc.named, (Proc.act_session hact).1]
        exact hother
  | stdout hp _ _ =>
      have hother := (placeIn_eq_none_iff hp).mp (Option.map_eq_none_iff.mp hk)
      refine other_handle ?_ (ne_of_not_named hother) _
      exact view_set_of_ne hp hother hother
  | stderr hp _ _ =>
      have hother := (placeIn_eq_none_iff hp).mp (Option.map_eq_none_iff.mp hk)
      refine other_handle ?_ (ne_of_not_named hother) _
      exact view_set_of_ne hp hother hother
  | close hp _ _ _ =>
      have hother := (placeIn_eq_none_iff hp).mp (Option.map_eq_none_iff.mp hk)
      refine other_handle ?_ (ne_of_not_named hother) _
      exact view_set_of_ne hp hother hother
  | land hr _ =>
      have hother := (placeIn_eq_none_iff hr).mp (Option.map_eq_none_iff.mp hk)
      exact ⟨by simp [State.view, hother, filter_eraseIdx_of_neg hr hother], rfl⟩
  | @callback j x _ hr _ =>
      have hother := (placeIn_eq_none_iff hr).mp (Option.map_eq_none_iff.mp hk)
      have hne : x.key ≠ key := by simpa [Read.named] using hother
      refine other_handle ?_ hne _
      rw [State.view, filter_eraseIdx_of_neg hr hother]
      rfl

/-! ## The simulation -/

/-- The own server is in the state that the view shows, as long as the shared one is
alive. -/
structure Mirrors (key : Text) (σ τ : State) : Prop where
  owned : SocketsOwned σ
  view : σ.alive = true → τ = σ.view key

/-- A server that has ended shows nothing more. -/
theorem quiet_of_not_alive {σ : State} {i : Input} {r : State × List Obs} (h : Move H σ i r)
    (ha : σ.alive = false) : r.1.alive = false ∧ r.2 = [] := by
  obtain ⟨j, k, rfl⟩ := py_of_not_alive h ha
  cases h with
  | py _ _ => exact ⟨ha, rfl⟩

/-- The input of the own server, while the shared one is alive. -/
def State.liveInput (key : Text) (σ : State) (i : Input) : Option Input :=
  if σ.alive then σ.ownInput key i else none

theorem Mirrors.stutter {key : Text} {σ τ : State} {i : Input} {r : State × List Obs}
    (h : Mirrors key σ τ) (hmove : Move H σ i r) (hk : σ.liveInput key i = none) :
    Mirrors key r.1 τ ∧ r.2.filterMap (Obs.sentFor key) = [] := by
  have howned := h.owned.move hmove
  cases ha : σ.alive with
  | false =>
      obtain ⟨hdead, hquiet⟩ := quiet_of_not_alive hmove ha
      refine ⟨⟨howned, fun ha' => ?_⟩, by rw [hquiet]; rfl⟩
      rw [hdead] at ha'
      cases ha'
  | true =>
      rw [State.liveInput, if_pos ha] at hk
      obtain ⟨hview, hsent⟩ := view_of_other hmove hk
      refine ⟨⟨howned, fun ha' => ?_⟩, hsent⟩
      rw [hview, ha', h.view ha]
      simp [State.view, ha]

theorem Mirrors.move {key : Text} {σ τ : State} {i k : Input} {r : State × List Obs}
    (h : Mirrors key σ τ) (hmove : Move H σ i r) (hk : σ.liveInput key i = some k) :
    step H τ k = some (r.1.view key, r.2) ∧ Mirrors key r.1 (r.1.view key) := by
  obtain ⟨ha, hk⟩ := Option.ite_none_right_eq_some.mp hk
  refine ⟨?_, h.owned.move hmove, fun _ => rfl⟩
  rw [h.view ha]
  exact step_view h.owned ha hmove hk

variable (H)

/-- The server of all sessions is simulated by the server of one. -/
def ownRun (key : Text) : Simulation (machine H) System.anyInput (machine H) System.anyInput
    (Event × Payload × SocketId) where
  rel := Mirrors key
  input := State.liveInput key
  seen := Obs.sentFor key
  seen' := Obs.sentFor key
  init := ⟨socketsOwned_initial, fun _ => by simp [machine, State.initial, State.view]⟩
  stutter := fun h _ hstep hk => h.stutter (move_of_step hstep) hk
  move := fun h _ hstep hk =>
    have hmove := h.move (move_of_step hstep) hk
    ⟨trivial, _, hmove.1, hmove.2, rfl⟩

variable {H}

/-! ## The run on a site -/

variable {E : Host}

variable (E) in
/-- The inputs of a run of a site that concern a property name, as its own server gets
them. -/
def ownInputs (key : Text) (is : List SiteInput) : List Input :=
  (ownRun E.order key).inputsOf State.initial (coreInputs E System.anyInput is)

/-- An upload that the own server gets is one of the session. -/
theorem upload_of_liveInput {key : Text} {σ : State} {i : Input} {s : SessionID} {u : Upload}
    (h : σ.liveInput key i = some (.upload s u)) : s.text = key ∧ i = .upload s u := by
  obtain ⟨_, h⟩ := Option.ite_none_right_eq_some.mp h
  cases i with
  | upload t v =>
      obtain ⟨hkey, heq⟩ := Option.ite_none_right_eq_some.mp h
      cases heq
      exact ⟨by simpa [SessionID.named] using hkey, rfl⟩
  | newSession d =>
      obtain ⟨_, heq⟩ := Option.ite_none_right_eq_some.mp h
      cases heq
  | handshake id c =>
      cases c with
      | none => cases h
      | some c =>
          obtain ⟨_, heq⟩ := Option.ite_none_right_eq_some.mp h
          cases heq
  | disconnect id =>
      obtain ⟨_, heq⟩ := Option.ite_none_right_eq_some.mp h
      cases heq
  | formError t err =>
      obtain ⟨_, heq⟩ := Option.ite_none_right_eq_some.mp h
      cases heq
  | _ =>
      obtain ⟨_, _, heq⟩ := Option.map_eq_some_iff.mp h
      cases heq

/-- Every upload of a run has an analyser at its end. -/
theorem proc_of_upload_mem {ok : State → Input → Prop} [∀ σ i, Decidable (ok σ i)]
    {s : SessionID} {u : Upload} : ∀ {is : List Input} {σ : State} {r : State × List Obs},
    (machine H).exec ok σ is = some r → .upload s u ∈ is →
      ∃ p ∈ r.1.procs, p.session = s ∧ p.upload = u
  | [], _, _, _, hmem => absurd hmem List.not_mem_nil
  | i :: is, σ, r, h, hmem => by
      obtain ⟨_, q, hq, q', hq', rfl⟩ := System.exec_cons_eq_some.mp h
      cases List.mem_cons.mp hmem with
      | inr hlater =>
          obtain ⟨p, hp, hupload⟩ := proc_of_upload_mem hq' hlater
          exact ⟨p, hp, hupload⟩
      | inl heq =>
          subst heq
          have hstep : step H σ (.upload s u) = some q := hq
          refine System.exec_invariant (fun σ => ∃ p ∈ σ.procs, p.session = s ∧ p.upload = u)
            (fun hp _ hnext => ?_) ?_ hq'
          · exact proc_of_move (move_of_step hnext) (P := fun t v => t = s ∧ v = u) hp
          · cases move_of_step hstep with
            | upload _ _ =>
                exact ⟨_, List.mem_append_right _ (List.mem_singleton.mpr rfl), rfl, rfl⟩

/-- The own server has the run that the view shows. -/
theorem own_exec {is : List SiteInput} {r : Site × List Obs}
    (h : (site E).exec (Undisturbed E System.anyInput) Site.initial is = some r) (key : Text) :
    ∃ q, (machine E.order).exec System.anyInput State.initial (ownInputs E key is) = some q ∧
      q.2.filterMap (Obs.sentFor key) = r.2.filterMap (Obs.sentFor key) ∧
      (r.1.core.alive = true → q.1 = r.1.core.view key) := by
  obtain ⟨q, hq, hrel, hseen⟩ :=
    (ownRun E.order key).exec_matched (ownRun E.order key).init (core_of_exec h).1
  exact ⟨q, hq, hseen, hrel.view⟩

/-- In every run of a site whose uploads are not disturbed, under every property name:
the events sent are those of a run of the server with no inputs but those of that name,
and while the server of all is alive so are the stored data, the files, the sockets, the
analysers and the reads.  What is uploaded in that run are the documents that the forms
of the name have received. -/
theorem session_runs_as_if_alone {is : List SiteInput} {r : Site × List Obs}
    (h : (site E).exec (Undisturbed E System.anyInput) Site.initial is = some r) (key : Text) :
    (∃ q, (machine E.order).exec System.anyInput State.initial (ownInputs E key is) = some q ∧
      q.2.filterMap (Obs.sentFor key) = r.2.filterMap (Obs.sentFor key) ∧
      (r.1.core.alive = true → q.1 = r.1.core.view key)) ∧
      ∀ s u, .upload s u ∈ ownInputs E key is →
        s.text = key ∧ ∃ f ∈ r.1.forms, f.session = s ∧ f.upload E = u := by
  refine ⟨own_exec h key, fun s u hmem => ?_⟩
  obtain ⟨hcore, hplace⟩ := core_of_exec h
  obtain ⟨_, i, hi, hinput⟩ := (ownRun E.order key).mem_inputsOf hmem
  obtain ⟨hkey, rfl⟩ := upload_of_liveInput hinput
  obtain ⟨p, hp, hs, hu⟩ := proc_of_upload_mem hcore hi
  obtain ⟨f, hf, _, hfs, hfu⟩ := hplace.procs p hp
  exact ⟨hkey, f, hf, hfs.trans hs, hfu.trans hu⟩

theorem Draw.half_bounds : (0 : ℚ) ≤ 1 / 2 ∧ (1 : ℚ) / 2 < 1 := by norm_num

/-- The session of another draw. -/
def halfSession : SessionID := genuuid ⟨1 / 2, Draw.half_bounds.1, Draw.half_bounds.2⟩

/-- Two sessions at once: their forms overlap, the analysers of both write, and the chunk
of the second arrives before that of the first. -/
def twoSessions : List SiteInput :=
  [.core (.newSession .least),
    .core (.newSession ⟨1 / 2, Draw.half_bounds.1, Draw.half_bounds.2⟩),
    .core (.handshake 1 (some (.valid halfSession))),
    .core (.handshake 2 (some (.valid firstSession))),
    .form halfSession, .form firstSession, .fileBegin 0 "messages.htm".toList,
    .fileBegin 1 "messages.htm".toList, .receive 1 samplePage, .receive 0 longerPage, .formEnd 0,
    .formEnd 1] ++
    List.map .core [.py 0 0, .py 1 0, .py 1 0, .py 0 0, .py 1 0, .py 0 0, .stdout 0 3, .stdout 1 3,
      .disconnect 1, .stdout 1 1]

/-- The first of them gets its progress number as if it were alone. -/
theorem session_runs_as_if_alone_two_sessions :
    ∃ r q, (site sampleHost).exec (Undisturbed sampleHost System.anyInput) Site.initial
        twoSessions = some r ∧
      (machine .insertion).exec System.anyInput State.initial
          (ownInputs sampleHost firstSession.text twoSessions) = some q ∧
      q.2.filterMap (Obs.sentFor firstSession.text) =
        r.2.filterMap (Obs.sentFor firstSession.text) := by
  obtain ⟨r, hr⟩ : ∃ r, (site sampleHost).exec (Undisturbed sampleHost System.anyInput)
      Site.initial twoSessions = some r := Option.isSome_iff_exists.mp (by decide +kernel)
  obtain ⟨⟨q, hown, hseen, _⟩, _⟩ := session_runs_as_if_alone hr firstSession.text
  exact ⟨r, q, hr, hown, hseen⟩

/-- Two runs in which a session does the same show it the same, whatever the
others do, and leave it the same while their servers are alive. -/
theorem session_unaffected_by_others {is js : List SiteInput} {r q : Site × List Obs} {key : Text}
    (hr : (site E).exec (Undisturbed E System.anyInput) Site.initial is = some r)
    (hq : (site E).exec (Undisturbed E System.anyInput) Site.initial js = some q)
    (hsame : ownInputs E key is = ownInputs E key js) :
    r.2.filterMap (Obs.sentFor key) = q.2.filterMap (Obs.sentFor key) ∧
      (r.1.core.alive = true → q.1.core.alive = true →
        r.1.core.userData key = q.1.core.userData key ∧ r.1.core.files key = q.1.core.files key) := by
  obtain ⟨a, hrun, hsent, hview⟩ := own_exec hr key
  obtain ⟨b, hrun', hsent', hview'⟩ := own_exec hq key
  rw [hsame, hrun', Option.some.injEq] at hrun
  subst hrun
  refine ⟨hsent.symm.trans hsent', fun hr hq => ?_⟩
  have hstate := (hview hr).symm.trans (hview' hq)
  have hdata := congrArg (fun σ => σ.userData key) hstate
  have hfiles := congrArg (fun σ => σ.files key) hstate
  simp only [State.view, if_pos] at hdata hfiles
  exact ⟨hdata, hfiles⟩

end Server
