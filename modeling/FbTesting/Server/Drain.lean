import FbTesting.Base.Potential
import FbTesting.Server.Store
import FbTesting.Server.Uploads

/-!
# How the server comes to rest

Some inputs come from outside: sessions, sockets and uploads.  The others are
steps that the server and its analysers take by themselves once they have been
given something to do: the acts of an analyser, the chunks of its output, its
end, the reads of files and their callbacks (`Input.internal`).

`State.work` is what is left to do, and every internal step does some of it
(`work_of_move`).  A connection adds the read of `messages.json`, and an upload
the work of its analyser; nothing else adds anything.  So the internal steps of a
run are bounded by what came from outside, and left alone the server comes to
rest.  As long as it runs it does not stop before all is done (`idle_of_stuck`):
at rest no analyser is open, no output is undelivered and no read is under way.
-/

namespace Server

open Base Node Analyser Python

/-! ## Work -/

/-- A step that the server or an analyser takes by itself. -/
def Input.internal : Input → Bool
  | .py _ _ | .stdout _ _ | .stderr _ | .close _ | .land _ | .callback _ => true
  | .newSession _ | .handshake _ _ | .disconnect _ | .upload _ _ | .formError _ _ => false

/-- What is left to do for an act: itself, and for each character that it prints
the delivery and the two steps of a read that this may start. -/
def actWork : Act → Nat
  | .stdout t => 1 + 3 * t.length
  | .flush => 1
  | .open _ => 1
  | .write _ t => t.length + 1
  | .close _ => 1
  | .stderr _ => 2

/-- What is left to do for an analyser.  Its end starts a read. -/
def Proc.work (p : Proc) : Nat :=
  (p.todo.map actWork).sum + 3 * (p.buffer.length + p.pipe.length) + p.err.length +
    if p.closed then 0 else 3

/-- What is left to do. -/
def State.work (σ : State) : Nat :=
  (σ.procs.map Proc.work).sum + 2 * σ.started.length + σ.landed.length

/-- What an input adds. -/
def Input.gain (H : HashOrder) : Input → Nat
  | .handshake _ (some _) => 2
  | .upload s u => (Proc.start H s u).work
  | _ => 0

def Input.cost (i : Input) : Nat := if i.internal then 1 else 0

/-! ## Every internal step does some of it -/

variable {H : HashOrder}

/-- An act is done, or a part of a write, or the last one. -/
theorem work_act {p p' : Proc} {alive : Bool} {k : Nat} {files files' : OutFile → Option Text}
    (h : p.act alive k files = some (p', files')) : p'.work + 1 ≤ p.work := by
  cases hp : p.todo with
  | nil => exact absurd hp (Proc.act_todo_ne_nil h)
  | cons a rest =>
      cases a with
      | flush =>
          obtain ⟨_, rfl | ⟨_, _, rfl⟩⟩ := Proc.act_flush hp h
          · simp only [Proc.work, hp, List.map_cons, List.sum_cons, actWork, List.length_append,
              List.length_nil]
            omega
          · simp only [Proc.work, hp, List.map_cons, List.sum_cons, actWork, List.map_nil,
              List.sum_nil, List.length_nil]
            omega
      | write f t =>
          rw [Proc.act, hp] at h
          cases h
          simp only [Proc.work, hp]
          split
          · simp only [List.map_cons, List.sum_cons, actWork]
            omega
          · simp only [List.map_cons, List.sum_cons, actWork, List.length_drop]
            omega
      | stdout t =>
          rw [Proc.act, hp] at h
          cases h
          simp only [Proc.work, hp, List.map_cons, List.sum_cons, actWork, List.length_append]
          omega
      | stderr e =>
          rw [Proc.act, hp] at h
          cases h
          simp only [Proc.work, hp, List.map_cons, List.sum_cons, actWork, List.length_append,
            List.length_singleton]
          omega
      | «open» f =>
          rw [Proc.act, hp] at h
          cases h
          simp only [Proc.work, hp, List.map_cons, List.sum_cons, actWork]
          omega
      | close f =>
          rw [Proc.act, hp] at h
          cases h
          simp only [Proc.work, hp, List.map_cons, List.sum_cons, actWork]
          omega

/-- A handler of standard output starts one read at most. -/
theorem length_reads_onStdoutData (key : Text) (live : Option SocketId) (data : Text) :
    ((onStdoutData live data).acts.flatMap (Effect.reads key)).length ≤ 1 := by
  obtain hnone | ⟨c, _, hone⟩ := reads_onStdoutData key live data
  · simp [hnone]
  · simp [hone]

theorem work_handle (σ : State) (key : Text) (h : Handler) :
    (σ.handle key h).1.work = σ.work + 2 * (h.acts.flatMap (Effect.reads key)).length := by
  rw [handle_eq]
  simp only [State.work, List.length_append]
  omega

/-- The work of the others stays when an analyser is replaced. -/
theorem work_set {σ : State} {i : Nat} {p : Proc} (q : Proc) (hp : σ.procs[i]? = some p) :
    State.work { σ with procs := σ.procs.set i q } + p.work = σ.work + q.work := by
  have hsum := sum_map_set Proc.work q hp
  simp only [State.work]
  omega

/-- What a step takes from the work and adds to it. -/
theorem work_of_move {σ : State} {i : Input} {r : State × List Obs} (h : Move H σ i r) :
    r.1.work + i.cost ≤ σ.work + i.gain H := by
  cases h with
  | newSession _ => exact Nat.le_refl _
  | refused _ => exact Nat.le_refl _
  | disconnect _ => exact Nat.le_refl _
  | connection _ _ _ =>
      simp only [State.work, State.connection, Input.cost, Input.internal, Input.gain]
      split
      · simp only [List.length_append, List.length_singleton, Bool.false_eq_true, if_false]
        omega
      · simp
  | upload _ _ =>
      simp only [State.work, List.map_append, List.sum_append, List.map_cons, List.sum_cons,
        List.map_nil, List.sum_nil, Input.cost, Input.internal, Input.gain, Bool.false_eq_true,
        if_false]
      omega
  | formError _ _ =>
      rw [work_handle]
      exact Nat.le_refl _
  | @py i k p p' files hp hact =>
      have hless := work_act hact
      have hset : State.work { σ with procs := σ.procs.set i p',
                                      files := Function.update σ.files p.session.text files } +
          p.work = σ.work + p'.work := work_set p' hp
      simp only [Input.cost, Input.internal, Input.gain, if_true]
      omega
  | @stdout i k p hp _ hpipe =>
      have hset := work_set { p with pipe := p.pipe.drop (k + 1) } hp
      have hreads := length_reads_onStdoutData p.session.text (σ.live p.session.text)
        (p.pipe.take (k + 1))
      have hpos := List.length_pos_iff.mpr hpipe
      rw [work_handle]
      simp only [Proc.work, List.length_drop] at hset
      simp only [Input.cost, Input.internal, Input.gain, if_true]
      omega
  | @stderr i p hp _ herr =>
      have hset := work_set { p with err := p.err.drop 1 } hp
      have hpos := List.length_pos_iff.mpr herr
      have hreads : (onStderrData traceback).acts.flatMap (Effect.reads p.session.text) = [] := rfl
      rw [work_handle, hreads]
      simp only [Proc.work, List.length_drop] at hset
      simp only [List.length_nil, Input.cost, Input.internal, Input.gain, if_true]
      omega
  | @close i p hp _ _ hopen =>
      have hset := work_set { p with closed := true } hp
      rw [work_handle, reads_onClose]
      simp only [Proc.work, hopen, if_true, Bool.false_eq_true, if_false] at hset
      simp only [List.length_singleton, Input.cost, Input.internal, Input.gain, if_true]
      omega
  | land hr _ =>
      have hlen := length_eraseIdx_add_one hr
      simp only [State.work, List.length_append, List.length_singleton, Input.cost, Input.internal,
        Input.gain, if_true]
      omega
  | callback hr _ =>
      have hlen := length_eraseIdx_add_one hr
      rw [work_handle, reads_onRead]
      simp only [State.work, List.length_nil, Input.cost, Input.internal, Input.gain, if_true]
      omega

theorem gain_of_internal {i : Input} (h : i.internal = true) : i.gain H = 0 := by
  cases i <;> first | rfl | cases h

theorem sum_cost (is : List Input) : (is.map Input.cost).sum = is.countP Input.internal := by
  induction is with
  | nil => rfl
  | cons i is ih =>
      rw [List.map_cons, List.sum_cons, ih, List.countP_cons, Nat.add_comm]
      rfl

/-- In every run, the steps that the server and its analysers take by themselves are
at most what came from outside gives them to do: two for each connection, and the
work of its analyser for each upload. -/
theorem internal_steps_le {is : List Input} {r : State × List Obs}
    (h : (machine H).exec System.anyInput State.initial is = some r) :
    r.1.work + is.countP Input.internal ≤ (is.map (Input.gain H)).sum := by
  have hrun := System.exec_cost_le State.work Input.cost (Input.gain H)
    (fun hstep => work_of_move (move_of_step hstep)) h
  have hinit : State.initial.work = 0 := rfl
  rw [sum_cost, hinit, Nat.zero_add] at hrun
  exact hrun

/-- The bound for one upload with one tab, of whose steps four are of the analyser
and its output. -/
theorem internal_steps_le_one_tab :
    ∃ r, (machine .insertion).exec System.anyInput State.initial (uploadInputs oneTab) = some r ∧
      r.1.work + 4 ≤ ((uploadInputs oneTab).map (Input.gain .insertion)).sum := by
  obtain ⟨r, hr⟩ : ∃ r, (machine .insertion).exec System.anyInput State.initial
      (uploadInputs oneTab) = some r := Option.isSome_iff_exists.mp (by decide +kernel)
  have hcount : (uploadInputs oneTab).countP Input.internal = 4 := by decide
  exact ⟨r, hr, hcount ▸ internal_steps_le hr⟩

/-! ## Nothing is left undone -/

section

variable (H) (ok : State → Input → Prop)

/-- No step that the server or an analyser takes by itself is allowed and possible. -/
def Stuck (σ : State) : Prop := ∀ i, i.internal = true → ok σ i → step H σ i = none

/-- The internal steps of which there is one whenever something is under way: single
characters are written and delivered, and the first of the reads goes on. -/
def Input.least : Input → Bool
  | .py _ 0 | .stdout _ 0 | .stderr _ | .close _ | .land 0 | .callback 0 => true
  | _ => false

/-- Every analyser has ended and was reported as closed, its output was delivered,
and no read is under way. -/
structure Idle (σ : State) : Prop where
  procs : ∀ p ∈ σ.procs, p.closed = true ∧ p.todo = [] ∧ p.pipe = [] ∧ p.err = []
  started : σ.started = []
  landed : σ.landed = []

theorem Proc.exists_act {p : Proc} (h : p.todo ≠ []) (alive : Bool) (k : Nat)
    (files : OutFile → Option Text) : ∃ r, p.act alive k files = some r := by
  cases hp : p.todo with
  | nil => exact absurd hp h
  | cons a rest =>
      rw [Proc.act, hp]
      cases a with
      | flush => exact ⟨_, (apply_ite some _ _ _).symm⟩
      | _ => exact ⟨_, rfl⟩

variable {H ok}

theorem internal_of_least {i : Input} (h : i.least = true) : i.internal = true := by
  cases i <;> first | rfl | cases h

/-- A server that runs does not stop before all is done. -/
theorem idle_of_stuck {σ : State} (hstuck : Stuck H ok σ) (ha : σ.alive = true)
    (hok : ∀ i, i.least = true → ok σ i) : Idle σ := by
  have hno : ∀ {i : Input} {r : State × List Obs}, i.least = true → Move H σ i r → False := by
    intro i r hleast hmove
    have hne : ∀ id, i ≠ .handshake id none := by
      rintro id rfl
      cases hleast
    have hnone := hstuck i (internal_of_least hleast) (hok i hleast)
    rw [step_of_move hmove hne] at hnone
    cases hnone
  constructor
  · intro p hp
    obtain ⟨i, hi⟩ := List.mem_iff_getElem?.mp hp
    have htodo : p.todo = [] := by
      by_contra hne
      obtain ⟨q, hq⟩ := Proc.exists_act hne σ.alive 0 (σ.files p.session.text)
      exact hno (i := .py i 0) rfl (.py hi hq)
    have hpipe : p.pipe = [] := by
      by_contra hne
      exact hno (i := .stdout i 0) rfl (.stdout hi ha hne)
    have herr : p.err = [] := by
      by_contra hne
      exact hno (i := .stderr i) rfl (.stderr hi ha hne)
    refine ⟨?_, htodo, hpipe, herr⟩
    cases hclosed : p.closed with
    | true => rfl
    | false =>
        have hdrained : p.drained = true := by simp [Proc.drained, htodo, hpipe, herr]
        exact (hno (i := .close i) rfl (.close hi ha hdrained hclosed)).elim
  · cases hs : σ.started with
    | nil => rfl
    | cons x xs =>
        have hx : σ.started[0]? = some x := by rw [hs]; rfl
        exact (hno (i := .land 0) rfl (.land hx ha)).elim
  · cases hs : σ.landed with
    | nil => rfl
    | cons x xs =>
        have hx : σ.landed[0]? = some (x.1, x.2) := by rw [hs]; rfl
        exact (hno (i := .callback 0) rfl (.callback hx ha)).elim

theorem work_lt_of_internal {σ : State} {i : Input} {r : State × List Obs} (hi : i.internal = true)
    (h : step H σ i = some r) : r.1.work < σ.work := by
  have hwork := work_of_move (move_of_step h)
  rw [gain_of_internal hi, Input.cost, if_pos hi] at hwork
  omega

/-- Left alone, every state comes to a stop. -/
theorem exists_stuck [∀ σ i, Decidable (ok σ i)] (n : Nat) : ∀ {σ : State}, σ.work = n →
    ∃ is r, (∀ i ∈ is, i.internal = true) ∧ (machine H).exec ok σ is = some r ∧
      Stuck H ok r.1 := by
  induction n using Nat.strongRecOn with
  | ind n ih =>
      intro σ hn
      by_cases hstuck : Stuck H ok σ
      · exact ⟨[], (σ, []), by simp, rfl, hstuck⟩
      · simp only [Stuck, not_forall] at hstuck
        obtain ⟨i, hi, hallowed, hsome⟩ := hstuck
        obtain ⟨q, hq⟩ := Option.ne_none_iff_exists'.mp hsome
        obtain ⟨is, r, his, hrun, hr⟩ := ih q.1.work (hn ▸ work_lt_of_internal hi hq) rfl
        refine ⟨i :: is, (r.1, q.2 ++ r.2), by simpa [hi] using his, ?_, hr⟩
        rw [System.exec, if_pos hallowed]
        show (step H σ i).bind _ = _
        rw [hq, Option.bind_some, hrun]
        rfl

theorem inOrder_of_least {σ : State} {i : Input} (h : i.least = true) : InOrder σ i := by
  cases i with
  | callback j =>
      cases j with
      | zero => exact fun _ _ _ y hy => by simp at hy
      | succ j => cases h
  | _ => trivial

end

/-- Internal steps are paid for by the work that is done. -/
theorem length_le_work {ok : State → Input → Prop} [∀ σ i, Decidable (ok σ i)] {σ : State}
    {is : List Input} {r : State × List Obs} (his : ∀ i ∈ is, i.internal = true)
    (h : (machine H).exec ok σ is = some r) : is.length ≤ σ.work := by
  have hpaid := System.exec_cost_le State.work Input.cost (Input.gain H)
    (fun hstep => work_of_move (move_of_step hstep)) h
  have hgain : (is.map (Input.gain H)).sum = 0 := by
    refine List.sum_eq_zero fun n hn => ?_
    obtain ⟨i, hi, rfl⟩ := List.mem_map.mp hn
    exact gain_of_internal (his i hi)
  rw [sum_cost, List.countP_eq_length.mpr his] at hpaid
  omega

/-- What comes to a stop while the server is alive is done, and the data of every session
is that of its file. -/
theorem stored_of_stuck {σ : State} (h : (machine H).Reach InOrder σ)
    (hstuck : Stuck H InOrder σ) (ha : σ.alive = true) :
    Idle σ ∧ ∀ s : SessionID, ∀ t, σ.files s.text .messages = some t →
      ∃ v, Json.parse t = some v ∧ σ.userData s.text = some v := by
  have hidle := idle_of_stuck hstuck ha fun _ => inOrder_of_least
  refine ⟨hidle, fun s t ht => (synced_of_reach h ha s).stored ?_ ht⟩
  exact ⟨ha, fun p hp _ => (hidle.procs p hp).1, by simp [hidle.started], by simp [hidle.landed]⟩

theorem isUpload_of_internal {i : Input} (h : i.internal = true) : i.isUpload = false := by
  cases i <;> first | rfl | cases h

/-- From every state of a run of a site whose uploads are not disturbed and in which the
callbacks of `messages.json` come in order: left alone, the server and its analysers come
to a stop, in no order of their steps later than after `work` of them.  Where they stop,
the server has ended, or all that was under way is done and the data of every session is
what its file holds. -/
theorem comes_to_rest {E : Host} {σ : Site} (h : (site E).Reach (Undisturbed E InOrder) σ) :
    (∃ (is : List Input) (r : Site × List Obs), (∀ i ∈ is, i.internal = true) ∧
        (site E).exec (Undisturbed E InOrder) σ (is.map .core) = some r ∧
        Stuck E.order InOrder r.1.core) ∧
      ∀ (is : List Input) (r : Site × List Obs), (∀ i ∈ is, i.internal = true) →
        (site E).exec (Undisturbed E InOrder) σ (is.map .core) = some r →
        is.length ≤ σ.core.work ∧
          (Stuck E.order InOrder r.1.core → r.1.core.alive = true →
            Idle r.1.core ∧ ∀ s : SessionID, ∀ t, r.1.core.files s.text .messages = some t →
              ∃ v, Json.parse t = some v ∧ r.1.core.userData s.text = some v) := by
  obtain ⟨hcore, hplace⟩ := core_of_reach h
  refine ⟨?_, fun is r his hrun => ?_⟩
  · have hstop : ∃ is r, (∀ i ∈ is, i.internal = true) ∧
        (machine E.order).exec InOrder σ.core is = some r ∧ Stuck E.order InOrder r.1 :=
      exists_stuck σ.core.work rfl
    obtain ⟨is, q, his, hrun, hstuck⟩ := hstop
    obtain ⟨σ', hexec, hend, _⟩ :=
      site_exec_of_exec hplace (fun i hi => isUpload_of_internal (his i hi)) hrun
    exact ⟨is, _, his, hexec, hend ▸ hstuck⟩
  · have hexec := exec_of_site_exec hplace hrun
    refine ⟨length_le_work his hexec, stored_of_stuck ?_⟩
    exact (core_of_reach (System.reach_of_exec h hrun)).1

/-- A session with a tab has sent a form, and its analyser has written a percentage. -/
def oneTabInputs : List SiteInput :=
  [.core (.newSession .least), .core (.handshake 1 (some (.valid firstSession)))] ++
    pageForm 0 firstSession samplePage ++
    List.map .core [.py 0 0, .py 0 0, .py 0 0, .stdout 0 3]

/-- It comes to a stop from there on. -/
theorem comes_to_rest_one_tab :
    ∃ σ : Site, (site sampleHost).Reach (Undisturbed sampleHost InOrder) σ ∧ σ.core.procs ≠ [] ∧
      ∃ (is : List Input) (r : Site × List Obs), (∀ i ∈ is, i.internal = true) ∧
        (site sampleHost).exec (Undisturbed sampleHost InOrder) σ (is.map .core) = some r ∧
        Stuck .insertion InOrder r.1.core := by
  generalize hσ : (site sampleHost).after (Undisturbed sampleHost InOrder) oneTabInputs = σ
  have hreach : (site sampleHost).Reach (Undisturbed sampleHost InOrder) σ :=
    hσ ▸ System.reach_after _
  have hprocs : σ.core.procs.isEmpty = false := by
    rw [← hσ]
    decide +kernel
  exact ⟨σ, hreach, by simpa using hprocs, (comes_to_rest hreach).1⟩

end Server
