import FbTesting.Server.Delivery

/-!
# The stored data and the file

`userData` of a session is assigned in the callbacks of two kinds of reads of
`messages.json`: those that a connection starts and those that the end of an
analyser starts.  Each assigns what the file held when it was read.

When the callbacks of these reads run in the order in which the reads took their
content (`InOrder`), the data agrees with the file as soon as nothing is under
way.  The reason is `Synced`: as long as no read is still to take its content and
no analyser of the session is open, the last content taken is that of the file,
for the end of every analyser starts a read after its last write.

Nothing in the program keeps the order.  A read that a connection has started
may be overtaken by that of an analyser and put old data in the place of new.
-/

namespace Server

open Base Node Analyser

/-! ## Reads of the store -/

/-- The read is for the data of the session. -/
def Read.Stores (r : Read) (s : SessionID) : Prop := r.key = s.text ∧ r.file = .messages

instance (r : Read) (s : SessionID) : Decidable (r.Stores s) := inferInstanceAs (Decidable (_ ∧ _))

/-- The reads for the data of the session that have taken their content. -/
def State.storeReads (σ : State) (s : SessionID) : List (Read × Option Text) :=
  σ.landed.filter fun x => x.1.Stores s

/-- Nothing that concerns the data of the session is under way. -/
structure Quiescent (σ : State) (s : SessionID) : Prop where
  alive : σ.alive = true
  procs : ∀ p ∈ σ.procs, p.session = s → p.closed = true
  started : ∀ r ∈ σ.started, ¬r.Stores s
  landed : ∀ x ∈ σ.landed, ¬x.1.Stores s

instance (σ : State) (s : SessionID) : Decidable (Quiescent σ s) :=
  decidable_of_iff
    (σ.alive = true ∧ (∀ p ∈ σ.procs, p.session = s → p.closed = true) ∧
      (∀ r ∈ σ.started, ¬r.Stores s) ∧ ∀ x ∈ σ.landed, ¬x.1.Stores s)
    ⟨fun h => ⟨h.1, h.2.1, h.2.2.1, h.2.2.2⟩, fun h => ⟨h.1, h.2, h.3, h.4⟩⟩

/-- A callback of a read of `messages.json` is the first of its session, in the
order in which the reads took their content. -/
def InOrder (σ : State) : Input → Prop
  | .callback j => ∀ x ∈ σ.landed[j]?, x.1.file = .messages →
      ∀ y ∈ σ.landed.take j, y.1.file = .messages → y.1.key ≠ x.1.key
  | _ => True

instance (σ : State) (i : Input) : Decidable (InOrder σ i) :=
  match i with
  | .callback j => inferInstanceAs (Decidable (∀ x ∈ σ.landed[j]?, _))
  | .newSession _ | .handshake _ _ | .disconnect _ | .upload _ _ | .formError _ _ | .py _ _
  | .stdout _ _ | .stderr _ | .close _ | .land _ => isTrue trivial

/-! ## The invariant -/

/-- The data of the session holds what the file holds. -/
def State.Stored (σ : State) (s : SessionID) : Prop :=
  ∀ t, σ.files s.text .messages = some t →
    ∃ v, Json.parse t = some v ∧ σ.userData s.text = some v

/-- What was read last, or the data if nothing was, is up to date. -/
def State.UpToDate (σ : State) (s : SessionID) : Prop :=
  match (σ.storeReads s).getLast? with
  | some x => x.2 = σ.files s.text .messages
  | none => σ.Stored s

/-- A read is still to come, or an analyser is open, or the session is up to
date. -/
def Synced (σ : State) (s : SessionID) : Prop :=
  (∃ r ∈ σ.started, r.Stores s) ∨ (∃ p ∈ σ.procs, p.session = s ∧ p.closed = false) ∨
    σ.UpToDate s

/-- An analyser that was reported as closed has nothing left to do. -/
def ClosedDone (σ : State) : Prop := ∀ p ∈ σ.procs, p.closed = true → p.todo = []

/-! ## Steps that keep it -/

/-- What is under way stays so, and the rest of what matters stays as it is. -/
theorem Synced.mono {σ τ : State} {s : SessionID} (h : Synced σ s)
    (hstarted : ∀ r ∈ σ.started, r ∈ τ.started)
    (hprocs : (∃ p ∈ σ.procs, p.session = s ∧ p.closed = false) →
      ∃ p ∈ τ.procs, p.session = s ∧ p.closed = false)
    (hlanded : τ.storeReads s = σ.storeReads s)
    (hfile : τ.files s.text .messages = σ.files s.text .messages)
    (hdata : τ.userData s.text = σ.userData s.text) : Synced τ s := by
  cases h with
  | inl hread =>
      obtain ⟨r, hr, hs⟩ := hread
      exact Or.inl ⟨r, hstarted r hr, hs⟩
  | inr hrest =>
      cases hrest with
      | inl hopen => exact Or.inr (Or.inl (hprocs hopen))
      | inr hup =>
          refine Or.inr (Or.inr ?_)
          unfold State.UpToDate State.Stored at hup ⊢
          rw [hlanded, hfile, hdata]
          exact hup

/-- A handler without an assignment leaves the data. -/
theorem foldl_stores_eq {key : Text} {as : List Effect} (h : ∀ v, .store v ∉ as) :
    ∀ ud : Text → Option Json, as.foldl (Effect.stores key) ud = ud := by
  induction as with
  | nil => intro ud; rfl
  | cons a as ih =>
      intro ud
      have hrest : ∀ v, .store v ∉ as := fun v hv => h v (List.mem_cons_of_mem a hv)
      rw [List.foldl_cons]
      cases a with
      | store v => exact absurd List.mem_cons_self (h v)
      | emit _ _ _ => exact ih hrest ud
      | console _ => exact ih hrest ud
      | readChart _ => exact ih hrest ud
      | readStore => exact ih hrest ud

theorem not_store_onStdoutData {live : Option SocketId} {data : Text} {v : Json} :
    .store v ∉ (onStdoutData live data).acts := by
  intro h
  cases Traced.mem_acts_bind h with
  | inl hsend =>
      unfold sendProgress at hsend
      split at hsend
      · cases Traced.mem_acts_bind hsend with
        | inl hemit =>
            cases live with
            | none => cases hemit
            | some id => cases List.mem_singleton.mp hemit
        | inr hcons =>
            obtain ⟨_, _, hmem⟩ := hcons
            cases List.mem_singleton.mp hmem
      · cases hsend
  | inr hlook =>
      obtain ⟨_, _, hmem⟩ := hlook
      unfold lookUpChart at hmem
      split at hmem
      · cases List.mem_singleton.mp hmem
      · split at hmem
        · cases List.mem_singleton.mp hmem
        · cases hmem

theorem not_store_onClose {code : Nat} {v : Json} : .store v ∉ (onClose code).acts := by
  intro h
  obtain ⟨t, ht⟩ | hread := mem_onClose h
  · cases ht
  · cases hread

/-! ## Lists of reads -/

section

variable {α : Type} {l : List α} {j : Nat} {x : α} {P : α → Bool}

theorem take_append_getElem? (hx : l[j]? = some x) : l.take j ++ x :: l.drop (j + 1) = l := by
  obtain ⟨hj, rfl⟩ := List.getElem?_eq_some_iff.mp hx
  rw [List.getElem_cons_drop hj, List.take_append_drop]

/-- Erasing what a filter drops does not change what it keeps. -/
theorem filter_eraseIdx_of_neg (hx : l[j]? = some x) (hP : P x = false) :
    (l.eraseIdx j).filter P = l.filter P := by
  conv_rhs => rw [← take_append_getElem? hx]
  rw [List.eraseIdx_eq_take_drop_succ, List.filter_append, List.filter_append,
    List.filter_cons_of_neg (by rw [hP]; exact Bool.false_ne_true)]

/-- Erasing the first element that a filter keeps. -/
theorem filter_eraseIdx_of_first (hx : l[j]? = some x) (hP : P x = true)
    (hfirst : ∀ y ∈ l.take j, P y = false) : l.filter P = x :: (l.eraseIdx j).filter P := by
  have hnil : (l.take j).filter P = [] :=
    List.filter_eq_nil_iff.mpr fun y hy => by rw [hfirst y hy]; exact Bool.false_ne_true
  conv_lhs => rw [← take_append_getElem? hx]
  rw [List.eraseIdx_eq_take_drop_succ, List.filter_append, List.filter_append, hnil,
    List.filter_cons_of_pos hP]
  rfl

end

/-! ## Analysers that are closed -/

variable {H : HashOrder}

/-- Replacing an analyser keeps the fact, if the replacement has it. -/
theorem ClosedDone.set {σ : State} (h : ClosedDone σ) {i : Nat} {p : Proc}
    (hp : p.closed = true → p.todo = []) : ∀ q ∈ σ.procs.set i p, q.closed = true → q.todo = [] := by
  intro q hq
  cases mem_set_cases hq with
  | inl heq =>
      rw [heq]
      exact hp
  | inr hmem => exact h q hmem

theorem closedDone_of_reach {ok : State → Input → Prop} {σ : State}
    (h : (machine H).Reach ok σ) : ClosedDone σ := by
  refine System.Reach.invariant ClosedDone (fun p hp => absurd hp List.not_mem_nil) ?_ h
  intro σ i r hσ _ hstep
  cases move_of_step hstep with
  | newSession _ => exact hσ
  | refused _ => exact hσ
  | connection _ _ _ => exact hσ
  | disconnect _ => exact hσ
  | land _ _ => exact hσ
  | upload _ _ =>
      intro q hq hclosed
      cases List.mem_append.mp hq with
      | inl hold => exact hσ q hold hclosed
      | inr hnew =>
          rw [List.mem_singleton.mp hnew] at hclosed
          cases hclosed
  | py hp hact =>
      refine hσ.set fun hclosed => ?_
      rw [Proc.act_closed hact] at hclosed
      exact absurd (hσ _ (List.mem_of_getElem? hp) hclosed) (Proc.act_todo_ne_nil hact)
  | formError _ _ =>
      rw [handle_eq]
      exact hσ
  | callback _ _ =>
      rw [handle_eq]
      exact hσ
  | stdout hp _ _ =>
      have hdone := hσ _ (List.mem_of_getElem? hp)
      rw [handle_eq]
      exact hσ.set hdone
  | stderr hp _ _ =>
      have hdone := hσ _ (List.mem_of_getElem? hp)
      rw [handle_eq]
      exact hσ.set hdone
  | close hp _ hdrained _ =>
      rw [handle_eq]
      refine hσ.set fun _ => ?_
      simp only [Proc.drained, Bool.and_eq_true, List.isEmpty_iff] at hdrained
      exact hdrained.1.1

/-! ## The invariant along a run -/

theorem stores_ne {r : Read} {s : SessionID} (h : r.Stores s) :
    r.kind = .close ∨ r.kind = .connect := by
  obtain ⟨key, kind⟩ := r
  cases kind with
  | close => exact Or.inl rfl
  | connect => exact Or.inr rfl
  | chart c =>
      have hfile := h.2
      cases c <;> cases hfile

/-- The callback of a read for the data of a session: if the server goes on, the
data is what was read, where something was. -/
theorem onRead_stores {r : Read} {s : SessionID} (h : r.Stores s) {live : Option SocketId}
    {content : Option Text} (hok : (onRead r live content).result.isOk = true) {t : Text}
    (ht : content = some t) (ud : Text → Option Json) :
    ∃ v, Json.parse t = some v ∧
      (onRead r live content).acts.foldl (Effect.stores r.key) ud s.text = some v := by
  have hread : onRead r live content = storeParsed t := by
    obtain ⟨key, kind⟩ := r
    subst ht
    cases stores_ne h with
    | inl hclose => rw [show kind = .close from hclose, onRead_close]
    | inr hconn => rw [show kind = .connect from hconn, onRead_connect]
  rw [hread, storeParsed_eq] at hok ⊢
  cases hv : Json.parse t with
  | none =>
      rw [hv] at hok
      cases hok
  | some v =>
      refine ⟨v, rfl, ?_⟩
      rw [h.1]
      exact Function.update_self _ _ _

/-- The callback of a read for something else leaves the data of the session. -/
theorem onRead_keeps {r : Read} {s : SessionID} (h : ¬r.Stores s) (live : Option SocketId)
    (content : Option Text) (ud : Text → Option Json) :
    (onRead r live content).acts.foldl (Effect.stores r.key) ud s.text = ud s.text := by
  by_cases hkey : s.text = r.key
  · obtain ⟨key, kind⟩ := r
    cases kind with
    | close => exact absurd ⟨hkey.symm, rfl⟩ h
    | connect => exact absurd ⟨hkey.symm, rfl⟩ h
    | chart c =>
        have hprint : ∀ v, .store v ∉ (printError (readResult content)).acts := by
          intro v hv
          obtain ⟨t, ht⟩ := console_of_mem_printError hv
          cases ht
        rw [onRead_chart, foldl_stores_eq]
        intro v hv
        split at hv
        · exact hprint v hv
        · exact hprint v hv
        · cases List.mem_append.mp hv with
          | inl hmem => exact hprint v hmem
          | inr hmem =>
              cases hmem with
              | tail _ hlog => cases List.mem_singleton.mp hlog
  · exact foldl_stores_of_ne hkey _ ud

/-- The act of an analyser concerns its own session, which has it open. -/
theorem synced_py {σ : State} (hdone : ClosedDone σ) {i k : Nat} {p p' : Proc}
    {files : OutFile → Option Text} (hp : σ.procs[i]? = some p)
    (hact : p.act σ.alive k (σ.files p.session.text) = some (p', files)) {s : SessionID}
    (h : Synced σ s) :
    Synced { σ with procs := σ.procs.set i p',
                    files := Function.update σ.files p.session.text files } s := by
  have hsession := (Proc.act_session hact).1
  have hclosed := Proc.act_closed hact
  by_cases hs : p.session = s
  · have hopen : p.closed = false := by
      cases hc : p.closed with
      | false => rfl
      | true =>
          exact absurd (hdone p (List.mem_of_getElem? hp) hc) (Proc.act_todo_ne_nil hact)
    have hold : ∃ q ∈ σ.procs, q.session = s ∧ q.closed = false :=
      ⟨p, List.mem_of_getElem? hp, hs, hopen⟩
    refine Or.inr (Or.inl (exists_mem_set hp ?_ hold))
    intro hq
    rw [hsession, hclosed]
    exact hq
  · have hkey : s.text ≠ p.session.text := fun heq => hs (SessionID.ext heq).symm
    refine h.mono (fun r hr => hr) (exists_mem_set hp ?_) rfl ?_ rfl
    · intro hq
      rw [hsession, hclosed]
      exact hq
    · show Function.update σ.files p.session.text files s.text .messages = _
      rw [Function.update_of_ne hkey]

/-- A read that takes its content. -/
theorem synced_land {σ : State} {j : Nat} {r : Read} (hr : σ.started[j]? = some r) {s : SessionID}
    (h : Synced σ s) :
    Synced { σ with started := σ.started.eraseIdx j,
                    landed := σ.landed ++ [(r, σ.files r.key r.file)] } s := by
  by_cases hs : r.Stores s
  · refine Or.inr (Or.inr ?_)
    have hlast : (σ.landed ++ [(r, σ.files r.key r.file)]).filter (fun x => decide (x.1.Stores s)) =
        σ.storeReads s ++ [(r, σ.files r.key r.file)] := by
      rw [List.filter_append, List.filter_cons_of_pos (by simpa using hs)]
      rfl
    unfold State.UpToDate State.storeReads
    rw [hlast, List.getLast?_concat, hs.1, hs.2]
  · have hsame : (σ.landed ++ [(r, σ.files r.key r.file)]).filter
        (fun x => decide (x.1.Stores s)) = σ.storeReads s := by
      rw [List.filter_append, List.filter_cons_of_neg (by simpa using hs)]
      exact List.append_nil _
    cases h with
    | inl hread =>
        obtain ⟨x, hx, hxs⟩ := hread
        refine Or.inl ⟨x, ?_, hxs⟩
        have hne : x ≠ r := fun heq => hs (heq ▸ hxs)
        have hmem : x ∈ σ.started.take j ++ r :: σ.started.drop (j + 1) := by
          rwa [take_append_getElem? hr]
        show x ∈ σ.started.eraseIdx j
        rw [List.eraseIdx_eq_take_drop_succ, List.mem_append]
        cases List.mem_append.mp hmem with
        | inl hbefore => exact Or.inl hbefore
        | inr hafter =>
            cases List.mem_cons.mp hafter with
            | inl heq => exact absurd heq hne
            | inr hdrop => exact Or.inr hdrop
    | inr hrest =>
        cases hrest with
        | inl hopen => exact Or.inr (Or.inl hopen)
        | inr hup =>
            refine Or.inr (Or.inr ?_)
            unfold State.UpToDate State.storeReads State.Stored at hup ⊢
            rw [hsame]
            exact hup

/-- In order, a callback for the session is the first of the reads that count. -/
theorem storeReads_of_inOrder {σ : State} {j : Nat} {r : Read} {content : Option Text}
    (hr : σ.landed[j]? = some (r, content)) (hord : InOrder σ (.callback j)) {s : SessionID}
    (hs : r.Stores s) :
    σ.storeReads s =
      (r, content) :: (σ.landed.eraseIdx j).filter fun x => decide (x.1.Stores s) := by
  refine filter_eraseIdx_of_first hr (decide_eq_true hs) fun y hy => decide_eq_false ?_
  intro hys
  exact hord (r, content) hr hs.2 y hy hys.2 (hys.1.trans hs.1.symm)

/-- The callback of a read, in order, if the server goes on. -/
theorem synced_callback {σ : State} {j : Nat} {r : Read} {content : Option Text}
    (hr : σ.landed[j]? = some (r, content)) (hord : InOrder σ (.callback j))
    (hok : (onRead r (σ.live r.key) content).result.isOk = true) {s : SessionID}
    (h : Synced σ s) :
    Synced (State.handle { σ with landed := σ.landed.eraseIdx j } r.key
      (onRead r (σ.live r.key) content)).1 s := by
  rw [handle_eq, reads_onRead]
  by_cases hs : r.Stores s
  · have hreads := storeReads_of_inOrder hr hord hs
    cases h with
    | inl hread =>
        refine Or.inl ?_
        show ∃ x ∈ σ.started ++ [], x.Stores s
        rwa [List.append_nil]
    | inr hrest =>
        cases hrest with
        | inl hopen => exact Or.inr (Or.inl hopen)
        | inr hup =>
            refine Or.inr (Or.inr ?_)
            unfold State.UpToDate at hup ⊢
            rw [hreads] at hup
            rw [State.storeReads]
            cases hlast : (σ.landed.eraseIdx j).filter fun x => decide (x.1.Stores s) with
            | nil =>
                rw [hlast] at hup
                intro t ht
                exact onRead_stores hs hok (Eq.trans hup ht) σ.userData
            | cons y ys =>
                rw [hlast, List.getLast?_cons_cons] at hup
                exact hup
  · refine h.mono ?_ (fun hopen => hopen) ?_ rfl (onRead_keeps hs _ _ _)
    · intro x hx
      show x ∈ σ.started ++ []
      rwa [List.append_nil]
    · exact filter_eraseIdx_of_neg hr (decide_eq_false hs)

/-- As long as the server runs and callbacks come in order, every session is
synced. -/
theorem synced_of_reach {σ : State} (h : (machine H).Reach InOrder σ) :
    σ.alive = true → ∀ s, Synced σ s := by
  refine System.Reach.invariant_of ClosedDone (fun σ => σ.alive = true → ∀ s, Synced σ s)
    closedDone_of_reach ?_ ?_ h
  · intro _ s
    exact Or.inr (Or.inr fun t ht => by cases ht)
  intro σ i r hdone hσ hord hstep
  cases move_of_step hstep with
  | newSession ha => exact fun _ s => (hσ ha s).mono (fun _ hr => hr) id rfl rfl rfl
  | refused ha => exact fun _ s => hσ ha s
  | disconnect ha => exact fun _ s => (hσ ha s).mono (fun _ hr => hr) id rfl rfl rfl
  | connection ha _ _ =>
      intro _ s
      refine (hσ ha s).mono (fun x hx => ?_) id rfl rfl rfl
      simp only [State.connection]
      split
      · exact List.mem_append_left _ hx
      · exact hx
  | upload ha _ =>
      intro _ s
      refine (hσ ha s).mono (fun _ hr => hr) ?_ rfl rfl rfl
      intro hopen
      obtain ⟨p, hp, hq⟩ := hopen
      exact ⟨p, List.mem_append_left _ hp, hq⟩
  | py hp hact => exact fun ha s => synced_py hdone hp hact (hσ ha s)
  | land hr ha => exact fun _ s => synced_land hr (hσ ha s)
  | formError ha _ =>
      intro halive
      rw [handle_eq] at halive
      exact absurd halive (by simp [onFormError, Except.isOk, Except.toBool, Traced.lift])
  | stderr hp ha _ =>
      intro halive
      rw [handle_eq] at halive
      exact absurd halive (by simp [onStderrData, Except.isOk, Except.toBool, Traced.lift])
  | stdout hp ha _ =>
      intro _ s
      rw [handle_eq, foldl_stores_eq fun v => not_store_onStdoutData]
      refine (hσ ha s).mono (fun x hx => List.mem_append_left _ hx) ?_ rfl rfl rfl
      exact exists_mem_set hp fun hq => hq
  | @close i p hp ha hdrained hopen =>
      intro _ s
      rw [handle_eq, foldl_stores_eq fun v => not_store_onClose]
      by_cases hs : p.session = s
      · refine Or.inl ⟨⟨p.session.text, .close⟩, ?_, by rw [← hs]; exact ⟨rfl, rfl⟩⟩
        refine List.mem_append_right _ (List.mem_flatMap.mpr ⟨.readStore, ?_, List.mem_cons_self⟩)
        rw [onClose_eq]
        exact List.mem_append_right _ List.mem_cons_self
      · refine (hσ ha s).mono (fun x hx => List.mem_append_left _ hx) ?_ rfl rfl rfl
        exact exists_mem_set hp fun hq => absurd hq.1 hs
  | callback hr ha =>
      intro halive s
      refine synced_callback hr hord ?_ (hσ ha s)
      rw [handle_eq, Bool.and_eq_true] at halive
      exact halive.2

/-- When nothing is under way for a synced session, its data is that of its file. -/
theorem Synced.stored {σ : State} {s : SessionID} {t : Text} (h : Synced σ s)
    (hq : Quiescent σ s) (ht : σ.files s.text .messages = some t) :
    ∃ v, Json.parse t = some v ∧ σ.userData s.text = some v := by
  cases h with
  | inl hread =>
      obtain ⟨r, hr, hs⟩ := hread
      exact absurd hs (hq.started r hr)
  | inr hrest =>
      cases hrest with
      | inl hopen =>
          obtain ⟨p, hp, hs, hclosed⟩ := hopen
          rw [hq.procs p hp hs] at hclosed
          cases hclosed
      | inr hup =>
          have hnone : σ.storeReads s = [] :=
            List.filter_eq_nil_iff.mpr fun x hx => by simpa using hq.landed x hx
          rw [State.UpToDate, hnone] at hup
          exact hup t ht

/-- In every run in which the callbacks of the reads of `messages.json` run in the
order in which the reads took their content: when nothing is under way for a
session, its data is the parsed content of its file. -/
theorem stored_when_quiescent {σ : State} {s : SessionID} {t : Text}
    (h : (machine H).Reach InOrder σ) (hq : Quiescent σ s)
    (ht : σ.files s.text .messages = some t) :
    ∃ v, Json.parse t = some v ∧ σ.userData s.text = some v :=
  (synced_of_reach h hq.alive s).stored hq ht

/-! ## A run in order and one out of order -/

/-- Another upload. -/
def secondUpload : Upload :=
  ⟨some "messages.htm".toList, .ok (rawDocument [[sampleMessage "Friend2" "Hello"]])⟩

/-- The analyser of one of the two uploads runs to its end, and the end is
reported. -/
def wholeRun (i : Nat) : List Input :=
  List.replicate 25 (.py i 1000) ++ [.stdout i 1000, .close i]

/-- An upload, and the read after it. -/
def storedInputs : List Input :=
  [.newSession .least, .upload firstSession sampleUpload] ++ wholeRun 0 ++
    [.land 0, .callback 0]

/-- The session connects, and the read takes the content.  Before its callback
there is a second upload, whose read takes the new content and is called back. -/
def overtakingInputs : List Input :=
  [.handshake 1 (some (.valid firstSession)), .land 0, .upload firstSession secondUpload] ++
    wholeRun 1 ++ [.land 0, .callback 1]

/-- The state after the first upload. -/
def storedState : State := (machine .insertion).after InOrder storedInputs

/-- The state after the callback that was overtaken. -/
def staleState : State :=
  (machine .insertion).after System.anyInput (storedInputs ++ overtakingInputs ++ [.callback 0])

/-- After one upload the data is the content of the file. -/
theorem stored_after_one_upload :
    ∃ t v, storedState.files firstSession.text .messages = some t ∧ Json.parse t = some v ∧
      storedState.userData firstSession.text = some v := by
  have hstate : Quiescent storedState firstSession ∧
      (storedState.files firstSession.text .messages).isSome = true := by decide +kernel
  obtain ⟨hq, hsome⟩ := hstate
  obtain ⟨t, ht⟩ := Option.isSome_iff_exists.mp hsome
  have hreach : (machine .insertion).Reach InOrder storedState := System.reach_after _
  obtain ⟨v, hv⟩ := stored_when_quiescent hreach hq ht
  exact ⟨t, v, ht, hv⟩

/-- The read of a connection, overtaken by that of an analyser, leaves the data
of the first upload beside the file of the second. -/
theorem overtaken_read_leaves_stale_data :
    (machine .insertion).Reach System.anyInput staleState ∧ Quiescent staleState firstSession ∧
      ∃ t, staleState.files firstSession.text .messages = some t ∧
        ¬∃ v, Json.parse t = some v ∧ staleState.userData firstSession.text = some v := by
  have hstate : Quiescent staleState firstSession ∧
      (staleState.files firstSession.text .messages).isSome = true ∧
      (fileValue (staleState.files firstSession.text .messages)).map Json.dump ≠
        (staleState.userData firstSession.text).map Json.dump := by decide +kernel
  obtain ⟨hq, hsome, hdiffer⟩ := hstate
  obtain ⟨t, ht⟩ := Option.isSome_iff_exists.mp hsome
  refine ⟨System.reach_after _, hq, t, ht, ?_⟩
  intro hv
  obtain ⟨v, hparse, hdata⟩ := hv
  rw [ht, hdata, fileValue, Option.bind_some, hparse] at hdiffer
  exact hdiffer rfl

end Server
