import FbTesting.Base.Run
import FbTesting.Analyser.Extract

/-!
# Requests of the page

`showResult` and `getLinks` start a request each and keep it in one global
variable, `xmlhttp`.  The handler that a call installs on its request runs whenever
the request changes its state, but it looks at the request that is in the variable
by then, the newest of all.  If that one is complete, the handler takes its response:
the handler of `showResult` puts it into the live search, that of `getLinks` into
`messages`.  A call of `showResult` with the empty text clears the live search and
leaves the variable.  (`open` changes the state of the request it is called on as
well, and the handler then finds a request that is not complete.)

The state has the calls and the requests, newest first, so that `xmlhttp` is the
head of the requests.  The steps are calls and changes of state; responses have
status 200, and what is in them is up to the server.
-/

namespace Browser

open Base Analyser

/-! ## Calls and responses -/

/-- A call, with its argument. -/
inductive Call where
  | showResult (str : Text)
  | getLinks (button_text : Text)
deriving DecidableEq

/-- The argument. -/
def Call.text : Call → Text
  | .showResult str => str
  | .getLinks button_text => button_text

/-- Whether the call is one of `showResult`. -/
def Call.isSearch : Call → Bool
  | .showResult _ => true
  | .getLinks _ => false

/-- A response, parsed. -/
inductive Body where
  /-- `livesearch.js` answers with keys. -/
  | results (rs : List Text)
  /-- `links.js` answers with messages. -/
  | messages (ms : List Message)

/-- The response is one that the request of the call can get. -/
def Body.Answers : Body → Call → Prop
  | .results _, c => c.isSearch = true
  | .messages _, c => c.isSearch = false

instance (b : Body) (c : Call) : Decidable (b.Answers c) :=
  match b with
  | .results _ => inferInstanceAs (Decidable (_ = _))
  | .messages _ => inferInstanceAs (Decidable (_ = _))

/-- The texts that the handler of `showResult` puts on buttons.  A message is an
object and turned into a text as one. -/
def Body.buttons : Body → List Text
  | .results rs => rs
  | .messages ms => ms.map fun _ => "[object Object]".toList

/-! ## Requests -/

/-- `readyState`, from 1 to 4, with the response that comes with the last. -/
inductive ReadyState where
  | opened
  | headersReceived
  | loading
  | done (body : Body)

/-- The response, if it is complete. -/
def ReadyState.body : ReadyState → Option Body
  | .done body => some body
  | _ => none

/-- The state after the next change. -/
def ReadyState.next (body : Body) : ReadyState → Option ReadyState
  | .opened => some .headersReceived
  | .headersReceived => some .loading
  | .loading => some (.done body)
  | .done _ => none

/-- A request, with the number of the call that started it. -/
structure Request where
  number : Nat
  call : Call
  state : ReadyState
  /-- The response is to the call. -/
  answers : ∀ body ∈ state.body, body.Answers call

/-- The response, if the request is complete. -/
def Request.response (q : Request) : Option Body := q.state.body

/-- Before the last change there is no response. -/
theorem ReadyState.answers_opened (c : Call) : ∀ body ∈ ReadyState.opened.body, body.Answers c := by
  intro body hbody
  cases hbody

/-- A request that was just sent. -/
def Request.sent (number : Nat) (call : Call) : Request :=
  ⟨number, call, .opened, ReadyState.answers_opened call⟩

theorem ReadyState.body_next {st st' : ReadyState} {body : Body} (h : st.next body = some st') :
    st.body = none ∧ (st'.body = none ∨ st'.body = some body) := by
  cases st with
  | opened => cases h; exact ⟨rfl, Or.inl rfl⟩
  | headersReceived => cases h; exact ⟨rfl, Or.inl rfl⟩
  | loading => cases h; exact ⟨rfl, Or.inr rfl⟩
  | done b => cases h

/-- The response that comes with a change is the one that was given. -/
theorem ReadyState.answers_next {st st' : ReadyState} {body : Body} {c : Call}
    (hbody : body.Answers c) (h : st.next body = some st') : ∀ b ∈ st'.body, b.Answers c := by
  intro b hb
  cases (ReadyState.body_next h).2 with
  | inl hnone =>
      rw [hnone] at hb
      cases hb
  | inr hsome =>
      rw [hsome] at hb
      cases hb
      exact hbody

/-- The request after its next change. -/
def Request.advance (q : Request) (body : Body) (h : body.Answers q.call) : Option Request :=
  match hnext : q.state.next body with
  | none => none
  | some st => some ⟨q.number, q.call, st, ReadyState.answers_next h hnext⟩

/-- What a change makes of a request. -/
structure Advances (q q' : Request) : Prop where
  number : q'.number = q.number
  call : q'.call = q.call
  pending : q.response = none

theorem advances_of_advance {q q' : Request} {body : Body} {h : body.Answers q.call}
    (hq : q.advance body h = some q') : Advances q q' := by
  unfold Request.advance at hq
  split at hq
  · cases hq
  · rename_i st hnext
    cases hq
    exact ⟨rfl, rfl, (ReadyState.body_next hnext).1⟩

/-! ## The page -/

/-- What the live search shows: the call whose results they are, and the texts on
the buttons. -/
structure Rendering where
  number : Nat
  buttons : List Text
deriving DecidableEq

/-- The state of the page. -/
structure Page where
  /-- The calls so far, newest first. -/
  calls : List Call
  /-- The requests so far, newest first. -/
  requests : List Request
  /-- The live search, if it was not cleared. -/
  panel : Option Rendering
  /-- The global variable `messages`. -/
  messages : Option Body

/-- The page as it is loaded. -/
def Page.initial : Page := ⟨[], [], none, none⟩

/-- The global variable `xmlhttp`. -/
def Page.xmlhttp (s : Page) : Option Request := s.requests.head?

/-- The texts in the live search. -/
def Page.buttons (s : Page) : List Text := (s.panel.map Rendering.buttons).getD []

/-- The number of the call whose results are displayed. -/
def Page.shown (s : Page) : Option Nat := s.panel.map Rendering.number

/-- What a handler did: which call's response it took. -/
inductive Handled where
  /-- The handler of `showResult` put it into the live search. -/
  | rendered (response : Call)
  /-- The handler of `getLinks` put it into `messages`. -/
  | loaded (response : Call)

/-- A call: without a text it clears the live search, or does nothing. -/
def Page.call (s : Page) (c : Call) : Page :=
  if c.text = [] then
    { s with
      calls := c :: s.calls
      panel := if c.isSearch then none else s.panel }
  else
    { s with
      calls := c :: s.calls
      requests := .sent s.calls.length c :: s.requests }

/-- `onreadystatechange`, as the given call installed it. -/
def Page.fire (s : Page) (handler : Call) : Page × List Handled :=
  match s.xmlhttp with
  | none => (s, [])
  | some xmlhttp =>
      match xmlhttp.response with
      | none => (s, [])
      | some body =>
          match handler with
          | .showResult _ =>
              ({ s with panel := some ⟨xmlhttp.number, body.buttons⟩ }, [.rendered xmlhttp.call])
          | .getLinks _ => ({ s with messages := some body }, [.loaded xmlhttp.call])

/-- What can happen on the page. -/
inductive Event where
  | call (c : Call)
  /-- A request changes its state; the response is for the last change. -/
  | change (i : Nat) (body : Body)

/-- The page with another request at a place. -/
def Page.replace (s : Page) (i : Nat) (q : Request) : Page :=
  { s with requests := s.requests.set i q }

/-- The step of the page. -/
def Page.step (s : Page) : Event → Option (Page × List Handled)
  | .call c => some (s.call c, [])
  | .change i body =>
      match s.requests[i]? with
      | none => none
      | some q =>
          if h : body.Answers q.call then
            (q.advance body h).map fun q' => (s.replace i q').fire q.call
          else none

/-- The system. -/
def page : System Page Event Handled := ⟨Page.initial, Page.step⟩

/-! ## What a step can do -/

/-- A change of the request `q` to `q'`.  The newest request is `n` before and `n'`
after it, and one that was complete stays as it is. -/
structure Change (s : Page) (i : Nat) (q q' n n' : Request) : Prop where
  request : s.requests[i]? = some q
  pending : q.response = none
  same_call : q'.call = q.call
  newest : s.xmlhttp = some n
  newest' : (s.replace i q').xmlhttp = some n'
  number : n'.number = n.number
  call : n'.call = n.call
  complete : n.response ≠ none → n' = n

/-- A step by its cases.  After a change the handler of the request waits for the
response of the newest one, or takes it. -/
inductive Page.Move (s : Page) : Event → Page × List Handled → Prop where
  | call (c : Call) : Page.Move s (.call c) (s.call c, [])
  | waits {i : Nat} {body : Body} {q q' n n' : Request} (change : Change s i q q' n n')
      (response : n'.response = none) : Page.Move s (.change i body) (s.replace i q', [])
  | renders {i : Nat} {body b : Body} {q q' n n' : Request} (change : Change s i q q' n n')
      (response : n'.response = some b) (handler : q.call.isSearch = true) :
      Page.Move s (.change i body)
        ({ s.replace i q' with panel := some ⟨n'.number, b.buttons⟩ }, [.rendered n'.call])
  | loads {i : Nat} {body b : Body} {q q' n n' : Request} (change : Change s i q q' n n')
      (response : n'.response = some b) (handler : q.call.isSearch = false) :
      Page.Move s (.change i body)
        ({ s.replace i q' with messages := some b }, [.loaded n'.call])

section

variable {s : Page} {i : Nat} {body : Body} {q q' n n' : Request}

/-- The newest request stays the newest. -/
theorem change_of_advances (hq : s.requests[i]? = some q) (ha : Advances q q') :
    ∃ n n', Change s i q q' n n' := by
  cases hreqs : s.requests with
  | nil =>
      rw [hreqs] at hq
      cases hq
  | cons n rest =>
      have hnewest : s.xmlhttp = some n := by rw [Page.xmlhttp, hreqs]; rfl
      cases i with
      | zero =>
          have hqn : n = q := by
            rw [hreqs] at hq
            exact Option.some.inj hq
          have hnewest' : (s.replace 0 q').xmlhttp = some q' := by
            rw [Page.xmlhttp, Page.replace, hreqs]
            rfl
          refine ⟨n, q', hq, ha.pending, ha.call, hnewest, hnewest', ?_, ?_, ?_⟩
          · rw [hqn, ha.number]
          · rw [hqn, ha.call]
          · rw [hqn]
            exact fun h => absurd ha.pending h
      | succ i =>
          have hnewest' : (s.replace (i + 1) q').xmlhttp = some n := by
            rw [Page.xmlhttp, Page.replace, hreqs]
            rfl
          exact ⟨n, n, hq, ha.pending, ha.call, hnewest, hnewest', rfl, rfl, fun _ => rfl⟩

/-- What the handler does after a change. -/
theorem move_of_change (hc : Change s i q q' n n') :
    s.Move (.change i body) ((s.replace i q').fire q.call) := by
  have hfire : (s.replace i q').fire q.call = match n'.response with
      | none => (s.replace i q', [])
      | some b =>
          match q.call with
          | .showResult _ =>
              ({ s.replace i q' with panel := some ⟨n'.number, b.buttons⟩ }, [.rendered n'.call])
          | .getLinks _ => ({ s.replace i q' with messages := some b }, [.loaded n'.call]) := by
    rw [Page.fire, hc.newest']
  rw [hfire]
  cases hresponse : n'.response with
  | none => exact .waits hc hresponse
  | some b =>
      cases hcall : q.call with
      | showResult str => exact .renders hc hresponse (by rw [hcall]; rfl)
      | getLinks text => exact .loads hc hresponse (by rw [hcall]; rfl)

/-- Every step is one of the cases. -/
theorem Page.move_of_step {e : Event} {r : Page × List Handled} (h : s.step e = some r) :
    s.Move e r := by
  cases e with
  | call c =>
      cases h
      exact .call c
  | change i body =>
      rw [Page.step] at h
      split at h
      · cases h
      · rename_i q hq
        split at h
        · obtain ⟨q', hadvance, rfl⟩ := Option.map_eq_some_iff.mp h
          obtain ⟨n, n', hc⟩ := change_of_advances hq (advances_of_advance hadvance)
          exact move_of_change hc
        · cases h

theorem Change.mem (hc : Change s i q q' n n') : q ∈ s.requests := List.mem_of_getElem? hc.request

/-- A request after a change is one from before, possibly a state further. -/
theorem Change.mem_of_replace (hc : Change s i q q' n n') {x : Request}
    (hx : x ∈ (s.replace i q').requests) :
    ∃ y ∈ s.requests, x.call = y.call ∧ (x.response = none → y.response = none) := by
  cases List.mem_or_eq_of_mem_set hx with
  | inl hold => exact ⟨x, hold, rfl, fun h => h⟩
  | inr hnew =>
      rw [hnew]
      exact ⟨q, hc.mem, hc.same_call, fun _ => hc.pending⟩

/-- The newest request after a change is the one the change says. -/
theorem Change.eq_newest (hc : Change s i q q' n n') {x : Request}
    (hx : (s.replace i q').xmlhttp = some x) : x = n' := by
  rw [hc.newest'] at hx
  exact (Option.some.inj hx).symm

end

/-! ## Handlers and responses of one kind -/

/-- A handler took a response to a call of its own function. -/
def Handled.Own : Handled → Prop
  | .rendered response => response.isSearch = true
  | .loaded response => response.isSearch = false

/-- The request of the last call of `getLinks` that started one. -/
def Page.lastLinks (s : Page) : Option Request := s.requests.find? fun q => !q.call.isSearch

/-- If that request is complete, its response is in `messages`. -/
def Page.LinksLoaded (s : Page) : Prop :=
  ∀ q ∈ s.lastLinks, ∀ body ∈ q.response, s.messages = some body

/-- A call that starts a request is made only while no request of the other
function is under way. -/
def OneKind (s : Page) : Event → Prop
  | .call c => c.text ≠ [] → ∀ q ∈ s.requests, q.response = none → q.call.isSearch = c.isSearch
  | .change _ _ => True

/-- The requests that are under way are of the kind of the newest. -/
def Page.Uniform (s : Page) : Prop :=
  ∀ n ∈ s.xmlhttp, ∀ q ∈ s.requests, q.response = none → q.call.isSearch = n.call.isSearch

/-- A change leaves the requests under way of one kind. -/
theorem uniform_replace {s : Page} {i : Nat} {q q' n n' : Request} (hs : s.Uniform)
    (hc : Change s i q q' n n') : (s.replace i q').Uniform := by
  intro m hm x hx hpending
  obtain ⟨y, hy, hxy, hpend⟩ := hc.mem_of_replace hx
  rw [hc.eq_newest hm, hc.call, hxy]
  exact hs n hc.newest y hy (hpend hpending)

theorem uniform_step {s : Page} {e : Event} {r : Page × List Handled} (hs : s.Uniform)
    (hok : OneKind s e) (h : s.step e = some r) : r.1.Uniform := by
  cases Page.move_of_step h with
  | call c =>
      unfold Page.call
      split
      · exact hs
      · rename_i htext
        intro n hn q hq hpending
        cases hn
        cases List.mem_cons.mp hq with
        | inl heq => rw [heq]
        | inr hmem => exact hok htext q hmem hpending
  | waits hc _ => exact uniform_replace hs hc
  | renders hc _ _ => exact uniform_replace hs hc
  | loads hc _ _ => exact uniform_replace hs hc

/-- The lookup of the last request of `getLinks` does not see changes of others. -/
theorem find?_set_of_neg {α : Type} {p : α → Bool} {a b : α} (ha : p a = false) (hb : p b = false) :
    ∀ {l : List α} {i : Nat}, l[i]? = some a → (l.set i b).find? p = l.find? p
  | [], _, h => by cases h
  | x :: l, 0, h => by
      cases h
      rw [List.set_cons_zero, List.find?_cons_of_neg (by simp [hb]),
        List.find?_cons_of_neg (by simp [ha])]
  | x :: l, i + 1, h => by
      have hl : l[i]? = some a := h
      rw [List.set_cons_succ, List.find?_cons, List.find?_cons, find?_set_of_neg ha hb hl]

/-- A change of a request of `showResult` is not seen. -/
theorem lastLinks_replace {s : Page} {i : Nat} {q q' n n' : Request} (hc : Change s i q q' n n')
    (hsearch : q.call.isSearch = true) : (s.replace i q').lastLinks = s.lastLinks := by
  refine find?_set_of_neg ?_ ?_ hc.request
  · rw [hsearch]
    rfl
  · rw [hc.same_call, hsearch]
    rfl

/-- After a change of a request of `getLinks` the newest request is one of `getLinks`
too, and so it is the last of them. -/
theorem lastLinks_newest {s : Page} {i : Nat} {q q' n n' : Request} (hu : s.Uniform)
    (hc : Change s i q q' n n') (hlinks : q.call.isSearch = false) :
    (s.replace i q').lastLinks = some n' := by
  have hkind : n'.call.isSearch = false := by
    rw [hc.call, ← hu n hc.newest q hc.mem hc.pending, hlinks]
  obtain ⟨rest, hrest⟩ := List.head?_eq_some_iff.mp hc.newest'
  rw [Page.lastLinks, hrest, List.find?_cons_of_pos]
  rw [hkind]
  rfl

theorem linksLoaded_step {s : Page} {e : Event} {r : Page × List Handled} (hu : s.Uniform)
    (hs : s.LinksLoaded) (h : s.step e = some r) : r.1.LinksLoaded := by
  cases Page.move_of_step h with
  | call c =>
      unfold Page.call
      split
      · exact hs
      · intro q hq body hbody
        rw [Page.lastLinks, List.find?_cons] at hq
        split at hq
        · cases hq
          cases hbody
        · exact hs q hq body hbody
  | @waits i _ q q' n n' hc hresponse =>
      intro g hg body hbody
      cases hkind : q.call.isSearch with
      | true =>
          rw [lastLinks_replace hc hkind] at hg
          exact hs g hg body hbody
      | false =>
          rw [lastLinks_newest hu hc hkind] at hg
          cases hg
          cases hresponse.symm.trans hbody
  | renders hc _ hsearch =>
      intro g hg body hbody
      have hold := lastLinks_replace hc hsearch
      exact hs g (hold.symm.trans hg) body hbody
  | loads hc hresponse hlinks =>
      intro g hg body hbody
      cases (lastLinks_newest hu hc hlinks).symm.trans hg
      exact hresponse.symm.trans hbody

/-- While the requests under way are of one kind, handlers take responses of their
own. -/
theorem own_step {s : Page} {e : Event} {r : Page × List Handled} (hu : s.Uniform)
    (h : s.step e = some r) : ∀ o ∈ r.2, o.Own := by
  cases Page.move_of_step h with
  | call c =>
      intro o ho
      cases ho
  | waits _ _ =>
      intro o ho
      cases ho
  | @renders i _ b q q' n n' hc _ hsearch =>
      intro o ho
      rw [List.mem_singleton.mp ho]
      change n'.call.isSearch = true
      rw [hc.call, ← hu n hc.newest q hc.mem hc.pending, hsearch]
  | @loads i _ b q q' n n' hc _ hlinks =>
      intro o ho
      rw [List.mem_singleton.mp ho]
      change n'.call.isSearch = false
      rw [hc.call, ← hu n hc.newest q hc.mem hc.pending, hlinks]

instance (s : Page) (e : Event) : Decidable (OneKind s e) :=
  match e with
  | .call _ => inferInstanceAs (Decidable (_ → _))
  | .change _ _ => inferInstanceAs (Decidable True)

/-- In a run in which no request is started while one of the other function is under
way, every handler takes responses of its own, and the response of the last request
of `getLinks` is loaded as soon as it is complete. -/
theorem responses_reach_own_handler {es : List Event} {r : Page × List Handled}
    (h : page.exec OneKind Page.initial es = some r) :
    (∀ o ∈ r.2, o.Own) ∧ r.1.LinksLoaded := by
  have hinit : Page.initial.Uniform ∧ Page.initial.LinksLoaded := by
    refine ⟨fun n hn => ?_, fun q hq => ?_⟩
    · cases hn
    · cases hq
  have hrun := System.exec_rule (fun s : Page => s.Uniform ∧ s.LinksLoaded) Handled.Own
    (fun hs hok hstep => ⟨⟨uniform_step hs.1 hok hstep, linksLoaded_step hs.1 hs.2 hstep⟩,
      own_step hs.1 hstep⟩) hinit h
  exact ⟨hrun.2, hrun.1.2⟩

/-- The changes of a request up to its end. -/
def completes (i : Nat) (body : Body) : List Event := List.replicate 3 (.change i body)

/-- A search, and then a chat that is opened after the search is complete. -/
def searchThenOpen : List Event :=
  .call (.showResult "A".toList) :: completes 0 (.results ["['A']".toList]) ++
    .call (.getLinks "['A']".toList) :: completes 0 (.messages [])

theorem responses_reach_own_handler_searchThenOpen :
    ∃ r, page.exec OneKind Page.initial searchThenOpen = some r ∧
      (∀ o ∈ r.2, o.Own) ∧ r.1.LinksLoaded := by
  refine ⟨_, rfl, ?_⟩
  exact responses_reach_own_handler
    (show page.exec OneKind Page.initial searchThenOpen = some _ from rfl)

/-- A chat that is opened while a search is under way. -/
def openDuringSearch : List Event :=
  .call (.showResult "A".toList) :: .call (.getLinks "['A']".toList) ::
    completes 0 (.messages []) ++ [.change 1 (.results [])]

/-- A search that is started while a chat is opened. -/
def searchDuringOpen : List Event :=
  .call (.getLinks "['A']".toList) :: .call (.showResult "A".toList) :: completes 1 (.messages [])

/-- In the first run the handler of the search renders the messages of the chat, and
in the second one the messages are never loaded. -/
theorem responses_miss_own_handler :
    ¬(∀ es r, page.exec System.anyInput Page.initial es = some r → ∀ o ∈ r.2, o.Own) ∧
      ¬∀ es r, page.exec System.anyInput Page.initial es = some r → r.1.LinksLoaded := by
  constructor
  · intro h
    have hown := h openDuringSearch _ rfl (.rendered (.getLinks "['A']".toList))
      (List.mem_cons_of_mem _ List.mem_cons_self)
    cases hown
  · intro h
    have hloaded := h searchDuringOpen _ rfl _ rfl _ rfl
    cases hloaded

end Browser
