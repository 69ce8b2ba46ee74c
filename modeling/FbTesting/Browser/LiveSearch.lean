import FbTesting.Browser.Requests

/-!
# The live search

Runs in which only `showResult` is called.  Every handler takes the response of
the newest request, so what is displayed belongs to the newest request at the time
it was put there.  The number of the call it belongs to never goes down, and when
all requests are complete the results of the last call are displayed
(`SearchInv`).

A call with the empty text clears the live search and starts no request.  The
newest request is still the one of the call before, and the handlers of the
requests under way display its response again.  So the live search stays empty
only when no request is under way, or when the response of the newest one is there
and has no results.
-/

namespace Browser

open Base

/-- No call of `getLinks`. -/
def SearchOnly (_ : Page) : Event → Prop
  | .call c => c.isSearch = true
  | .change _ _ => True

instance (s : Page) (e : Event) : Decidable (SearchOnly s e) :=
  match e with
  | .call c => inferInstanceAs (Decidable (c.isSearch = true))
  | .change _ _ => inferInstanceAs (Decidable True)

/-! ## What is displayed -/

/-- The invariant of the live search. -/
structure SearchInv (s : Page) : Prop where
  searches : ∀ q ∈ s.requests, q.call.isSearch = true
  /-- The newest request was started by one of the calls. -/
  numbered : ∀ q ∈ s.xmlhttp, q.number < s.calls.length
  /-- If the last call has a text, it started the newest request. -/
  newest : ∀ c, s.calls.head? = some c → c.text ≠ [] →
    ∃ q, s.xmlhttp = some q ∧ q.call = c ∧ q.number + 1 = s.calls.length
  /-- What is displayed is not newer than the newest request. -/
  shown : ∀ p ∈ s.panel, ∃ q ∈ s.xmlhttp, p.number ≤ q.number
  /-- If the last call started the newest request and it is complete, its results are
  displayed. -/
  current : ∀ q ∈ s.xmlhttp, q.number + 1 = s.calls.length → ∀ body ∈ q.response,
    s.panel = some ⟨q.number, body.buttons⟩

theorem searchInv_initial : SearchInv .initial where
  searches := fun q hq => absurd hq List.not_mem_nil
  numbered := fun q hq => by cases hq
  newest := fun c hc => by cases hc
  shown := fun p hp => by cases hp
  current := fun q hq => by cases hq

/-- Clearing. -/
theorem searchInv_clear {s : Page} (hs : SearchInv s) {c : Call} (hsearch : c.isSearch = true)
    (htext : c.text = []) : SearchInv (s.call c) := by
  have hcall : s.call c = { s with calls := c :: s.calls, panel := none } := by
    rw [Page.call, if_pos htext, hsearch]
    rfl
  rw [hcall]
  refine ⟨hs.searches, fun q hq => ?_, fun d hd hne => ?_, fun p hp => ?_, fun q hq hlast => ?_⟩
  · exact Nat.lt_succ_of_lt (hs.numbered q hq)
  · cases hd
    exact absurd htext hne
  · cases hp
  · have hlt := hs.numbered q hq
    change q.number + 1 = s.calls.length + 1 at hlast
    omega

/-- A search. -/
theorem searchInv_search {s : Page} (hs : SearchInv s) {c : Call} (hsearch : c.isSearch = true)
    (htext : c.text ≠ []) : SearchInv (s.call c) := by
  have hcall : s.call c = { s with
      calls := c :: s.calls
      requests := .sent s.calls.length c :: s.requests } := by
    rw [Page.call, if_neg htext]
  rw [hcall]
  refine ⟨fun q hq => ?_, fun q hq => ?_, fun d hd _ => ?_, fun p hp => ?_,
    fun q hq _ body hbody => ?_⟩
  · cases List.mem_cons.mp hq with
    | inl heq => rw [heq]; exact hsearch
    | inr hmem => exact hs.searches q hmem
  · cases hq
    exact Nat.lt_succ_self _
  · cases hd
    exact ⟨_, rfl, rfl, rfl⟩
  · obtain ⟨q, hq, hle⟩ := hs.shown p hp
    have hlt := hs.numbered q hq
    refine ⟨_, rfl, ?_⟩
    change p.number ≤ s.calls.length
    omega
  · cases hq
    cases hbody

/-- A change after which the panel is as the newest request says: if that request is
not complete the panel is left, otherwise it has the results. -/
theorem searchInv_change {s : Page} (hs : SearchInv s) {i : Nat} {q q' n n' : Request}
    (hc : Change s i q q' n n') {panel : Option Rendering}
    (hpanel : (n'.response = none ∧ panel = s.panel) ∨
      ∃ b, n'.response = some b ∧ panel = some ⟨n'.number, b.buttons⟩) :
    SearchInv { s.replace i q' with panel := panel } := by
  refine ⟨fun x hx => ?_, fun x hx => ?_, fun c hlast htext => ?_, fun p hp => ?_,
    fun x hx _ body hbody => ?_⟩
  · obtain ⟨y, hy, hxy, _⟩ := hc.mem_of_replace hx
    rw [hxy]
    exact hs.searches y hy
  · rw [hc.eq_newest hx, hc.number]
    exact hs.numbered n hc.newest
  · obtain ⟨m, hm, hcall, hnumber⟩ := hs.newest c hlast htext
    cases hc.newest.symm.trans hm
    refine ⟨n', hc.newest', ?_, ?_⟩
    · rw [hc.call, hcall]
    · rw [hc.number]
      exact hnumber
  · rcases hpanel with ⟨_, rfl⟩ | ⟨b, _, rfl⟩
    · obtain ⟨m, hm, hle⟩ := hs.shown p hp
      cases hc.newest.symm.trans hm
      refine ⟨n', hc.newest', ?_⟩
      rw [hc.number]
      exact hle
    · cases hp
      exact ⟨n', hc.newest', le_refl _⟩
  · rw [hc.eq_newest hx] at hbody ⊢
    rcases hpanel with ⟨hnone, _⟩ | ⟨b, hb, rfl⟩
    · cases hnone.symm.trans hbody
    · cases hb.symm.trans hbody
      rfl

theorem searchInv_step {s : Page} {e : Event} {r : Page × List Handled} (hs : SearchInv s)
    (hok : SearchOnly s e) (h : s.step e = some r) : SearchInv r.1 := by
  cases Page.move_of_step h with
  | call c =>
      by_cases htext : c.text = []
      · exact searchInv_clear hs hok htext
      · exact searchInv_search hs hok htext
  | waits hc hnone => exact searchInv_change hs hc (Or.inl ⟨hnone, rfl⟩)
  | renders hc hresponse _ => exact searchInv_change hs hc (Or.inr ⟨_, hresponse, rfl⟩)
  | loads hc _ hlinks =>
      -- all requests are of `showResult`
      rw [hs.searches _ hc.mem] at hlinks
      cases hlinks

/-- The invariant holds in every run without calls of `getLinks`. -/
theorem searchInv_of_reach {s : Page} (h : page.Reach SearchOnly s) : SearchInv s :=
  h.invariant SearchInv searchInv_initial fun hs hok hstep => searchInv_step hs hok hstep

/-! ## The results of older calls -/

/-- Nothing older than call `a` is displayed, now or later. -/
structure NotOlder (a : Nat) (s : Page) : Prop where
  panel : ∀ p ∈ s.panel, a ≤ p.number
  xmlhttp : ∀ q ∈ s.xmlhttp, a ≤ q.number
  calls : a < s.calls.length

theorem NotOlder.xmlhttp_replace {a : Nat} {s : Page} (hs : NotOlder a s) {i : Nat}
    {q q' n n' : Request} (hc : Change s i q q' n n') :
    ∀ x ∈ (s.replace i q').xmlhttp, a ≤ x.number := by
  intro x hx
  rw [hc.eq_newest hx, hc.number]
  exact hs.xmlhttp n hc.newest

theorem notOlder_step {a : Nat} {s : Page} {e : Event} {r : Page × List Handled}
    (hs : NotOlder a s) (h : s.step e = some r) : NotOlder a r.1 := by
  cases Page.move_of_step h with
  | call c =>
      unfold Page.call
      split
      · refine ⟨fun p hp => ?_, hs.xmlhttp, Nat.lt_succ_of_lt hs.calls⟩
        cases hsearch : c.isSearch with
        | true =>
            rw [hsearch] at hp
            cases hp
        | false =>
            rw [hsearch] at hp
            exact hs.panel p hp
      · refine ⟨hs.panel, fun q hq => ?_, Nat.lt_succ_of_lt hs.calls⟩
        cases hq
        exact Nat.le_of_lt hs.calls
  | waits hc _ => exact ⟨hs.panel, hs.xmlhttp_replace hc, hs.calls⟩
  | renders hc _ _ =>
      refine ⟨fun p hp => ?_, hs.xmlhttp_replace hc, hs.calls⟩
      cases hp
      exact hs.xmlhttp_replace hc _ hc.newest'
  | loads hc _ _ => exact ⟨hs.panel, hs.xmlhttp_replace hc, hs.calls⟩

/-- In a run without calls of `getLinks`, what is displayed later is never of an
older call, and when all requests are complete and the last call had a text, its
results are displayed. -/
theorem live_search_current {s : Page} (h : page.Reach SearchOnly s) :
    (∀ es r, page.exec SearchOnly s es = some r →
      ∀ a ∈ s.shown, ∀ b ∈ r.1.shown, a ≤ b) ∧
      ∀ str, s.calls.head? = some (.showResult str) → str ≠ [] →
        (∀ q ∈ s.requests, q.response ≠ none) →
          ∃ q rs, s.xmlhttp = some q ∧ q.call = .showResult str ∧
            q.response = some (.results rs) ∧ s.panel = some ⟨s.calls.length - 1, rs⟩ := by
  have hinv := searchInv_of_reach h
  constructor
  · intro es r hrun a ha b hb
    obtain ⟨p, hp, rfl⟩ := Option.map_eq_some_iff.mp ha
    obtain ⟨p', hp', rfl⟩ := Option.map_eq_some_iff.mp hb
    have hstart : NotOlder p.number s := by
      obtain ⟨q, hq, hle⟩ := hinv.shown p hp
      refine ⟨fun x hx => ?_, fun x hx => ?_, hle.trans_lt (hinv.numbered q hq)⟩
      · cases hp.symm.trans hx
        exact le_refl _
      · cases hq.symm.trans hx
        exact hle
    have hend := System.exec_invariant (NotOlder p.number)
      (fun hs _ hstep => notOlder_step hs hstep) hstart hrun
    exact hend.panel p' hp'
  · intro str hlast hne hall
    obtain ⟨q, hq, hcall, hnumber⟩ := hinv.newest _ hlast hne
    obtain ⟨body, hbody⟩ := Option.ne_none_iff_exists'.mp (hall q (List.mem_of_mem_head? hq))
    have hanswers := q.answers body hbody
    have hpanel := hinv.current q hq hnumber body hbody
    cases body with
    | results rs =>
        refine ⟨q, rs, hq, hcall, hbody, ?_⟩
        rw [hpanel, ← hnumber]
        rfl
    | messages ms =>
        rw [hcall] at hanswers
        cases hanswers

/-- Two letters typed fast: the second request is complete before the first. -/
def fastTyping : List Event :=
  .call (.showResult "A".toList) :: .call (.showResult "Al".toList) ::
    completes 0 (.results ["['Al']".toList]) ++ completes 1 (.results ["['A']".toList])

theorem live_search_current_fastTyping :
    ∃ s, page.Reach SearchOnly s ∧ s.panel = some ⟨1, ["['Al']".toList]⟩ ∧
      (∀ es r, page.exec SearchOnly s es = some r → ∀ a ∈ s.shown, ∀ b ∈ r.1.shown, a ≤ b) ∧
      ∀ str, s.calls.head? = some (.showResult str) → str ≠ [] →
        (∀ q ∈ s.requests, q.response ≠ none) →
          ∃ q rs, s.xmlhttp = some q ∧ q.call = .showResult str ∧
            q.response = some (.results rs) ∧ s.panel = some ⟨s.calls.length - 1, rs⟩ := by
  have hreach : page.Reach SearchOnly (page.after SearchOnly fastTyping) :=
    System.reach_after fastTyping
  exact ⟨_, hreach, rfl, live_search_current hreach⟩

/-! ## Clearing -/

/-- No further call. -/
def NoCall (_ : Page) : Event → Prop
  | .call _ => False
  | .change _ _ => True

instance (s : Page) (e : Event) : Decidable (NoCall s e) :=
  match e with
  | .call _ => inferInstanceAs (Decidable False)
  | .change _ _ => inferInstanceAs (Decidable True)

/-- No handler can put results into the live search: no request is under way, or the
newest one is complete without results. -/
def Page.Quiet (s : Page) : Prop :=
  (∀ q ∈ s.requests, q.response ≠ none) ∨
    ∃ n body, s.xmlhttp = some n ∧ n.response = some body ∧ body.buttons = []

/-- On a quiet page only a complete request without results is displayed again. -/
theorem Page.Quiet.newest {s : Page} (hs : s.Quiet) {i : Nat} {q q' n n' : Request}
    (hc : Change s i q q' n n') : n' = n ∧ ∃ body, n.response = some body ∧ body.buttons = [] := by
  obtain ⟨m, body, hm, hbody, hempty⟩ := hs.resolve_left fun hall => hall q hc.mem hc.pending
  cases hc.newest.symm.trans hm
  refine ⟨hc.complete ?_, body, hbody, hempty⟩
  rw [hbody]
  exact Option.some_ne_none _

/-- A quiet page stays quiet. -/
theorem Page.Quiet.replace {s : Page} (hs : s.Quiet) {i : Nat} {q q' n n' : Request}
    (hc : Change s i q q' n n') : (s.replace i q').Quiet := by
  obtain ⟨hsame, body, hbody, hempty⟩ := hs.newest hc
  refine Or.inr ⟨n, body, ?_, hbody, hempty⟩
  rw [← hsame]
  exact hc.newest'

/-- A quiet page with an empty live search stays as it is. -/
theorem quiet_step {s : Page} {e : Event} {r : Page × List Handled}
    (hs : s.Quiet ∧ s.buttons = []) (hok : NoCall s e) (h : s.step e = some r) :
    r.1.Quiet ∧ r.1.buttons = [] := by
  cases Page.move_of_step h with
  | call c => exact absurd hok id
  | waits hc _ => exact ⟨hs.1.replace hc, hs.2⟩
  | renders hc hresponse _ =>
      obtain ⟨hsame, body, hbody, hempty⟩ := hs.1.newest hc
      rw [hsame] at hresponse
      cases hbody.symm.trans hresponse
      exact ⟨hs.1.replace hc, hempty⟩
  | loads hc _ _ => exact ⟨hs.1.replace hc, hs.2⟩

/-- A request under way can go on. -/
theorem exists_advance {q : Request} {body : Body} (hpending : q.response = none)
    (h : body.Answers q.call) : ∃ q', q.advance body h = some q' := by
  obtain ⟨number, call, state, answers⟩ := q
  cases state with
  | opened => exact ⟨_, rfl⟩
  | headersReceived => exact ⟨_, rfl⟩
  | loading => exact ⟨_, rfl⟩
  | done b => cases hpending

/-- If the newest request is complete, a change of another one displays its response
again. -/
theorem exists_redisplay {s : Page} (hs : SearchInv s) {n q : Request} {body : Body}
    (hn : s.xmlhttp = some n) (hbody : n.response = some body) (hq : q ∈ s.requests)
    (hpending : q.response = none) :
    ∃ es r, page.exec NoCall s es = some r ∧ r.1.buttons = body.buttons := by
  obtain ⟨i, hi⟩ := List.mem_iff_getElem?.mp hq
  have hanswers : (Body.results []).Answers q.call := hs.searches q hq
  obtain ⟨q', hq'⟩ := exists_advance hpending hanswers
  have hstep : s.step (.change i (.results [])) = some ((s.replace i q').fire q.call) := by
    simp only [Page.step, hi]
    rw [dif_pos hanswers, hq', Option.map_some]
  have hok : NoCall s (.change i (.results [])) := trivial
  obtain ⟨m, n', hc⟩ := change_of_advances hi (advances_of_advance hq')
  cases hn.symm.trans hc.newest
  have hsame : n' = n := by
    refine hc.complete ?_
    rw [hbody]
    exact Option.some_ne_none _
  refine ⟨_, _, System.exec_singleton hok hstep, ?_⟩
  cases hcall : q.call with
  | getLinks text =>
      rw [hcall] at hanswers
      cases hanswers
  | showResult str =>
      rw [Page.fire, hc.newest', hsame]
      simp only [hbody]
      rfl

/-- A newest request under way can get results and have them displayed. -/
theorem exists_display {s : Page} (hs : SearchInv s) {n : Request} (hn : s.xmlhttp = some n)
    (hpending : n.response = none) (rs : List Text) :
    ∃ es r, page.exec NoCall s es = some r ∧ r.1.buttons = rs := by
  obtain ⟨calls, requests, panel, messages⟩ := s
  obtain ⟨rest, rfl⟩ := List.head?_eq_some_iff.mp hn
  have hsearch := hs.searches n List.mem_cons_self
  obtain ⟨number, call, state, answers⟩ := n
  cases call with
  | getLinks text => cases hsearch
  | showResult str =>
      cases state with
      | opened => exact ⟨List.replicate 3 (.change 0 (.results rs)), _, rfl, rfl⟩
      | headersReceived => exact ⟨List.replicate 2 (.change 0 (.results rs)), _, rfl, rfl⟩
      | loading => exact ⟨List.replicate 1 (.change 0 (.results rs)), _, rfl, rfl⟩
      | done b => cases hpending

/-- In a run without calls of `getLinks`, a call with the empty text leaves the live
search empty for good exactly when no request is under way, or the newest one is
complete without results. -/
theorem cleared_for_good_iff {s : Page} (h : page.Reach SearchOnly s) :
    (∀ es r, page.exec NoCall (s.call (.showResult [])) es = some r → r.1.buttons = []) ↔
      (∀ q ∈ s.requests, q.response ≠ none) ∨
        ∃ n body, s.xmlhttp = some n ∧ n.response = some body ∧ body.buttons = [] := by
  have hcleared : SearchInv (s.call (.showResult [])) :=
    searchInv_clear (searchInv_of_reach h) rfl rfl
  constructor
  · intro hempty
    by_contra hquiet
    obtain ⟨hpending, hresults⟩ := not_or.mp hquiet
    push Not at hpending
    obtain ⟨q, hq, hq'⟩ := hpending
    cases hn : s.xmlhttp with
    | none =>
        have hnil : s.requests = [] := List.head?_eq_none_iff.mp hn
        rw [hnil] at hq
        cases hq
    | some n =>
        cases hbody : n.response with
        | none =>
            obtain ⟨es, r, hrun, hshown⟩ := exists_display hcleared hn hbody [[]]
            cases hshown.symm.trans (hempty es r hrun)
        | some body =>
            obtain ⟨es, r, hrun, hshown⟩ := exists_redisplay hcleared hn hbody hq hq'
            exact hresults ⟨n, body, hn, hbody, hshown.symm.trans (hempty es r hrun)⟩
  · intro hquiet es r hrun
    have hstart : (s.call (.showResult [])).Quiet ∧ (s.call (.showResult [])).buttons = [] :=
      ⟨hquiet, rfl⟩
    have hend := System.exec_invariant (fun t : Page => t.Quiet ∧ t.buttons = [])
      (fun hs hok hstep => quiet_step hs hok hstep) hstart hrun
    exact hend.2

/-- A letter whose results are not there yet. -/
def typedLetter : List Event := [.call (.showResult "A".toList)]

theorem cleared_for_good_iff_typedLetter :
    ∃ s, page.Reach SearchOnly s ∧ s.requests.length = 1 ∧
      ((∀ es r, page.exec NoCall (s.call (.showResult [])) es = some r → r.1.buttons = []) ↔
        (∀ q ∈ s.requests, q.response ≠ none) ∨
          ∃ n body, s.xmlhttp = some n ∧ n.response = some body ∧ body.buttons = []) := by
  have hreach : page.Reach SearchOnly (page.after SearchOnly typedLetter) :=
    System.reach_after typedLetter
  exact ⟨_, hreach, rfl, cleared_for_good_iff hreach⟩

/-- The letter is deleted, and then its results are displayed. -/
theorem cleared_shows_results :
    ¬∀ es r, page.exec NoCall ((page.after SearchOnly typedLetter).call (.showResult [])) es =
      some r → r.1.buttons = [] := by
  intro h
  have hempty := h (completes 0 (.results ["['A']".toList])) _ rfl
  cases hempty

end Browser
