import FbTesting.Browser.Html
import FbTesting.Browser.Target
import FbTesting.Server.Search

/-!
# Opening a suggested chat

The live search puts one button on the page for each key that the server has
answered, with the key as its markup.  A click hands the markup of the button to
`getLinks`, which asks `/links.js` for the chat of that name.  Neither the markup
nor the query is escaped.

The key gets through this unchanged exactly when it has no character that means
something in one of the two places (`Passes`).  The argument is by length: no
step on the way makes the text longer, and a step that keeps the length keeps the
text, so a key that comes out again was changed nowhere.
-/

namespace Browser

open Base Node Python Analyser Server

/-! ## The scripts -/

/-- The loop of `showResult` over the results: the content of `livesearch`. -/
def showResult (E : Html) (results : List Text) : E.Content :=
  results.foldl (fun content r => E.parse (E.markup content ++ buttonMarkup r)) (E.parse [])

/-- The target that `getLinks` asks for, given the markup of a button. -/
def getLinks (buttonText : Text) : Option Text :=
  if buttonText = [] then none else some (target (reference "links.js".toList buttonText))

/-! ## The buttons after the loop -/

/-- The text of a button that was made for a result: the result, or less. -/
structure Shows (r d : Text) : Prop where
  shorter : d = r ∨ d.length < r.length
  same : '&' ∉ r → d = r

/-- A result that can be put on a button as text. -/
structure Showable (r : Text) : Prop extends PlainText r where
  noReturn : '\r' ∉ r

section

variable {R : References}

theorem decodeFrom_eq_self {t : Text} (h : '&' ∉ t) : R.decodeFrom 0 t = t := by
  induction t with
  | nil => rfl
  | cons c t ih =>
      have hc : c ≠ '&' := fun heq => h (heq ▸ List.mem_cons_self)
      rw [R.decodeFrom_ne hc, ih fun hm => h (List.mem_cons_of_mem _ hm)]

/-- The button that is added shows its result. -/
theorem shows_text {r : Text} (h : Showable r) : Shows r (R.text r) where
  shorter := R.text_cases h.noReturn
  same := by
    intro hr
    rw [References.text, unify_eq_self h.noReturn, decodeFrom_eq_self hr]

/-- A button that is written down and read back still shows its result. -/
theorem Shows.unify {r d : Text} (h : Showable r) (hd : Shows r d) : Shows r (unify d) where
  shorter := by
    rcases hd.shorter with rfl | hlt
    · exact Or.inl (unify_eq_self h.noReturn)
    · exact Or.inr (Nat.lt_of_le_of_lt (length_unifyFrom d false) hlt)
  same := by
    intro hr
    rw [hd.same hr]
    exact unify_eq_self h.noReturn

/-- The buttons show the results, in order. -/
theorem showResult_buttons {E : Html} (hrules : E.Rules R) (results : List Text)
    (hresults : ∀ r ∈ results, Showable r) :
    ∃ ds, List.Forall₂ Shows results ds ∧ (∀ d ∈ ds, '\x00' ∉ d) ∧
      E.markup (showResult E results) = (ds.map escape).flatMap buttonMarkup ∧
      E.buttons (showResult E results) = ds.map escape := by
  induction results using List.reverseRecOn with
  | nil =>
      have hnone : ∀ t ∈ ([] : List Text), PlainText t := fun _ h => absurd h List.not_mem_nil
      exact ⟨[], .nil, fun _ h => absurd h List.not_mem_nil, hrules.markup_parse [] hnone,
        hrules.buttons_parse [] hnone⟩
  | append_singleton results r ih =>
      obtain ⟨ds, hds, hnull, hmarkup, -⟩ := ih fun x hx => hresults x (List.mem_append_left _ hx)
      have hr : Showable r := hresults r (List.mem_append_right _ List.mem_cons_self)
      -- the markup of the buttons so far is read again, together with the new one
      have hstep : showResult E (results ++ [r]) =
          E.parse ((ds.map escape ++ [r]).flatMap buttonMarkup) := by
        rw [showResult, List.foldl_append, List.flatMap_append]
        change E.parse (E.markup (showResult E results) ++ _) = _
        rw [hmarkup]
        simp
      have hplain : ∀ t ∈ ds.map escape ++ [r], PlainText t := by
        intro t ht
        rcases List.mem_append.mp ht with ht | ht
        · obtain ⟨d, hd, rfl⟩ := List.mem_map.mp ht
          exact plainText_escape (hnull d hd)
        · rw [List.mem_singleton.mp ht]
          exact hr.toPlainText
      have htexts : (ds.map escape ++ [r]).map (fun t => escape (R.text t)) =
          (ds.map Browser.unify ++ [R.text r]).map escape := by
        simp only [List.map_append, List.map_map, List.map_cons, List.map_nil]
        congr 1
        refine List.map_congr_left fun d _ => ?_
        simp only [Function.comp_apply, R.text_escape]
      refine ⟨ds.map Browser.unify ++ [R.text r], ?_, fun t ht => ?_, ?_, ?_⟩
      · refine List.rel_append ?_ (.cons (shows_text hr) .nil)
        rw [List.forall₂_map_right_iff]
        have hboth := (List.forall₂_and_left results ds).mpr
          ⟨fun x hx => hresults x (List.mem_append_left _ hx), hds⟩
        exact hboth.imp fun x d h => h.2.unify h.1
      · rcases List.mem_append.mp ht with ht | ht
        · obtain ⟨d, hd, rfl⟩ := List.mem_map.mp ht
          exact null_not_mem_unifyFrom (hnull d hd) false
        · rw [List.mem_singleton.mp ht]
          exact R.null_not_mem_decodeFrom (null_not_mem_unifyFrom hr.noNull _) 0
      · rw [hstep, hrules.markup_parse _ hplain, ← htexts, List.flatMap_map]
      · rw [hstep, hrules.buttons_parse _ hplain, htexts]

end

/-! ## What the server reads of a button -/

theorem isEscaped_of_le {c : Char} (h : c.toNat ≤ 35) : isEscaped c = false := by
  cases hc : isEscaped c with
  | false => rfl
  | true => rcases escaped_cases hc with rfl | rfl | rfl | rfl <;> exact absurd h (by decide)

/-- A property of the letters of the references and of a character holds of what
the character is written as. -/
theorem forall_mem_escapeChar {P : Char → Prop} {c : Char} (hc : P c)
    (hletters : ∀ d ∈ "&amp;ltgnbs".toList, P d) : ∀ d ∈ escapeChar c, P d := by
  intro d hd
  rcases mem_escapeChar hd with ⟨rfl, -⟩ | hd
  · exact hc
  · exact hletters d hd

theorem escapeChar_ne_nil (c : Char) : escapeChar c ≠ [] := by
  unfold escapeChar
  split_ifs <;> exact nofun

theorem rdropWhile_escape (t : Text) :
    (escape t).rdropWhile isBlank = escape (t.rdropWhile isBlank) := by
  induction t using List.reverseRecOn with
  | nil => rfl
  | append_singleton t c ih =>
      rw [escape_append, escape_cons, escape_nil, List.append_nil]
      cases hc : isBlank c with
      | true =>
          have hle : c.toNat ≤ 35 := Nat.le_trans (by simpa [isBlank] using hc) (by decide)
          rw [escapeChar_of_not (isEscaped_of_le hle), List.rdropWhile_concat_pos _ _ _ hc, ih,
            List.rdropWhile_concat_pos _ _ _ hc]
      | false =>
          have hlast : ∀ d ∈ (escape t ++ escapeChar c).getLast?, isBlank d = false := by
            intro d hd
            rw [List.getLast?_append_of_ne_nil _ (escapeChar_ne_nil c)] at hd
            exact forall_mem_escapeChar (P := fun d => isBlank d = false) hc (by decide) d
              (List.mem_of_getLast? hd)
          have hkeep := rdropWhile_append (u := []) hlast
          rw [List.append_nil, List.rdropWhile_nil, List.append_nil] at hkeep
          rw [hkeep, List.rdropWhile_concat_neg _ _ _ (by rw [hc]; decide), escape_append,
            escape_cons, escape_nil, List.append_nil]

theorem filter_escape (t : Text) : (escape t).filter (fun c => !isTabOrNewline c) =
    escape (t.filter fun c => !isTabOrNewline c) := by
  induction t with
  | nil => rfl
  | cons c t ih =>
      rw [escape_cons, List.filter_append, ih]
      cases hc : isTabOrNewline c with
      | true =>
          have hesc : isEscaped c = false := by
            by_contra h
            rcases escaped_cases (by simpa using h) with rfl | rfl | rfl | rfl <;>
              exact absurd hc (by decide)
          rw [escapeChar_of_not hesc, List.filter_cons_of_neg (by rw [hc]; decide),
            List.filter_cons_of_neg (by rw [hc]; decide)]
          rfl
      | false =>
          have hall := forall_mem_escapeChar (P := fun d => (!isTabOrNewline d) = true)
            (by rw [hc]; rfl) (by decide)
          rw [List.filter_cons_of_pos (by rw [hc]; rfl), List.filter_eq_self.mpr hall, escape_cons]

theorem withoutHash_escape (t : Text) : withoutHash (escape t) = escape (withoutHash t) := by
  induction t with
  | nil => rfl
  | cons c t ih =>
      by_cases hc : c = '#'
      · subst hc
        rfl
      · have hno : '#' ∉ escapeChar c := fun hm =>
          forall_mem_escapeChar (P := fun d => d ≠ '#') hc (by decide) '#' hm rfl
        rw [escape_cons, withoutHash_append hno, ih]
        rw [show withoutHash (c :: t) = c :: withoutHash t from
          List.takeWhile_cons_of_pos (by simpa using hc), escape_cons]

/-- Sending and writing down may be exchanged. -/
theorem sent_escape (t : Text) : sent (escape t) = escape (sent t) := by
  rw [sent, sent, rdropWhile_escape, filter_escape, withoutHash_escape]

/-- The first letters of the references that are written. -/
def isReferenceLetter (c : Char) : Bool := c ∈ ['a', 'l', 'g', 'n']

/-- What follows the ampersand where a character is replaced. -/
theorem escapeChar_of_escaped {c : Char} (h : isEscaped c = true) :
    ∃ d w, escapeChar c = '&' :: d :: w ∧ isReferenceLetter d = true ∧ '&' ∉ d :: w := by
  rcases escaped_cases h with rfl | rfl | rfl | rfl
  · exact ⟨'a', "mp;".toList, by decide, by decide, by decide⟩
  · exact ⟨'l', "t;".toList, by decide, by decide, by decide⟩
  · exact ⟨'g', "t;".toList, by decide, by decide, by decide⟩
  · exact ⟨'n', "bsp;".toList, by decide, by decide, by decide⟩

/-- Behind an ampersand of a written text begins a reference. -/
theorem pieces_of_escape (t : Text) : ∀ {d : Char} {w : Text}, isReferenceLetter d = true →
    '&' ∉ d :: w → ∀ piece ∈ ((d :: w) ++ escape t).splitOn '&',
      ∃ e r, piece = e :: r ∧ isReferenceLetter e = true := by
  induction t with
  | nil =>
      intro d w hd hno piece hpiece
      rw [escape_nil, List.append_nil, splitOn_of_not_mem hno, List.mem_singleton] at hpiece
      exact ⟨d, w, hpiece, hd⟩
  | cons c t ih =>
      intro d w hd hno piece hpiece
      cases hc : isEscaped c with
      | false =>
          have hamp : c ≠ '&' := by
            rintro rfl
            exact absurd hc (by decide)
          refine ih (w := w ++ [c]) hd (fun hm => ?_) piece ?_
          · rw [← List.cons_append, List.mem_append, List.mem_singleton] at hm
            exact hm.elim hno fun h => hamp h.symm
          · rw [escape_cons, escapeChar_of_not hc, ← List.append_assoc] at hpiece
            exact hpiece
      | true =>
          obtain ⟨e, v, hesc, he, hno'⟩ := escapeChar_of_escaped hc
          have hsplit := splitOn_append_cons hno ((e :: v) ++ escape t)
          rw [escape_cons, hesc] at hpiece
          rcases List.mem_cons.mp (hsplit ▸ hpiece) with rfl | hpiece
          · exact ⟨d, w, rfl, hd⟩
          · exact ih he hno' piece hpiece

/-- The first character that is replaced. -/
theorem first_escaped (t : Text) (h : ∃ c ∈ t, isEscaped c ≠ false) :
    ∃ p c rest, t = p ++ c :: rest ∧ isEscaped c = true ∧ ∀ d ∈ p, isEscaped d = false := by
  induction t with
  | nil =>
      obtain ⟨c, hc, -⟩ := h
      cases hc
  | cons c t ih =>
      cases hc : isEscaped c with
      | true => exact ⟨[], c, t, rfl, hc, fun _ h => absurd h List.not_mem_nil⟩
      | false =>
          obtain ⟨d, hd, hesc⟩ := h
          have hmem : d ∈ t := by
            rcases List.mem_cons.mp hd with rfl | hmem
            · exact absurd hc hesc
            · exact hmem
          obtain ⟨p, e, rest, rfl, he, hp⟩ := ih ⟨d, hmem, hesc⟩
          refine ⟨c :: p, e, rest, rfl, he, fun x hx => ?_⟩
          rcases List.mem_cons.mp hx with rfl | hx
          · exact hc
          · exact hp x hx

theorem fileName_links : FileName "links.js".toList := by decide

/-- The server reads the text up to the first character that was replaced. -/
theorem queryText_escape (t : Text) :
    queryText (target (reference "links.js".toList (escape t))) ['q'] =
      decoded ((sent t).takeWhile fun c => !isEscaped c) := by
  rw [queryText_target fileName_links, sent_escape]
  by_cases hall : ∀ c ∈ sent t, isEscaped c = false
  · have hand : '&' ∉ sent t := fun hm => absurd (hall _ hm) (by decide)
    have htake : (sent t).takeWhile (fun c => !isEscaped c) = sent t :=
      List.takeWhile_eq_self_iff.mpr fun c hc => by rw [hall c hc]; rfl
    rw [htake, escape_eq_self hall]
    exact valueText_q hand
  · push Not at hall
    obtain ⟨p, c, rest, hsplit, hc, hp⟩ := first_escaped (sent t) hall
    obtain ⟨d, w, hesc, hd, hno⟩ := escapeChar_of_escaped hc
    have htake : (sent t).takeWhile (fun c => !isEscaped c) = p := by
      rw [hsplit, List.takeWhile_append_of_pos fun c hc => by rw [hp c hc]; rfl,
        List.takeWhile_cons_of_neg (by rw [hc]; decide), List.append_nil]
    have hwritten : escape (sent t) = p ++ '&' :: (d :: w ++ escape rest) := by
      rw [hsplit, escape_append, escape_cons, hesc, escape_eq_self hp]
      rfl
    rw [htake, hwritten]
    refine valueText_q_and (fun hm => absurd (hp _ hm) (by decide)) fun piece hpiece => ?_
    obtain ⟨e, r, rfl, he⟩ := pieces_of_escape rest hd hno piece hpiece
    refine parameter_cons_ne (fun hm => ?_) r
    exact (by decide : ∀ e ∈ ['q', '=', '+', '%'], isReferenceLetter e ≠ true) e hm he

/-! ## Keys that pass -/

/-- The key has no character that means something in markup or in a query. -/
structure Passes (k : Text) : Prop where
  chars : ∀ c ∈ k, c ∉ ['&', '<', '>', '#', '+']
  noEscape : NoEscape k

/-- A text that can be a key: printable, with a bracket at its end. -/
structure KeyText (k : Text) : Prop where
  printable : ∀ c ∈ k, Printable c
  last : k.getLast? = some ']'

theorem getLast?_strTail (l : List (Option PyString)) : (strTail l).getLast? = some ']' := by
  induction l with
  | nil => rfl
  | cons a l ih =>
      have hne : strTail l ≠ [] := by
        intro h
        rw [h] at ih
        cases ih
      rw [strTail, ← ih, show ',' :: ' ' :: (reprElem a ++ strTail l) =
        (',' :: ' ' :: reprElem a) ++ strTail l from rfl, List.getLast?_append_of_ne_nil _ hne]

theorem keyText_strList (l : List (Option PyString)) : KeyText (strList l) where
  printable := fun _ h => printable_of_mem_strList h
  last := by
    cases l with
    | nil => rfl
    | cons a l =>
        have hlast := getLast?_strTail l
        have hne : strTail l ≠ [] := by
          intro h
          rw [h] at hlast
          cases hlast
        rw [strList, ← hlast, show '[' :: (reprElem a ++ strTail l) =
          ('[' :: reprElem a) ++ strTail l from rfl, List.getLast?_append_of_ne_nil _ hne]

section

variable {k : Text}

theorem KeyText.not_mem (hk : KeyText k) {c : Char} (hc : ¬Printable c) : c ∉ k :=
  fun hm => hc (hk.printable c hm)

theorem KeyText.sent_eq (hk : KeyText k) (hhash : '#' ∉ k) : sent k = k := by
  refine sent_eq_self (fun c hc => ?_) fun c hc => ⟨(hk.printable c hc).1, ?_⟩
  · rw [hk.last, Option.mem_some_iff] at hc
    rw [← hc]
    decide
  · rintro rfl
    exact hhash hc

theorem isEscaped_of_printable {c : Char} (hc : Printable c) (h : c ∉ ['&', '<', '>', '#', '+']) :
    isEscaped c = false := by
  by_contra hesc
  simp only [List.mem_cons, List.not_mem_nil, or_false, not_or] at h
  rcases escaped_cases (by simpa using hesc) with rfl | rfl | rfl | rfl
  · exact h.1 rfl
  · exact h.2.1 rfl
  · exact h.2.2.1 rfl
  · exact absurd hc (by decide)

theorem plus_not_mem_map (t : Text) : '+' ∉ t.map blankForPlus := by
  intro hm
  obtain ⟨c, -, hc⟩ := List.mem_map.mp hm
  unfold blankForPlus at hc
  split at hc
  · exact absurd hc (by decide)
  · rename_i hne
    exact hne hc

/-- A key that passes is read by the server as it is. -/
theorem queryText_of_passes (hk : KeyText k) (h : Passes k) :
    queryText (target (reference "links.js".toList (escape k))) ['q'] = k := by
  have hesc : ∀ c ∈ k, isEscaped c = false := fun c hc =>
    isEscaped_of_printable (hk.printable c hc) (h.chars c hc)
  have hplus : '+' ∉ k := fun hm => h.chars _ hm (by decide)
  rw [queryText_escape, hk.sent_eq fun hm => h.chars _ hm (by decide),
    List.takeWhile_eq_self_iff.mpr fun c hc => by rw [hesc c hc]; rfl, decoded,
    map_blankForPlus hplus]
  exact unescape_eq_self_iff.mpr h.noEscape

/-- A key that the server reads from its button passes. -/
theorem passes_of_queryText {d : Text} (hshows : d = k ∨ d.length < k.length)
    (h : queryText (target (reference "links.js".toList (escape d))) ['q'] = k) : Passes k := by
  rw [queryText_escape] at h
  have htake : ((sent d).takeWhile fun c => !isEscaped c) <+: sent d := List.takeWhile_prefix _
  have hsent := sent_sublist d
  -- the key is at most as long as the text, so nothing on the way was lost
  have hle : k.length ≤ ((sent d).takeWhile fun c => !isEscaped c).length := by
    rcases decoded_cases ((sent d).takeWhile fun c => !isEscaped c) with ⟨-, heq⟩ | hlt
    · rw [← h, heq, List.length_map]
    · rw [← h]
      exact Nat.le_of_lt hlt
  have hd : d = k := by
    refine hshows.resolve_right fun hlt => ?_
    have h1 := htake.length_le
    have h2 := hsent.length_le
    omega
  subst hd
  have hsame : sent d = d := hsent.eq_of_length_le (Nat.le_trans hle htake.length_le)
  rw [hsame] at h hle htake
  have hwhole : (d.takeWhile fun c => !isEscaped c) = d := htake.eq_of_length_le hle
  rw [hwhole] at h
  obtain ⟨hno, heq⟩ : NoEscape (d.map blankForPlus) ∧ decoded d = d.map blankForPlus := by
    refine (decoded_cases d).resolve_right fun hlt => ?_
    rw [h] at hlt
    exact Nat.lt_irrefl _ hlt
  have hmap : d.map blankForPlus = d := heq.symm.trans h
  refine ⟨fun c hc hbad => ?_, hmap ▸ hno⟩
  have hesc : isEscaped c = false := by
    have := List.takeWhile_eq_self_iff.mp hwhole c hc
    simpa using this
  simp only [List.mem_cons, List.not_mem_nil, or_false] at hbad
  rcases hbad with rfl | rfl | rfl | rfl | rfl
  · exact absurd hesc (by decide)
  · exact absurd hesc (by decide)
  · exact absurd hesc (by decide)
  · exact hash_not_mem_withoutHash _ (show '#' ∈ sent d by rw [hsame]; exact hc)
  · exact plus_not_mem_map d (hmap.symm ▸ hc)

end

/-! ## Opening a chat -/

section

-- `mime.lookup`, the working directory of the server, the session and the state
variable (mime : Text → Text) (cwd : Path) (A : SessionID) (σ : WebState)

/-- A click on a button with the given markup opens the chat of a key: the server
reads the key and answers the messages. -/
def Opens (markup key : Text) (messages : List Message) : Prop :=
  ∃ url, getLinks markup = some url ∧ queryText url "q".toList = key ∧
    respond mime cwd A url σ = .ended (some (Json.arr (messages.map Message.json)).stringify)

end

theorem forall₂_getElem? {P : Text → Text → Prop} {rs ds : List Text} (h : List.Forall₂ P rs ds) :
    ∀ {i : Nat} {r : Text}, rs[i]? = some r → ∃ d, ds[i]? = some d ∧ P r d := by
  induction h with
  | nil => intro i r hi; cases hi
  | cons hp _ ih =>
      intro i r hi
      cases i with
      | zero =>
          cases hi
          exact ⟨_, rfl, hp⟩
      | succ i => exact ih hi

section

variable {H : HashOrder} {user : Text} {doc : Document} {fb : Fb} {A : SessionID} {σ : WebState}

/-- The keys that the server answers can be put on buttons, if they open no
markup. -/
theorem showable_of_livesearch (hfb : (extract H user doc).result = .ok fb)
    (hdata : σ.userData A.text = some (fb.json H)) {url : Text} {results : List Text}
    (hresults : livesearch σ.userData A url = .ok results) {r : Text} (hr : r ∈ results)
    (htag : ∀ c, opensTag c = true → ¬['<', c] <:+: r) :
    r ∈ fb.chats.keys ∧ KeyText r ∧ Showable r := by
  obtain ⟨u, hurl⟩ := parse_of_livesearch hresults
  obtain ⟨results', hsearch, hmem⟩ := livesearch_stored hfb hdata hurl
  rw [hsearch, Except.ok.injEq] at hresults
  subst hresults
  have hkey := ((hmem r).mp hr).1
  obtain ⟨l, hl, -⟩ := key_of_extract hfb hkey
  have htext : KeyText r := hl ▸ keyText_strList l
  exact ⟨hkey, htext, ⟨htext.not_mem (by decide), htag⟩, htext.not_mem (by decide)⟩

/-- The route that a click asks is `/links.js`, and it answers the messages of the
key it reads. -/
theorem respond_links (mime : Text → Text) (cwd : Path)
    (hdata : σ.userData A.text = some (fb.json H)) {text key : Text} (hkey : key ∈ fb.chats.keys)
    (hquery : queryText (target (reference "links.js".toList text)) "q".toList = key) :
    respond mime cwd A (target (reference "links.js".toList text)) σ =
      .ended (some (Json.arr ((fb.chats.listAt key).map Message.json)).stringify) := by
  have hroute : routeOf ('/' :: "links.js".toList) = .links := by decide
  rw [respond, routePath_target fileName_links]
  dsimp only
  rw [hroute, answer, links_stored hdata (parse_target fileName_links text) hkey hquery]
  rfl

/-- When no suggestion opens markup, a click on the button of a key opens the chat
of the key exactly when the key has none of `&`, `<`, `>`, `#` and `+` and no
percent escape. -/
theorem picked_chat_opens_iff (hfb : (extract H user doc).result = .ok fb)
    (hdata : σ.userData A.text = some (fb.json H)) {E : Html} {R : References} (hrules : E.Rules R)
    {url : Text} {results : List Text} (hresults : livesearch σ.userData A url = .ok results)
    (htag : ∀ r ∈ results, ∀ c, opensTag c = true → ¬['<', c] <:+: r)
    (mime : Text → Text) (cwd : Path) {i : Nat} {key : Text} (hi : results[i]? = some key) :
    (∃ markup, (E.buttons (showResult E results))[i]? = some markup ∧
      Opens mime cwd A σ markup key (fb.chats.listAt key)) ↔ Passes key := by
  have hshowable : ∀ r ∈ results, r ∈ fb.chats.keys ∧ KeyText r ∧ Showable r := fun r hr =>
    showable_of_livesearch hfb hdata hresults hr (htag r hr)
  obtain ⟨ds, hds, -, -, hbuttons⟩ :=
    showResult_buttons hrules results fun r hr => (hshowable r hr).2.2
  obtain ⟨d, hd, hshows⟩ := forall₂_getElem? hds hi
  obtain ⟨hkey, htext, -⟩ := hshowable key (List.mem_of_getElem? hi)
  have hbutton : (E.buttons (showResult E results))[i]? = some (escape d) := by
    rw [hbuttons, List.getElem?_map, hd]
    rfl
  constructor
  · rintro ⟨markup, hmarkup, url', hlinks, hquery, -⟩
    rw [hbutton, Option.some.injEq] at hmarkup
    subst hmarkup
    unfold getLinks at hlinks
    split at hlinks
    · cases hlinks
    · rw [Option.some.injEq] at hlinks
      subst hlinks
      exact passes_of_queryText hshows.shorter hquery
  · intro hpasses
    have hsame : d = key := hshows.same fun hm => hpasses.chars _ hm (by decide)
    subst hsame
    have hquery := queryText_of_passes htext hpasses
    have hne : escape d ≠ [] := by
      intro h
      have hesc : ∀ c ∈ d, isEscaped c = false := fun c hc =>
        isEscaped_of_printable (htext.printable c hc) (hpasses.chars c hc)
      have hlast := htext.last
      rw [← escape_eq_self hesc, h] at hlast
      cases hlast
    exact ⟨escape d, hbutton, _, by rw [getLinks, if_neg hne], hquery,
      respond_links mime cwd hdata hkey hquery⟩

end

/-! ## A page with one button -/

/-- The references that are written. -/
def writtenReferences : References where
  read := fun r =>
    if "amp;".toList <+: r then some (['&'], 4)
    else if "lt;".toList <+: r then some (['<'], 3)
    else if "gt;".toList <+: r then some (['>'], 3)
    else if "nbsp;".toList <+: r then some (['\u00a0'], 5)
    else none
  shorter := by
    intro r u n h
    split_ifs at h with h1 h2 h3 h4 <;> cases h
    · exact ⟨by decide, h1.length_le⟩
    · exact ⟨by decide, h2.length_le⟩
    · exact ⟨by decide, h3.length_le⟩
    · exact ⟨by decide, h4.length_le⟩
  noNull := by
    intro r u n h
    split_ifs at h <;> cases h <;> decide
  amp := fun r => by simp
  lt := fun r => by simp
  gt := fun r => by simp
  nbsp := fun r => by simp

/-- The texts that end with an end tag, from a place in a tag or in a text. -/
def tagged : Bool → Text → Text → List Text
  | _, _, [] => []
  | true, _, c :: rest => tagged (c ≠ '>') [] rest
  | false, read, c :: rest =>
      match rest.head? with
      | some '/' => if c = '<' then read :: tagged true [] rest else tagged false (read ++ [c]) rest
      | some d =>
          if c = '<' ∧ opensTag d then tagged true [] rest else tagged false (read ++ [c]) rest
      | none => []

/-- Pages of buttons with texts. -/
def buttonPages (R : References) : Html where
  Content := List Text
  parse := fun markup => (tagged false [] markup).map R.text
  markup := fun texts => texts.flatMap fun t => buttonMarkup (escape t)
  buttons := fun texts => texts.map escape

theorem tagged_text {t : Text} (h : ∀ c, opensTag c = true → ¬['<', c] <:+: t) (rest : Text) :
    ∀ read, tagged false read (t ++ ("</button>".toList ++ rest)) =
      (read ++ t) :: tagged false [] rest := by
  induction t with
  | nil =>
      intro read
      rw [List.append_nil]
      rfl
  | cons c t ih =>
      intro read
      have ht := ih (fun d hd hpart => h d hd (hpart.trans (List.suffix_cons c t).isInfix))
        (read ++ [c])
      rw [List.append_assoc, List.singleton_append] at ht
      -- the next character does not open a tag behind `c`
      have hnext : ∃ d, (t ++ ("</button>".toList ++ rest)).head? = some d ∧
          ¬(c = '<' ∧ opensTag d = true) := by
        cases t with
        | nil => exact ⟨'<', rfl, fun hc => absurd hc.2 (by decide)⟩
        | cons d t =>
            refine ⟨d, rfl, ?_⟩
            rintro ⟨rfl, hd⟩
            exact h d hd ⟨[], t, rfl⟩
      obtain ⟨d, hhead, hno⟩ := hnext
      rw [List.cons_append, tagged, hhead]
      by_cases hslash : d = '/'
      · subst hslash
        have hc : c ≠ '<' := fun hc => hno ⟨hc, by decide⟩
        simp only [if_neg hc]
        exact ht
      · simp only [if_neg hno]
        exact ht

theorem tagged_tag {w : Text} (h : '>' ∉ w) (x : Text) :
    tagged true [] (w ++ '>' :: x) = tagged false [] x := by
  induction w with
  | nil => rfl
  | cons c w ih =>
      have hc : c ≠ '>' := fun heq => h (heq ▸ List.mem_cons_self)
      rw [List.cons_append, tagged, decide_eq_true hc]
      exact ih fun hm => h (List.mem_cons_of_mem _ hm)

theorem tagged_open (x : Text) : tagged false []
    ("<button type=\"button\" onclick=\"getLinks(this.innerHTML)\">".toList ++ x) =
      tagged false [] x := by
  have hsplit : "<button type=\"button\" onclick=\"getLinks(this.innerHTML)\">".toList =
      '<' :: 'b' :: ("utton type=\"button\" onclick=\"getLinks(this.innerHTML)\"".toList ++ ['>']) := by
    decide
  have hskip := tagged_tag (w := 'b' ::
    "utton type=\"button\" onclick=\"getLinks(this.innerHTML)\"".toList) (by decide) x
  rw [← hskip, hsplit, List.cons_append, List.cons_append, List.append_assoc, tagged]
  simp only [List.head?_cons]
  rw [if_pos (by decide)]
  rfl

theorem tagged_buttons (ts : List Text) (h : ∀ t ∈ ts, PlainText t) :
    tagged false [] (ts.flatMap buttonMarkup) = ts := by
  induction ts with
  | nil => rfl
  | cons t ts ih =>
      have hrest := ih fun x hx => h x (List.mem_cons_of_mem _ hx)
      have htext := tagged_text (h t List.mem_cons_self).noTag (ts.flatMap buttonMarkup) []
      rw [hrest, List.nil_append] at htext
      rw [List.flatMap_cons]
      unfold buttonMarkup
      rw [List.append_assoc, List.append_assoc]
      exact (tagged_open _).trans htext

theorem rules_buttonPages (R : References) : (buttonPages R).Rules R where
  markup_parse := by
    intro ts h
    simp only [buttonPages, tagged_buttons ts h, List.flatMap_map]
  buttons_parse := by
    intro ts h
    simp only [buttonPages, tagged_buttons ts h, List.map_map]
    rfl

/-- A conversation with one other person. -/
def oneChat (name : String) : List SourceThread := [[sampleMessage name "hello"]]

/-- What is extracted of it. -/
def oneChatFb (name : String) : Fb :=
  ⟨"0a1b".toList,
    Dict.empty.assignAll (((oneChat name).map SourceThread.kept).map (Kept.entry .insertion))⟩

/-- A server that has no files and the conversation as the data of each session. -/
def oneChatState (name : String) : WebState where
  userData := fun _ => some ((oneChatFb name).json .insertion)
  files := ⟨fun p => if p = [] then some .dir else none, rfl, by simp⟩

theorem extract_oneChat (name : String) :
    (extract .insertion "0a1b".toList (rawDocument (oneChat name))).result = .ok (oneChatFb name) :=
  extract_result .insertion _ (forall₂_kept (oneChat name))

/-- The chat with a person of a plain name opens. -/
theorem chat_of_plain_name_opens :
    ∃ markup, ((buttonPages writtenReferences).buttons
        (showResult (buttonPages writtenReferences) ["['Ann']".toList]))[0]? = some markup ∧
      Opens id [] sampleSession (oneChatState "Ann") markup "['Ann']".toList
        ((oneChatFb "Ann").chats.listAt "['Ann']".toList) := by
  have hresults : livesearch (oneChatState "Ann").userData sampleSession
      "/livesearch.js?q=A".toList = .ok ["['Ann']".toList] := by decide +kernel
  have htag : ∀ r ∈ ["['Ann']".toList], ∀ c, opensTag c = true → ¬['<', c] <:+: r := by
    intro r hr c _ hpart
    rw [List.mem_singleton.mp hr] at hpart
    exact absurd (hpart.subset List.mem_cons_self) (by decide)
  exact (picked_chat_opens_iff (extract_oneChat "Ann") rfl (rules_buttonPages writtenReferences)
    hresults htag id [] (by rfl)).mpr ⟨by decide, unescape_eq_self_iff.mp (by decide)⟩

/-- The key of a name with an ampersand is cut at it, and its chat does not open. -/
theorem chat_of_name_with_ampersand_not_opened :
    (extract .insertion "0a1b".toList (rawDocument (oneChat "Tom & Ann"))).result =
        .ok (oneChatFb "Tom & Ann") ∧
      livesearch (oneChatState "Tom & Ann").userData sampleSession "/livesearch.js?q=Tom".toList =
        .ok ["['Tom & Ann']".toList] ∧
      ¬∃ markup, ((buttonPages writtenReferences).buttons
          (showResult (buttonPages writtenReferences) ["['Tom & Ann']".toList]))[0]? = some markup ∧
        Opens id [] sampleSession (oneChatState "Tom & Ann") markup "['Tom & Ann']".toList
          ((oneChatFb "Tom & Ann").chats.listAt "['Tom & Ann']".toList) := by
  refine ⟨extract_oneChat _, by decide +kernel, ?_⟩
  rintro ⟨markup, hmarkup, url, hurl, hquery, -⟩
  have hbutton : ((buttonPages writtenReferences).buttons
      (showResult (buttonPages writtenReferences) ["['Tom & Ann']".toList]))[0]? =
        some "['Tom &amp; Ann']".toList := by decide +kernel
  rw [hbutton, Option.some.injEq] at hmarkup
  subst hmarkup
  have hlinks : getLinks "['Tom &amp; Ann']".toList =
      some "/links.js?q=[%27Tom%20&amp;%20Ann%27]".toList := by decide +kernel
  rw [hlinks, Option.some.injEq] at hurl
  subst hurl
  revert hquery
  decide +kernel

end Browser
