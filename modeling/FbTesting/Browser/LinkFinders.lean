import Mathlib.Data.List.Chain
import FbTesting.Analyser.Links
import FbTesting.Browser.LinkList

/-!
# The two link finders

Links are found twice, by `find_links` on the server and by `getLinks` in the browser, with
two patterns that were written for the same purpose.  Here they are compared on texts in
which there is no doubt what the links are: URLs of RFC 3986 with separators between them.

Each pattern has its own gaps.  The one of the server has no `~` and no `#`, and it has the
angle brackets, so that a URL before a tag does not end where it should.  The one of the
browser has none of `~!()*=:@` after the host, it wants a letter or a digit at the beginning
of the host, and, since its part for the port begins with a colon, also at the end of a host
that has a port.  `linkPattern_findall_iff` and `re_findall_iff` say exactly on which texts
each pattern finds the URLs and nothing else.
-/

namespace Browser

open Base Analyser

/-! ## Texts of URLs -/

/-- The characters of a path in RFC 3986. -/
def isPathChar (c : Char) : Bool := c.isAlphanum || "-._~!$&'()*+,;=:@%/".toList.contains c

/-- The characters of a query or a fragment. -/
def isQueryChar (c : Char) : Bool := isPathChar c || c == '?'

/-- An optional part of a URL with the character that introduces it. -/
def part (lead : Char) : Option Text → Text
  | none => []
  | some t => lead :: t

/-- A URL. -/
structure Url where
  https : Bool
  host : Text
  port : Option Text
  path : Text
  query : Option Text
  fragment : Option Text
  host_ne_nil : host ≠ []
  host_chars : ∀ c ∈ host, c.isAlphanum = true ∨ c ∈ ".-".toList
  port_digits : ∀ ds ∈ port, ∀ c ∈ ds, c.isDigit = true
  path_slash : ∀ c ∈ path.head?, c = '/'
  path_chars : ∀ c ∈ path, isPathChar c = true
  query_chars : ∀ t ∈ query, ∀ c ∈ t, isQueryChar c = true
  fragment_chars : ∀ t ∈ fragment, ∀ c ∈ t, isQueryChar c = true

namespace Url

variable (u : Url)

/-- The scheme, with the slashes. -/
def scheme : Text := if u.https then "https://".toList else "http://".toList

/-- What follows the host and the port. -/
def rest : Text := u.path ++ (part '?' u.query ++ part '#' u.fragment)

/-- The URL as it is written. -/
def text : Text := u.scheme ++ (u.host ++ (part ':' u.port ++ u.rest))

end Url

/-- The characters that separate URLs. -/
def separators : List Char := " <>\"".toList

/-- A text of URLs: separators, and then URLs, each with the separators after it.  Only
the last URL may have none. -/
structure LinkText where
  lead : Text
  links : List (Url × Text)
  lead_separators : ∀ c ∈ lead, c ∈ separators
  links_separators : ∀ l ∈ links, ∀ c ∈ l.2, c ∈ separators
  apart : links.IsChain fun l _ => l.2 ≠ []

/-- URLs and separators as they are written. -/
def written (links : List (Url × Text)) : Text := links.flatMap fun l => l.1.text ++ l.2

/-- The text. -/
def LinkText.text (T : LinkText) : Text := T.lead ++ written T.links

/-- The URLs of the text, in order. -/
def LinkText.urls (T : LinkText) : List Text := T.links.map fun l => l.1.text

/-! ## The characters of a URL -/

namespace Url

variable {u : Url}

theorem scheme_mem (u : Url) : u.scheme ∈ schemes := by
  rw [scheme]
  split <;> decide

theorem text_ne_nil (u : Url) : u.text ≠ [] :=
  List.append_ne_nil_of_right_ne_nil u.scheme
    (List.append_ne_nil_of_left_ne_nil u.host_ne_nil _)

/-- What follows the host begins with a delimiter. -/
theorem head_rest (u : Url) : ∀ c ∈ u.rest.head?, c ∈ "/?#".toList := by
  intro c hc
  rw [rest] at hc
  cases hpath : u.path with
  | cons d path =>
      rw [hpath] at hc
      rw [← Option.some.inj hc, u.path_slash d (by rw [hpath]; rfl)]
      decide
  | nil =>
      rw [hpath] at hc
      cases hquery : u.query with
      | some t =>
          rw [hquery] at hc
          rw [← Option.some.inj hc]
          decide
      | none =>
          rw [hquery] at hc
          cases hfragment : u.fragment with
          | some t =>
              rw [hfragment] at hc
              rw [← Option.some.inj hc]
              decide
          | none =>
              rw [hfragment] at hc
              cases hc

/-- The characters other than letters and digits that can follow the host. -/
def restMarks : List Char := "-._~!$&'()*+,;=:@%/?#".toList

theorem mem_restMarks_of_isQueryChar {c : Char} (h : isQueryChar c = true) :
    c.isAlphanum = true ∨ c ∈ restMarks := by
  simp only [isQueryChar, isPathChar, Bool.or_eq_true, beq_iff_eq, List.contains_iff_mem] at h
  rcases h with (halnum | hmem) | rfl
  · exact Or.inl halnum
  · have hsub : ∀ d ∈ "-._~!$&'()*+,;=:@%/".toList, d ∈ restMarks := by decide
    exact Or.inr (hsub c hmem)
  · exact Or.inr (by decide)

theorem mem_part {lead c : Char} {t : Option Text} (h : c ∈ part lead t) :
    c = lead ∨ ∃ x ∈ t, c ∈ x := by
  cases t with
  | none => cases h
  | some x => exact (List.mem_cons.mp h).imp_right fun hx => ⟨x, rfl, hx⟩

theorem rest_chars (u : Url) : ∀ c ∈ u.rest, c.isAlphanum = true ∨ c ∈ restMarks := by
  intro c hc
  rcases List.mem_append.mp hc with hpath | hc
  · exact mem_restMarks_of_isQueryChar (by rw [isQueryChar, u.path_chars c hpath, Bool.true_or])
  · rcases List.mem_append.mp hc with hquery | hfragment
    · rcases mem_part hquery with rfl | ⟨t, ht, hc⟩
      · exact Or.inr (by decide)
      · exact mem_restMarks_of_isQueryChar (u.query_chars t ht c hc)
    · rcases mem_part hfragment with rfl | ⟨t, ht, hc⟩
      · exact Or.inr (by decide)
      · exact mem_restMarks_of_isQueryChar (u.fragment_chars t ht c hc)

theorem port_chars (u : Url) : ∀ c ∈ part ':' u.port, c = ':' ∨ c.isDigit = true := by
  intro c hc
  refine (mem_part hc).imp_right ?_
  rintro ⟨ds, hds, hmem⟩
  exact u.port_digits ds hds c hmem

end Url

/-! ## Searching a text of URLs -/

section

variable {r : Regex} {Q : Url × Text → Prop}

/-- A pattern finds the URLs and nothing else if each URL that meets a condition is found
where it begins, and no other is. -/
theorem findall_written_iff (hnil : r.first [] = none)
    (hstep : ∀ (l : Url × Text) (t : Text) (xs : List Text), (∀ c ∈ l.2, c ∈ separators) →
      (l.2 = [] → t = []) →
      (r.findall (l.1.text ++ (l.2 ++ t)) = l.1.text :: xs ↔ Q l ∧ r.findall t = xs)) :
    ∀ {links : List (Url × Text)}, (∀ l ∈ links, ∀ c ∈ l.2, c ∈ separators) →
      (links.IsChain fun l _ => l.2 ≠ []) →
      (r.findall (written links) = links.map (fun l => l.1.text) ↔ ∀ l ∈ links, Q l)
  | [], _, _ => by
      refine iff_of_true (Regex.findall_nil hnil) ?_
      exact fun l hl => absurd hl List.not_mem_nil
  | l :: links, hsep, hchain => by
      obtain ⟨hl, hlinks⟩ := List.forall_mem_cons.mp hsep
      have hlast : l.2 = [] → written links = [] := by
        intro hempty
        cases links with
        | nil => rfl
        | cons m links => exact absurd hempty (List.isChain_cons_cons.mp hchain).1
      have ih := findall_written_iff hnil hstep hlinks (List.IsChain.tail hchain)
      rw [written, List.flatMap_cons, List.append_assoc, List.map_cons, List.forall_mem_cons, ← ih]
      exact hstep l (written links) _ hl hlast

/-- Of a text the separators at its beginning do not count. -/
theorem findall_text (hskip : ∀ c ∈ separators, ∀ t, r.first (c :: t) = none) (T : LinkText) :
    r.findall T.text = r.findall (written T.links) :=
  Regex.findall_skip (fun c hc => hskip c (T.lead_separators c hc)) _

/-- A URL is followed by its separators or by nothing. -/
theorem head?_append_of_last {sep t : Text} (h : sep = [] → t = []) :
    (sep ++ t).head? = sep.head? := by
  cases sep with
  | nil =>
      rw [h rfl]
      rfl
  | cons c sep => rfl

end

/-! ## The pattern of the server -/

theorem isUrlChar_of_isAlphanum (c : Char) (h : c.isAlphanum = true) : isUrlChar c = true := by
  rw [Char.isAlphanum] at h
  rw [isUrlChar, ← Bool.or_assoc, h, Bool.true_or]

/-- The characters that the server does not know of are a tilde and a number sign. -/
theorem isUrlChar_iff {c : Char} (h : c.isAlphanum = true ∨ c ∈ Url.restMarks) :
    isUrlChar c = true ↔ c ∉ "~#".toList :=
  class_iff_not_mem isUrlChar_of_isAlphanum (by decide) (by decide) h

theorem isUrlChar_of_host {u : Url} {c : Char} (h : c ∈ u.host) : isUrlChar c = true := by
  cases u.host_chars c h with
  | inl halnum => exact isUrlChar_of_isAlphanum c halnum
  | inr hmark =>
      have hall : ∀ d ∈ ".-".toList, isUrlChar d = true := by decide
      exact hall c hmark

theorem forall_isUrlChar_text_iff (u : Url) :
    (∀ c ∈ u.text, isUrlChar c = true) ↔ ∀ c ∈ u.rest, c ∉ "~#".toList := by
  have hport : ∀ c ∈ part ':' u.port, isUrlChar c = true := by
    intro c hc
    rcases u.port_chars c hc with rfl | hdigit
    · decide
    · exact isUrlChar_of_isAlphanum c (by rw [Char.isAlphanum, hdigit, Bool.or_true])
  rw [Url.text, List.forall_mem_append, List.forall_mem_append, List.forall_mem_append,
    and_iff_right (isUrlChar_of_mem_scheme u.scheme_mem),
    and_iff_right fun c hc => isUrlChar_of_host hc, and_iff_right hport]
  exact forall₂_congr fun c hc => isUrlChar_iff (u.rest_chars c hc)

/-- A URL is taken for the start of a link. -/
theorem startsLink_text (u : Url) (t : Text) : StartsLink (u.text ++ t) := by
  obtain ⟨c, w, hhost⟩ := List.exists_cons_of_ne_nil u.host_ne_nil
  have hc : isUrlChar c = true := isUrlChar_of_host (by rw [hhost]; exact List.mem_cons_self)
  refine ⟨u.scheme, u.scheme_mem, c, w ++ (part ':' u.port ++ u.rest) ++ t, hc, ?_⟩
  rw [Url.text, hhost, List.append_assoc]
  rfl

theorem first_linkPattern_separator : ∀ c ∈ separators, ∀ t, linkPattern.first (c :: t) = none := by
  intro c hc t
  have hne : ∀ d ∈ separators, d ≠ 'h' := by decide
  exact Regex.first_seq_none (Regex.first_lit_ne (hne c hc) "ttp".toList t)

/-- The server finds the URLs of a text exactly when no URL has a tilde or a fragment, and
none is followed by an angle bracket. -/
theorem linkPattern_findall_iff (T : LinkText) :
    linkPattern.findall T.text = T.urls ↔
      ∀ l ∈ T.links, (∀ c ∈ l.1.rest, c ∉ "~#".toList) ∧ ∀ c ∈ l.2.head?, c ∉ "<>".toList := by
  rw [findall_text first_linkPattern_separator]
  refine findall_written_iff rfl (fun l t xs hsep hlast => ?_) T.links_separators T.apart
  have hhead : (∀ c ∈ l.2.head?, isUrlChar c = false) ↔ ∀ c ∈ l.2.head?, c ∉ "<>".toList := by
    have hall : ∀ c ∈ separators, isUrlChar c = false ↔ c ∉ "<>".toList := by decide
    exact forall₂_congr fun c hc => hall c (hsep c (List.mem_of_head? hc))
  rw [findall_of_startsLink (startsLink_text l.1 _), List.cons.injEq, takeWhile_append_eq_iff,
    head?_append_of_last hlast, forall_isUrlChar_text_iff, hhead]
  refine and_congr_right fun hfound => ?_
  have hclass := (forall_isUrlChar_text_iff l.1).mpr hfound.1
  have hrest : ∀ c ∈ (l.2 ++ t).head?, isUrlChar c = false := by
    rw [head?_append_of_last hlast]
    exact hhead.mpr hfound.2
  rw [List.dropWhile_append_of_pos hclass, dropWhile_of_head? hrest,
    Regex.findall_skip fun c hc => first_linkPattern_separator c (hsep c hc)]

/-! ## The pattern of the browser -/

/-- The host begins with a letter or a digit, and ends with one if there is a port. -/
structure Url.Regular (u : Url) : Prop where
  first : ∀ c ∈ u.host.head?, c.isAlphanum = true
  last : u.port ≠ none → ∀ c ∈ u.host.getLast?, c.isAlphanum = true

theorem first_re_separator : ∀ c ∈ separators, ∀ t, re.first (c :: t) = none := by
  intro c hc t
  have hh : ∀ d ∈ separators, d ≠ 'h' := by decide
  have hf : ∀ d ∈ separators, d ≠ 'f' := by decide
  have hht : (Regex.lit "ht".toList).first (c :: t) = none :=
    Regex.first_lit_ne (hh c hc) "t".toList t
  refine Regex.first_seq_none ?_
  rw [Regex.first_alt_right hht]
  exact Regex.first_lit_ne (hf c hc) [] t

/-- The scheme of a URL is taken. -/
theorem first_re_scheme (u : Url) {v x : Text} (h : hostPart.first v = some x) :
    re.first (u.scheme ++ v) = some x := by
  have hrest : (Regex.seq (.lit "://".toList) hostPart).first ("://".toList ++ v) = some x :=
    Regex.first_seq (Regex.first_lit_append _ _) h
  have hht : ∀ t, (Regex.alt (.lit "ht".toList) (.lit "f".toList)).first ("ht".toList ++ t) =
      some t := fun t => Regex.first_alt_left (Regex.first_lit_append _ _)
  rw [Url.scheme]
  cases u.https with
  | true =>
      refine Regex.first_seq (hht ("tps://".toList ++ v)) ?_
      refine Regex.first_seq (Regex.first_lit_append "tp".toList ("s://".toList ++ v)) ?_
      have hcolon : (Regex.lit "://".toList).first ("s://".toList ++ v) = none := rfl
      exact (Regex.first_seq_opt_char rfl (Regex.first_seq_none hcolon)).trans hrest
  | false =>
      refine Regex.first_seq (hht ("tp://".toList ++ v)) ?_
      refine Regex.first_seq (Regex.first_lit_append "tp".toList ("://".toList ++ v)) ?_
      exact (Regex.first_seq_opt_char_none rfl).trans hrest

/-- The slash is a character of the tail, too. -/
theorem first_tailPart (t : Text) : tailPart.first t = some (t.dropWhile isTailChar) := by
  have htail : ∀ t, (Regex.opt (.star (.char isTailChar))).first t =
      some (t.dropWhile isTailChar) := fun t =>
    Regex.first_alt_left (Regex.first_star_char isTailChar t)
  cases t with
  | nil => exact Regex.first_seq rfl (htail [])
  | cons c t =>
      by_cases hslash : c = '/'
      · rw [hslash, List.dropWhile_cons_of_pos (by decide)]
        exact Regex.first_seq rfl (htail t)
      · have hopt : (Regex.opt (.char (· == '/'))).first (c :: t) = some (c :: t) := by
          rw [Regex.opt, Regex.first_alt_char, if_neg (mt beq_iff_eq.mp hslash)]
          rfl
        exact Regex.first_seq hopt (htail (c :: t))

/-- Without a colon there is no port. -/
theorem first_portPart_stop {t : Text} (h : ∀ c ∈ t.head?, c ≠ ':') :
    portPart.first t = some t := by
  refine Regex.first_star_stop (Regex.first_seq_none ?_)
  cases t with
  | nil => rfl
  | cons c t => rw [Regex.first_char_cons, if_neg (mt beq_iff_eq.mp (h c rfl))]

/-- Of a port only the colon is taken. -/
theorem first_portPart_colon {ds t : Text} (hds : ∀ c ∈ ds, c.isDigit = true)
    (ht : ∀ c ∈ t.head?, c.isDigit = false ∧ c ≠ '-' ∧ c ≠ ':') :
    portPart.first (':' :: (ds ++ t)) = some (ds ++ t) := by
  have hlit : (Regex.lit "0-9".toList).first (ds ++ t) = none := by
    cases hfirst : (Regex.lit "0-9".toList).first (ds ++ t) with
    | none => rfl
    | some x =>
        obtain ⟨w, hw, heq⟩ := Regex.matches_of_first hfirst
        rw [Regex.matches_lit.mp hw] at heq
        match ds, hds, heq with
        | [], _, heq => exact absurd (ht '0' (by rw [← List.nil_append t, heq]; rfl)).1 (by decide)
        | [d], _, heq =>
            have htail : t = "-9".toList ++ x := (List.cons.inj heq).2
            exact absurd rfl (ht '-' (by rw [htail]; rfl)).2.1
        | d :: e :: ds, hds, heq =>
            have he : e = '-' := (List.cons.inj (List.cons.inj heq).2).1
            exact absurd (hds e (List.mem_cons_of_mem d List.mem_cons_self)) (by rw [he]; decide)
  have hstop : portPart.first (ds ++ t) = some (ds ++ t) := by
    refine first_portPart_stop fun c hc => ?_
    cases ds with
    | nil => exact (ht c hc).2.2
    | cons d ds =>
        rintro rfl
        have hdigit := hds d List.mem_cons_self
        rw [Option.some.inj hc] at hdigit
        exact absurd hdigit (by decide)
  exact Regex.first_star_step (Regex.first_seq rfl (Regex.first_star_stop hlit))
    (Nat.lt_succ_self _) hstop

/-- What can follow the host and the port of a URL in a text. -/
def stops : List Char := "/?# <>\"".toList

theorem head_rest_append (u : Url) {x : Text} (hx : ∀ c ∈ x.head?, c ∈ separators) :
    ∀ c ∈ (u.rest ++ x).head?, c ∈ stops := by
  intro c hc
  cases hrest : u.rest with
  | nil =>
      rw [hrest, List.nil_append] at hc
      have hsub : ∀ d ∈ separators, d ∈ stops := by decide
      exact hsub c (hx c hc)
  | cons d rest =>
      rw [hrest] at hc
      have hsub : ∀ d ∈ "/?#".toList, d ∈ stops := by decide
      exact hsub c (u.head_rest c (by rw [hrest]; exact hc))

theorem isHostChar_of_isAlphanum (c : Char) (h : c.isAlphanum = true) : isHostChar c = true := by
  rw [isHostChar, h, Bool.true_or]

theorem isTailChar_of_isAlphanum (c : Char) (h : c.isAlphanum = true) : isTailChar c = true := by
  rw [isTailChar, h, Bool.true_or]

/-- The characters after the host that the browser does not know of. -/
theorem isTailChar_iff {c : Char} (h : c.isAlphanum = true ∨ c ∈ Url.restMarks) :
    isTailChar c = true ↔ c ∉ "~!()*=:@".toList :=
  class_iff_not_mem isTailChar_of_isAlphanum (by decide) (by decide) h

/-- The part of the pattern for the port takes the colon. -/
theorem first_portPart_port (u : Url) {d t : Text} (hd : ∀ c ∈ d, c ≠ ':')
    (hport : u.port ≠ none → d = []) (ht : ∀ c ∈ t.head?, c ∈ stops) :
    portPart.first (d ++ (part ':' u.port ++ t)) = some (d ++ (u.port.getD [] ++ t)) := by
  have hstops : ∀ c ∈ stops, c.isDigit = false ∧ c ≠ '-' ∧ c ≠ ':' := by decide
  cases hp : u.port with
  | none =>
      refine first_portPart_stop fun c hc => ?_
      cases d with
      | nil => exact (hstops c (ht c hc)).2.2
      | cons e d => exact hd c (by rw [← Option.some.inj hc]; exact List.mem_cons_self)
  | some ds =>
      rw [hport (by rw [hp]; exact Option.some_ne_none ds)]
      exact first_portPart_colon (u.port_digits ds hp) fun c hc => hstops c (ht c hc)

theorem head_port_append (u : Url) {t : Text} (ht : ∀ c ∈ t.head?, c ∈ stops) :
    ∀ c ∈ (part ':' u.port ++ t).head?, isHostChar c = false := by
  intro c hc
  cases hport : u.port with
  | none =>
      rw [hport] at hc
      have hstops : ∀ d ∈ stops, isHostChar d = false := by decide
      exact hstops c (ht c hc)
  | some ds =>
      rw [hport] at hc
      rw [← Option.some.inj hc]
      decide

/-- What remains of a URL after the host is all taken by the tail. -/
theorem dropWhile_tail (u : Url) {e x : Text} (he : ∀ c ∈ e, c ∈ ".-".toList)
    (hrest : ∀ c ∈ u.rest, c ∉ "~!()*=:@".toList) (hx : ∀ c ∈ x.head?, c ∈ separators) :
    (e ++ (u.port.getD [] ++ (u.rest ++ x))).dropWhile isTailChar = x := by
  have hmarks : ∀ c ∈ ".-".toList, isTailChar c = true := by decide
  have hseparators : ∀ c ∈ separators, isTailChar c = false := by decide
  have hport : ∀ c ∈ u.port.getD [], isTailChar c = true := by
    intro c hc
    cases hp : u.port with
    | none =>
        rw [hp] at hc
        cases hc
    | some ds =>
        rw [hp] at hc
        refine isTailChar_of_isAlphanum c ?_
        rw [Char.isAlphanum, u.port_digits ds hp c hc, Bool.or_true]
  rw [List.dropWhile_append_of_pos fun c hc => hmarks c (he c hc),
    List.dropWhile_append_of_pos hport,
    List.dropWhile_append_of_pos fun c hc => (isTailChar_iff (u.rest_chars c hc)).mpr (hrest c hc)]
  exact dropWhile_of_head? fun c hc => hseparators c (hx c hc)

/-- A regular URL without those characters is taken as a whole. -/
theorem first_re_text {u : Url} (hregular : u.Regular)
    (hrest : ∀ c ∈ u.rest, c ∉ "~!()*=:@".toList) {x : Text} (hx : ∀ c ∈ x.head?, c ∈ separators) :
    re.first (u.text ++ x) = some x := by
  obtain ⟨c, w, hhost⟩ := List.exists_cons_of_ne_nil u.host_ne_nil
  have hc : c.isAlphanum = true := hregular.first c (by rw [hhost]; rfl)
  have hw : ∀ d ∈ w, d.isAlphanum = true ∨ d ∈ ".-".toList := fun d hd =>
    u.host_chars d (by rw [hhost]; exact List.mem_cons_of_mem c hd)
  have hwchars : ∀ d ∈ w, isHostChar d = true := by
    intro d hd
    have hmarks : ∀ d ∈ ".-".toList, isHostChar d = true := by decide
    exact (hw d hd).elim (isHostChar_of_isAlphanum d) (hmarks d)
  have hstop := head_rest_append u hx
  -- the iteration leaves an end of the host without letters and digits
  obtain ⟨v, e, hve, he, hlast⟩ :=
    Regex.lastRest_append (q := Char.isAlphanum) hwchars (head_port_append u hstop)
  have hmarks : ∀ d ∈ e, d ∈ ".-".toList := by
    intro d hd
    refine (hw d (hve ▸ List.mem_append_right v hd)).resolve_left fun halnum => ?_
    rw [he d hd] at halnum
    cases halnum
  -- before a port there is no such end
  have hempty : u.port ≠ none → e = [] := by
    intro hport
    by_contra hne
    have hend : u.host.getLast? = some (e.getLast hne) := by
      rw [hhost, hve, ← List.cons_append, List.getLast?_append_of_ne_nil _ hne,
        List.getLast?_eq_some_getLast hne]
    have halnum := hregular.last hport _ hend
    rw [he _ (List.getLast_mem hne)] at halnum
    cases halnum
  have hcolon : ∀ d ∈ e, d ≠ ':' := by
    intro d hd heq
    rw [heq] at hd
    exact absurd (hmarks ':' hd) (by decide)
  have hfound : hostPart.first (u.host ++ (part ':' u.port ++ (u.rest ++ x))) = some x := by
    rw [hhost]
    refine Regex.first_seq (by rw [List.cons_append, Regex.first_char_cons, if_pos hc]) ?_
    refine Regex.first_seq (Regex.first_star_upTo isHostChar_of_isAlphanum _) ?_
    rw [hlast]
    refine Regex.first_seq (first_portPart_port u hcolon hempty hstop) ?_
    rw [first_tailPart, dropWhile_tail u hmarks hrest hx]
  have htext : u.text ++ x = u.scheme ++ (u.host ++ (part ':' u.port ++ (u.rest ++ x))) := by
    simp only [Url.text, List.append_assoc]
  rw [htext]
  exact first_re_scheme u hfound

/-- The parts of a match after the scheme. -/
structure MatchParts (host ports tail : Text) : Prop where
  host_chars : ∀ c ∈ host, isHostChar c = true
  host_first : ∃ c ∈ host.head?, c.isAlphanum = true
  host_last : ∀ c ∈ host.getLast?, c.isAlphanum = true
  ports_chars : ∀ c ∈ ports, c = ':' ∨ isHostChar c = true
  ports_first : ∀ c ∈ ports.head?, c = ':'
  tail_chars : ∀ c ∈ tail, isTailChar c = true

/-- What the iteration for the host takes ends with a letter or a digit. -/
theorem matches_star_host {w : Text}
    (h : (Regex.star (.upTo isHostChar Char.isAlphanum)).Matches w) :
    (∀ c ∈ w, isHostChar c = true) ∧ ∀ c ∈ w.getLast?, c.isAlphanum = true := by
  refine Regex.matches_star_induct
    (P := fun w => (∀ c ∈ w, isHostChar c = true) ∧ ∀ c ∈ w.getLast?, c.isAlphanum = true) ?_ ?_ h
  · exact ⟨fun c hc => absurd hc List.not_mem_nil, fun c hc => by cases hc⟩
  · intro v w hv hw
    obtain ⟨a, _, ha, hlast, rfl⟩ := Regex.matches_seq.mp hv
    obtain ⟨z, hz, rfl⟩ := Regex.matches_char.mp hlast
    refine ⟨?_, fun c hc => ?_⟩
    · refine List.forall_mem_append.mpr ⟨List.forall_mem_append.mpr ⟨?_, ?_⟩, hw.1⟩
      · exact Regex.matches_star_char ha
      · exact List.forall_mem_singleton.mpr (isHostChar_of_isAlphanum z hz)
    · cases w with
      | nil =>
          rw [List.append_nil, List.getLast?_concat] at hc
          rw [← Option.some.inj hc]
          exact hz
      | cons d w =>
          rw [List.getLast?_append_of_ne_nil _ (List.cons_ne_nil d w)] at hc
          exact hw.2 c hc

/-- What the iteration for the port takes begins with a colon. -/
theorem matches_portPart {w : Text} (h : portPart.Matches w) :
    (∀ c ∈ w, c = ':' ∨ isHostChar c = true) ∧ ∀ c ∈ w.head?, c = ':' := by
  refine Regex.matches_star_induct
    (P := fun w => (∀ c ∈ w, c = ':' ∨ isHostChar c = true) ∧ ∀ c ∈ w.head?, c = ':') ?_ ?_ h
  · exact ⟨fun c hc => absurd hc List.not_mem_nil, fun c hc => by cases hc⟩
  · intro v w hv hw
    obtain ⟨_, ds, hcolon, hds, rfl⟩ := Regex.matches_seq.mp hv
    obtain ⟨c, hc, rfl⟩ := Regex.matches_char.mp hcolon
    have hdigits : ∀ d ∈ ds, d = ':' ∨ isHostChar d = true := by
      refine Regex.matches_star_induct (P := fun w => ∀ c ∈ w, c = ':' ∨ isHostChar c = true)
        ?_ ?_ hds
      · exact fun d hd => absurd hd List.not_mem_nil
      · intro x y hx hy
        rw [Regex.matches_lit.mp hx]
        exact List.forall_mem_append.mpr ⟨by decide, hy⟩
    rw [beq_iff_eq.mp hc]
    refine ⟨List.forall_mem_append.mpr ⟨List.forall_mem_cons.mpr ⟨Or.inl rfl, hdigits⟩, hw.1⟩, ?_⟩
    exact fun d hd => (Option.some.inj hd).symm

theorem matches_tailPart {w : Text} (h : tailPart.Matches w) : ∀ c ∈ w, isTailChar c = true := by
  obtain ⟨s, t, hs, ht, rfl⟩ := Regex.matches_seq.mp h
  refine List.forall_mem_append.mpr ⟨?_, ?_⟩
  · cases Regex.matches_opt.mp hs with
    | inl hslash =>
        obtain ⟨c, hc, rfl⟩ := Regex.matches_char.mp hslash
        rw [beq_iff_eq.mp hc]
        decide
    | inr hnone =>
        rw [hnone]
        exact fun c hc => absurd hc List.not_mem_nil
  · cases Regex.matches_opt.mp ht with
    | inl htail => exact Regex.matches_star_char htail
    | inr hnone =>
        rw [hnone]
        exact fun c hc => absurd hc List.not_mem_nil

theorem matches_hostPart {v : Text} (h : hostPart.Matches v) :
    ∃ host ports tail, v = host ++ (ports ++ tail) ∧ MatchParts host ports tail := by
  obtain ⟨_, _, hfirst, hmore, rfl⟩ := Regex.matches_seq.mp h
  obtain ⟨w, _, hw, hend, rfl⟩ := Regex.matches_seq.mp hmore
  obtain ⟨ports, tail, hports, htail, rfl⟩ := Regex.matches_seq.mp hend
  obtain ⟨c, hc, rfl⟩ := Regex.matches_char.mp hfirst
  obtain ⟨hwchars, hwlast⟩ := matches_star_host hw
  refine ⟨c :: w, ports, tail, rfl, ?_, ⟨c, rfl, hc⟩, ?_, (matches_portPart hports).1,
    (matches_portPart hports).2, matches_tailPart htail⟩
  · exact List.forall_mem_cons.mpr ⟨isHostChar_of_isAlphanum c hc, hwchars⟩
  · cases w with
    | nil =>
        intro d hd
        rw [← Option.some.inj hd]
        exact hc
    | cons e w =>
        rw [List.getLast?_cons_cons]
        exact hwlast

/-- What follows the delimiters of a URL is taken by the tail. -/
theorem rest_of_parts {u : Url} {host ports tail : Text} (h : MatchParts host ports tail)
    (heq : host ++ (ports ++ tail) = u.host ++ (part ':' u.port ++ u.rest)) :
    ∀ c ∈ u.rest, isTailChar c = true := by
  rw [← List.append_assoc, ← List.append_assoc] at heq
  rcases List.append_eq_append_iff.mp heq with ⟨y, -, htail⟩ | ⟨y, hfront, hrest⟩
  · intro c hc
    exact h.tail_chars c (htail ▸ List.mem_append_right y hc)
  · cases y with
    | nil =>
        rw [hrest]
        exact h.tail_chars
    | cons d y =>
        have hd : d ∈ "/?#".toList := u.head_rest d (by rw [hrest]; rfl)
        have hmem : d ∈ host ++ ports := hfront ▸ List.mem_append_right _ List.mem_cons_self
        have hclass : d = ':' ∨ isHostChar d = true :=
          List.forall_mem_append.mpr ⟨fun c hc => Or.inr (h.host_chars c hc), h.ports_chars⟩ d hmem
        have hnone : ∀ c ∈ "/?#".toList, ¬(c = ':' ∨ isHostChar c = true) := by decide
        exact absurd hclass (hnone d hd)

/-- The host of a URL with a port is the host of the match. -/
theorem host_of_parts {u : Url} {host ports tail : Text} (h : MatchParts host ports tail)
    (heq : host ++ (ports ++ tail) = u.host ++ (part ':' u.port ++ u.rest))
    (hport : u.port ≠ none) : u.host = host := by
  obtain ⟨ds, hds⟩ := Option.ne_none_iff_exists'.mp hport
  rw [hds] at heq
  have hhost : ∀ c ∈ host, (c != ':') = true := by
    intro c hc
    refine bne_iff_ne.mpr fun hcolon => ?_
    have hchar := h.host_chars c hc
    rw [hcolon] at hchar
    exact absurd hchar (by decide)
  have hcolon : ':' ∈ ports := by
    have hmem : ':' ∈ host ++ (ports ++ tail) := by
      rw [heq]
      exact List.mem_append_right _ List.mem_cons_self
    rcases List.mem_append.mp hmem with hmem | hmem
    · exact absurd (h.host_chars ':' hmem) (by decide)
    · rcases List.mem_append.mp hmem with hmem | hmem
      · exact hmem
      · exact absurd (h.tail_chars ':' hmem) (by decide)
  have hurl : ∀ c ∈ u.host, (c != ':') = true := by
    intro c hc
    refine bne_iff_ne.mpr fun hcolon => ?_
    rw [hcolon] at hc
    exact absurd (u.host_chars ':' hc) (by decide)
  have hleft : (host ++ (ports ++ tail)).takeWhile (· != ':') = host := by
    refine takeWhile_append_eq_iff.mpr ⟨hhost, fun c hc => ?_⟩
    rw [List.head?_append_of_ne_nil _ (List.ne_nil_of_mem hcolon)] at hc
    rw [h.ports_first c hc]
    rfl
  have hright : (u.host ++ (part ':' (some ds) ++ u.rest)).takeWhile (· != ':') = u.host := by
    refine takeWhile_append_eq_iff.mpr ⟨hurl, fun c hc => ?_⟩
    rw [← Option.some.inj hc]
    rfl
  rw [← hright, ← heq, hleft]

/-- A URL that is a match is regular, and without the characters that the browser does not
know of. -/
theorem regular_of_matches {u : Url} (h : re.Matches u.text) :
    u.Regular ∧ ∀ c ∈ u.rest, c ∉ "~!()*=:@".toList := by
  obtain ⟨scheme, hscheme, v, hv, htext⟩ := matches_re h
  have hsub : ∀ s ∈ schemes, s ∈ reSchemes := by decide
  have hafter := congrArg afterScheme htext
  rw [Url.text, afterScheme_append (hsub _ u.scheme_mem), afterScheme_append hscheme] at hafter
  obtain ⟨host, ports, tail, rfl, hparts⟩ := matches_hostPart hv
  refine ⟨⟨fun c hc => ?_, fun hport => ?_⟩, fun c hc => ?_⟩
  · obtain ⟨d, hd, halnum⟩ := hparts.host_first
    have hhead := congrArg List.head? hafter
    rw [List.head?_append_of_ne_nil _ u.host_ne_nil, Option.mem_def.mp hc,
      List.head?_append, Option.mem_def.mp hd] at hhead
    rw [Option.some.inj hhead]
    exact halnum
  · rw [host_of_parts hparts hafter.symm hport]
    exact hparts.host_last
  · exact (isTailChar_iff (u.rest_chars c hc)).mp (rest_of_parts hparts hafter.symm c hc)

/-- The browser finds the URLs of a text exactly when all are regular and have only
characters that it knows of after the host. -/
theorem re_findall_iff (T : LinkText) :
    re.findall T.text = T.urls ↔
      ∀ l ∈ T.links, l.1.Regular ∧ ∀ c ∈ l.1.rest, c ∉ "~!()*=:@".toList := by
  rw [findall_text first_re_separator]
  refine findall_written_iff rfl (fun l t xs hsep hlast => ?_) T.links_separators T.apart
  have hhead : ∀ c ∈ (l.2 ++ t).head?, c ∈ separators := by
    rw [head?_append_of_last hlast]
    exact fun c hc => hsep c (List.mem_of_head? hc)
  have hfound : l.1.Regular ∧ (∀ c ∈ l.1.rest, c ∉ "~!()*=:@".toList) →
      re.findall (l.1.text ++ (l.2 ++ t)) = l.1.text :: re.findall t := by
    rintro ⟨hregular, hrest⟩
    rw [Regex.findall_append l.1.text_ne_nil (first_re_text hregular hrest hhead),
      Regex.findall_skip fun c hc => first_re_separator c (hsep c hc)]
  constructor
  · intro heq
    have hregular := regular_of_matches
      (Regex.matches_of_mem_findall (heq ▸ List.mem_cons_self))
    rw [hfound hregular, List.cons_inj_right] at heq
    exact ⟨hregular, heq⟩
  · rintro ⟨hregular, hrest⟩
    rw [hfound hregular, hrest]

/-- Both find the URLs of a text, and nothing else, exactly when each URL is regular and has
only characters after the host that both know of, and no URL is followed by an angle
bracket. -/
theorem finders_exact_iff (T : LinkText) :
    (linkPattern.findall T.text = T.urls ∧ re.findall T.text = T.urls) ↔
      ∀ l ∈ T.links, l.1.Regular ∧ (∀ c ∈ l.1.rest, c ∉ "~#!()*=:@".toList) ∧
        ∀ c ∈ l.2.head?, c ∉ "<>".toList := by
  have hmarks : ∀ c : Char, c ∉ "~#!()*=:@".toList ↔ c ∉ "~#".toList ∧ c ∉ "~!()*=:@".toList := by
    intro c
    have hboth : ∀ d ∈ "~#!()*=:@".toList, d ∈ "~#".toList ∨ d ∈ "~!()*=:@".toList := by decide
    have hserver : ∀ d ∈ "~#".toList, d ∈ "~#!()*=:@".toList := by decide
    have hbrowser : ∀ d ∈ "~!()*=:@".toList, d ∈ "~#!()*=:@".toList := by decide
    rw [← not_or]
    exact not_congr ⟨hboth c, fun h => h.elim (hserver c) (hbrowser c)⟩
  rw [linkPattern_findall_iff, re_findall_iff, ← forall₂_and]
  refine forall₂_congr fun l _ => ?_
  simp only [hmarks]
  constructor
  · rintro ⟨⟨hserver, hsep⟩, hregular, hbrowser⟩
    exact ⟨hregular, fun c hc => ⟨hserver c hc, hbrowser c hc⟩, hsep⟩
  · rintro ⟨hregular, hrest, hsep⟩
    exact ⟨⟨fun c hc => (hrest c hc).1, hsep⟩, hregular, fun c hc => (hrest c hc).2⟩

/-- A link with a parameter in its query. -/
def watchUrl : Url where
  https := false
  host := "youtube.com".toList
  port := none
  path := "/watch".toList
  query := some "v=1".toList
  fragment := none
  host_ne_nil := by decide
  host_chars := by decide
  port_digits := fun _ h => absurd h (Option.not_mem_none _)
  path_slash := fun _ h => (Option.some.inj h).symm
  path_chars := by decide
  query_chars := by
    intro t ht
    rw [← Option.some.inj ht]
    decide
  fragment_chars := fun _ h => absurd h (Option.not_mem_none _)

/-- The text that is only this link. -/
def watchLink : LinkText where
  lead := []
  links := [(watchUrl, [])]
  lead_separators := by decide
  links_separators := by decide
  apart := .singleton _

/-- The browser cuts it off before the equals sign. -/
theorem watchLink_cut_off :
    watchLink.text = "http://youtube.com/watch?v=1".toList ∧
      re.findall watchLink.text = ["http://youtube.com/watch?v".toList] ∧
      ¬(linkPattern.findall watchLink.text = watchLink.urls ∧
        re.findall watchLink.text = watchLink.urls) := by
  decide +kernel

end Browser
