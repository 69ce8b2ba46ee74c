import Mathlib.Data.List.TakeWhile
import FbTesting.Base.Regex
import FbTesting.Analyser.Extract

/-!
# The links of the messages

`find_links` searches the texts of the messages with a pattern, asks `urlparse` for the
host of each link, and collects the links by host.  The dictionary is then written with
its keys in order.

The pattern is a scheme and then characters, where the characters are given by several
classes.  One of these has the range from `$` to `_` in it, and so all capital letters,
digits, brackets and angle brackets; what it does not have are `#`, `~` and the quotation
mark.  A link thus goes on up to the first character outside the classes
(`findall_linkPattern`): the text is cut into runs of the characters inside, and a run
gives one link, from its first scheme to its end, or none.

`urlparse` raises if there is one square bracket in the network location without the
other, and both may stand in a link.  The exact condition is `find_links_completes_iff`.
-/

namespace Analyser

open Base Python

/-! ## The pattern -/

/-- `[$-_@.&+]`. -/
def inRange (c : Char) : Bool := ('$' ≤ c && c ≤ '_') || "@.&+".toList.contains c

/-- `[!*\(\),]`. -/
def isMark (c : Char) : Bool := "!*(),".toList.contains c

/-- `[0-9a-fA-F]`. -/
def isHex (c : Char) : Bool := c.isDigit || ('a' ≤ c && c ≤ 'f') || ('A' ≤ c && c ≤ 'F')

/-- One iteration of the pattern after the scheme. -/
def urlChar : Regex :=
  .alt (.char Char.isAlpha) <| .alt (.char Char.isDigit) <| .alt (.char inRange) <|
    .alt (.char isMark) <| .seq (.char (· == '%')) <| .seq (.char isHex) (.char isHex)

/-- The pattern of `find_links`. -/
def linkPattern : Regex :=
  .seq (.lit "http".toList) <| .seq (.opt (.char (· == 's'))) <| .seq (.lit "://".toList)
    (.plus urlChar)

/-- The characters that the pattern takes. -/
def isUrlChar (c : Char) : Bool := c.isAlpha || (c.isDigit || (inRange c || isMark c))

/-! ## The function -/

/-- The network location of a URL with a scheme. -/
def netloc (url : Text) : Text :=
  match url.dropWhile (· != ':') with
  | ':' :: '/' :: '/' :: rest => rest.takeWhile fun c => !"/?#".toList.contains c
  | _ => []

/-- `hostname`, of a network location. -/
def hostname (netloc : Text) : Option Text :=
  let netloc := (netloc.splitOn '@').getLastD []
  if '[' ∈ netloc ∧ ']' ∈ netloc then
    some ((((netloc.splitOn ']').headD []).drop 1).map Char.toLower)
  else if ':' ∈ netloc then some (((netloc.splitOn ':').headD []).map Char.toLower)
  else if netloc = [] then none
  else some (netloc.map Char.toLower)

/-- There is no square bracket without its counterpart. -/
def Bracketed (netloc : Text) : Prop := '[' ∈ netloc ↔ ']' ∈ netloc

instance (netloc : Text) : Decidable (Bracketed netloc) := inferInstanceAs (Decidable (_ ↔ _))

/-- `urlparse(link).hostname`.  The error is `Invalid IPv6 URL`. -/
def urlHostname (link : Text) : Except PyError (Option Text) :=
  if Bracketed (netloc link) then .ok (hostname (netloc link)) else .error .valueError

/-- The links by host, with `None` for an empty one. -/
abbrev LinkDict := Dict (Option Text) (List Text)

/-- The loop over the links of a message. -/
def linkLoop : List Text → LinkDict → Except PyError LinkDict
  | [], link_dict => .ok link_dict
  | link :: rest, link_dict => do
      let host ← urlHostname link
      linkLoop rest (link_dict.push host link)

/-- The loop over the messages. -/
def linkMessages : List Message → LinkDict → Except PyError LinkDict
  | [], link_dict => .ok link_dict
  | m :: rest, link_dict => do
      let link_dict ← linkLoop (linkPattern.findall m.text) link_dict
      linkMessages rest link_dict

/-- The order of texts by code points. -/
def textLe : Text → Text → Bool
  | [], _ => true
  | _ :: _, [] => false
  | c :: t, d :: u => c < d || (c == d && textLe t u)

/-- The order of the keys: `None` is below every text. -/
def keyLe : Option Text → Option Text → Bool
  | none, _ => true
  | some _, none => false
  | some t, some u => textLe t u

/-- `link_dict_ordered`. -/
def orderLinks (link_dict : LinkDict) : LinkDict :=
  (link_dict.keys.mergeSort keyLe).foldl (fun d key => d.set key (link_dict.listAt key)) .empty

/-- The dictionary as `dump` sees it. -/
def linksJson (link_dict_ordered : LinkDict) : Json :=
  .obj (link_dict_ordered.entries.map fun e =>
    (e.1.getD "null".toList, .arr (e.2.map Json.str)))

/-- `find_links`: what is written to `links.json`. -/
def find_links (messages : List Message) : Except PyError Text := do
  let link_dict ← linkMessages messages .empty
  .ok (linksJson (orderLinks link_dict)).dump

/-! ## When the loops complete -/

theorem linkLoop_completes_iff : ∀ (links : List Text) (link_dict : LinkDict),
    (∃ d, linkLoop links link_dict = .ok d) ↔ ∀ link ∈ links, Bracketed (netloc link)
  | [], link_dict => by simp [linkLoop]
  | link :: rest, link_dict => by
      rw [List.forall_mem_cons, linkLoop, urlHostname]
      by_cases hlink : Bracketed (netloc link)
      · rw [if_pos hlink, and_iff_right hlink]
        exact linkLoop_completes_iff rest _
      · rw [if_neg hlink, iff_false_right fun h => hlink h.1]
        rintro ⟨d, hd⟩
        cases hd

theorem linkMessages_completes_iff : ∀ (messages : List Message) (link_dict : LinkDict),
    (∃ d, linkMessages messages link_dict = .ok d) ↔
      ∀ m ∈ messages, ∀ link ∈ linkPattern.findall m.text, Bracketed (netloc link)
  | [], link_dict => by simp [linkMessages]
  | m :: rest, link_dict => by
      rw [List.forall_mem_cons, linkMessages, ← linkLoop_completes_iff _ link_dict]
      cases hm : linkLoop (linkPattern.findall m.text) link_dict with
      | ok d =>
          rw [and_iff_right ⟨d, rfl⟩]
          exact linkMessages_completes_iff rest d
      | error e =>
          rw [iff_false_right fun h => by obtain ⟨d, hd⟩ := h.1; cases hd]
          rintro ⟨d, hd⟩
          cases hd

/-! ## What the pattern matches -/

/-- The schemes that the pattern knows. -/
def schemes : List Text := ["http://".toList, "https://".toList]

/-- A scheme and one more character that the pattern takes. -/
def StartsLink (t : Text) : Prop :=
  ∃ scheme ∈ schemes, ∃ c u, isUrlChar c = true ∧ t = scheme ++ c :: u

theorem startsLink_iff (t : Text) :
    (schemes.any fun scheme =>
        scheme.isPrefixOf t && (t.drop scheme.length).head?.any isUrlChar) = true ↔
      StartsLink t := by
  rw [List.any_eq_true, StartsLink]
  refine exists_congr fun scheme => and_congr_right fun _ => ?_
  rw [Bool.and_eq_true, List.isPrefixOf_iff_prefix]
  constructor
  · rintro ⟨⟨v, rfl⟩, hany⟩
    rw [List.drop_left] at hany
    cases v with
    | nil => cases hany
    | cons c u => exact ⟨c, u, hany, rfl⟩
  · rintro ⟨c, u, hc, rfl⟩
    refine ⟨List.prefix_append scheme (c :: u), ?_⟩
    rw [List.drop_left]
    exact hc

instance (t : Text) : Decidable (StartsLink t) := decidable_of_iff _ (startsLink_iff t)

/-- A percent sign is in the range, so that the last alternative is never needed. -/
theorem first_urlChar (t : Text) : urlChar.first t = (Regex.char isUrlChar).first t := by
  cases t with
  | nil => rfl
  | cons c t =>
      rw [urlChar, Regex.first_alt_char, Regex.first_alt_char, Regex.first_alt_char,
        Regex.first_alt_char, Regex.first_char_cons, isUrlChar]
      cases c.isAlpha with
      | true => rfl
      | false =>
          cases c.isDigit with
          | true => rfl
          | false =>
              cases hrange : inRange c with
              | true => rfl
              | false =>
                  cases isMark c with
                  | true => rfl
                  | false =>
                      have hpercent : c ≠ '%' := by
                        rintro rfl
                        exact absurd hrange (by decide)
                      refine Regex.first_seq_none ?_
                      rw [Regex.first_char_cons, if_neg (mt beq_iff_eq.mp hpercent)]

theorem isUrlChar_of_mem_scheme {scheme : Text} (h : scheme ∈ schemes) :
    ∀ c ∈ scheme, isUrlChar c = true := by
  have hall : ∀ scheme ∈ schemes, ∀ c ∈ scheme, isUrlChar c = true := by decide
  exact hall scheme h

theorem first_plus_urlChar {c : Char} {u : Text} (hc : isUrlChar c = true) :
    (Regex.plus urlChar).first (c :: u) = some (u.dropWhile isUrlChar) := by
  refine Regex.first_seq ?_ (Regex.first_star_of_char first_urlChar u)
  rw [first_urlChar, Regex.first_char_cons, if_pos hc]

/-- Where a link starts it goes on up to the first character outside the classes. -/
theorem first_linkPattern {t : Text} (h : StartsLink t) :
    linkPattern.first t = some (t.dropWhile isUrlChar) := by
  obtain ⟨scheme, hscheme, c, u, hc, rfl⟩ := h
  rw [List.dropWhile_append_of_pos (isUrlChar_of_mem_scheme hscheme),
    List.dropWhile_cons_of_pos hc]
  have hrest : (Regex.seq (.lit "://".toList) (.plus urlChar)).first ("://".toList ++ c :: u) =
      some (u.dropWhile isUrlChar) :=
    Regex.first_seq (Regex.first_lit_append _ _) (first_plus_urlChar hc)
  cases List.mem_cons.mp hscheme with
  | inl hplain =>
      rw [hplain]
      refine Regex.first_seq (Regex.first_lit_append "http".toList ("://".toList ++ c :: u)) ?_
      rw [Regex.first_seq_opt_char_none rfl]
      exact hrest
  | inr hsecure =>
      rw [List.mem_singleton.mp hsecure]
      refine Regex.first_seq
        (Regex.first_lit_append "http".toList ('s' :: ("://".toList ++ c :: u))) ?_
      have hcolon : (Regex.lit "://".toList).first ('s' :: ("://".toList ++ c :: u)) = none := rfl
      rw [Regex.first_seq_opt_char rfl (Regex.first_seq_none hcolon)]
      exact hrest

theorem isUrlChar_of_isHex {c : Char} (h : isHex c = true) : isUrlChar c = true := by
  rw [isUrlChar]
  simp only [isHex, Bool.or_eq_true, Bool.and_eq_true, decide_eq_true_eq] at h
  rcases h with (hdigit | ⟨ha, hf⟩) | ⟨hA, hF⟩
  · rw [hdigit, Bool.true_or, Bool.or_true]
  · have hz : c ≤ 'z' := Char.le_trans hf (by decide)
    rw [isAlpha_of_small ⟨Char.le_def.mp ha, Char.le_def.mp hz⟩, Bool.true_or]
  · have hrange : inRange c = true := by
      rw [inRange, decide_eq_true (Char.le_trans (by decide) hA),
        decide_eq_true (Char.le_trans hF (by decide))]
      rfl
    rw [hrange, Bool.true_or, Bool.or_true, Bool.or_true]

/-- An iteration takes at least one character, and none outside the classes. -/
theorem matches_urlChar {w : Text} (h : urlChar.Matches w) :
    w ≠ [] ∧ ∀ c ∈ w, isUrlChar c = true := by
  have hone : ∀ c, isUrlChar c = true → [c] ≠ [] ∧ ∀ d ∈ [c], isUrlChar d = true := fun c hc =>
    ⟨List.cons_ne_nil c [], List.forall_mem_singleton.mpr hc⟩
  simp only [urlChar, Regex.matches_alt, Regex.matches_seq, Regex.matches_char] at h
  rcases h with ⟨c, hc, rfl⟩ | ⟨c, hc, rfl⟩ | ⟨c, hc, rfl⟩ | ⟨c, hc, rfl⟩ | hescape
  · exact hone c (by rw [isUrlChar, hc, Bool.true_or])
  · exact hone c (by rw [isUrlChar, hc, Bool.true_or, Bool.or_true])
  · exact hone c (by rw [isUrlChar, hc, Bool.true_or, Bool.or_true, Bool.or_true])
  · exact hone c (by rw [isUrlChar, hc, Bool.or_true, Bool.or_true, Bool.or_true])
  · obtain ⟨_, _, ⟨c, hc, rfl⟩, ⟨_, _, ⟨d, hd, rfl⟩, ⟨e, he, rfl⟩, rfl⟩, rfl⟩ := hescape
    rw [beq_iff_eq.mp hc]
    refine ⟨List.cons_ne_nil _ _, List.forall_mem_cons.mpr ⟨by decide, ?_⟩⟩
    exact List.forall_mem_cons.mpr
      ⟨isUrlChar_of_isHex hd, List.forall_mem_singleton.mpr (isUrlChar_of_isHex he)⟩

/-- A match is a scheme and at least one more character, all inside the classes. -/
theorem matches_linkPattern {w : Text} (h : linkPattern.Matches w) :
    ∃ scheme ∈ schemes, ∃ c u, w = scheme ++ c :: u ∧ ∀ d ∈ w, isUrlChar d = true := by
  obtain ⟨_, w₁, h₀, h₁, rfl⟩ := Regex.matches_seq.mp h
  obtain ⟨s, w₂, hs, h₂, rfl⟩ := Regex.matches_seq.mp h₁
  obtain ⟨_, w₃, h₃, hplus, rfl⟩ := Regex.matches_seq.mp h₂
  have htail : w₃ ≠ [] ∧ ∀ c ∈ w₃, isUrlChar c = true := by
    obtain ⟨v, w₄, hfirst, hmore, rfl⟩ := Regex.matches_seq.mp hplus
    obtain ⟨hne, hv⟩ := matches_urlChar hfirst
    refine ⟨List.append_ne_nil_of_left_ne_nil hne w₄, List.forall_mem_append.mpr ⟨hv, ?_⟩⟩
    refine Regex.matches_star_induct (P := fun w => ∀ c ∈ w, isUrlChar c = true) ?_ ?_ hmore
    · exact fun c hc => absurd hc List.not_mem_nil
    · exact fun x y hx hy => List.forall_mem_append.mpr ⟨(matches_urlChar hx).2, hy⟩
  obtain ⟨c, u, rfl⟩ := List.exists_cons_of_ne_nil htail.1
  have hscheme : ∃ scheme ∈ schemes, "http".toList ++ (s ++ "://".toList) = scheme := by
    cases Regex.matches_opt.mp hs with
    | inr hnone => exact ⟨"http://".toList, by decide, by rw [hnone]; rfl⟩
    | inl hsecure =>
        obtain ⟨d, hd, rfl⟩ := Regex.matches_char.mp hsecure
        exact ⟨"https://".toList, by decide, by rw [beq_iff_eq.mp hd]; rfl⟩
  obtain ⟨scheme, hmem, heq⟩ := hscheme
  have hw : "http".toList ++ (s ++ ("://".toList ++ c :: u)) = scheme ++ c :: u := by
    rw [← heq, List.append_assoc, List.append_assoc]
  rw [Regex.matches_lit.mp h₀, Regex.matches_lit.mp h₃, hw]
  refine ⟨scheme, hmem, c, u, rfl, ?_⟩
  exact List.forall_mem_append.mpr ⟨isUrlChar_of_mem_scheme hmem, htail.2⟩

/-- Where there is a match, a link starts. -/
theorem startsLink_of_matches {w : Text} (h : linkPattern.Matches w) (u : Text) :
    StartsLink (w ++ u) := by
  obtain ⟨scheme, hscheme, c, v, rfl, hall⟩ := matches_linkPattern h
  have hc : isUrlChar c = true := hall c (List.mem_append_right _ List.mem_cons_self)
  exact ⟨scheme, hscheme, c, v ++ u, hc, by rw [List.append_assoc]; rfl⟩

theorem first_linkPattern_none {t : Text} (h : ¬StartsLink t) : linkPattern.first t = none := by
  cases hfirst : linkPattern.first t with
  | none => rfl
  | some u =>
      obtain ⟨w, hw, rfl⟩ := Regex.matches_of_first hfirst
      exact absurd (startsLink_of_matches hw u) h

/-! ## The links of a text -/

/-- The link in a run of characters: from where one starts to the end. -/
def linkIn : Text → Option Text
  | [] => none
  | c :: t => if StartsLink (c :: t) then some (c :: t) else linkIn t

/-- The longest runs of characters that the pattern takes. -/
def runs (t : Text) : List Text := t.splitOnP fun c => !isUrlChar c

/-- What ends a run is not looked at. -/
theorem startsLink_append_iff {v rest : Text} (hrest : ∀ c ∈ rest.head?, isUrlChar c = false) :
    StartsLink (v ++ rest) ↔ StartsLink v := by
  constructor
  · rintro ⟨scheme, hscheme, c, u, hc, heq⟩
    have hstart : scheme ++ [c] <+: v ++ rest := ⟨u, by rw [heq, List.append_assoc]; rfl⟩
    have hclass : ∀ d ∈ scheme ++ [c], isUrlChar d = true :=
      List.forall_mem_append.mpr
        ⟨isUrlChar_of_mem_scheme hscheme, List.forall_mem_singleton.mpr hc⟩
    cases List.prefix_or_prefix_of_prefix hstart (List.prefix_append v rest) with
    | inl hin =>
        obtain ⟨u', rfl⟩ := hin
        exact ⟨scheme, hscheme, c, u', hc, by rw [List.append_assoc]; rfl⟩
    | inr hout =>
        obtain ⟨x, hx⟩ := hout
        rw [← hx, List.prefix_append_right_inj] at hstart
        cases x with
        | nil =>
            rw [List.append_nil] at hx
            exact ⟨scheme, hscheme, c, [], hc, hx⟩
        | cons d x =>
            obtain ⟨y, rfl⟩ := hstart
            have hout := hrest d rfl
            rw [hclass d (hx ▸ List.mem_append_right v List.mem_cons_self)] at hout
            cases hout
  · rintro ⟨scheme, hscheme, c, u, hc, rfl⟩
    exact ⟨scheme, hscheme, c, u ++ rest, hc, by rw [List.append_assoc]; rfl⟩

/-- A link that starts at the beginning is the first one found. -/
theorem findall_of_startsLink {t : Text} (h : StartsLink t) :
    linkPattern.findall t =
      t.takeWhile isUrlChar :: linkPattern.findall (t.dropWhile isUrlChar) := by
  have hne : t.takeWhile isUrlChar ≠ [] := by
    obtain ⟨scheme, hscheme, c, u, hc, rfl⟩ := h
    rw [List.takeWhile_append_of_pos (isUrlChar_of_mem_scheme hscheme),
      List.takeWhile_cons_of_pos hc]
    exact List.append_ne_nil_of_right_ne_nil scheme (List.cons_ne_nil c _)
  have happ : t.takeWhile isUrlChar ++ t.dropWhile isUrlChar = t :=
    List.takeWhile_append_dropWhile
  have hfirst : linkPattern.first (t.takeWhile isUrlChar ++ t.dropWhile isUrlChar) =
      some (t.dropWhile isUrlChar) := by
    rw [happ]
    exact first_linkPattern h
  have hfound := Regex.findall_append hne hfirst
  rwa [happ] at hfound

/-- A run at the beginning gives its link. -/
theorem findall_run_append {rest : Text} (hrest : ∀ c ∈ rest.head?, isUrlChar c = false) :
    ∀ {v : Text}, (∀ c ∈ v, isUrlChar c = true) →
      linkPattern.findall (v ++ rest) = (linkIn v).toList ++ linkPattern.findall rest
  | [], _ => rfl
  | c :: v, hv => by
      rw [linkIn]
      by_cases hstarts : StartsLink (c :: v)
      · have hfound := findall_of_startsLink ((startsLink_append_iff hrest).mpr hstarts)
        rw [takeWhile_append_eq_iff.mpr ⟨hv, hrest⟩, List.dropWhile_append_of_pos hv,
          dropWhile_of_head? hrest] at hfound
        rw [if_pos hstarts, hfound]
        rfl
      · have hnone := first_linkPattern_none (mt (startsLink_append_iff hrest).mp hstarts)
        rw [List.cons_append] at hnone
        rw [if_neg hstarts, List.cons_append, Regex.findall_cons_none hnone]
        exact findall_run_append hrest (List.forall_mem_cons.mp hv).2

theorem findall_cons_of_not_isUrlChar {c : Char} (hc : isUrlChar c = false) (t : Text) :
    linkPattern.findall (c :: t) = linkPattern.findall t := by
  refine Regex.findall_cons_none (first_linkPattern_none fun h => ?_)
  have hnil : StartsLink [] := (startsLink_append_iff (v := []) (by rintro d ⟨⟩; exact hc)).mp h
  exact absurd hnil (by decide)

/-- The links of a text are those of its runs. -/
theorem findall_linkPattern (t : Text) : linkPattern.findall t = (runs t).filterMap linkIn := by
  have hrun : ∀ c ∈ t.takeWhile isUrlChar, isUrlChar c = true := fun c hc =>
    List.mem_takeWhile_imp hc
  have hinside : ∀ c ∈ t.takeWhile isUrlChar, (!isUrlChar c) = false := fun c hc => by
    rw [hrun c hc]
    rfl
  have hfirst := findall_run_append (head?_dropWhile isUrlChar t) hrun
  rw [List.takeWhile_append_dropWhile] at hfirst
  cases hrest : t.dropWhile isUrlChar with
  | nil =>
      have ht : t.takeWhile isUrlChar = t := by
        have happ := List.takeWhile_append_dropWhile (p := isUrlChar) (l := t)
        rwa [hrest, List.append_nil] at happ
      rw [ht] at hfirst hinside
      rw [hfirst, hrest, Regex.findall_nil rfl, runs, List.splitOnP_eq_singleton hinside,
        List.filterMap_cons]
      cases linkIn t with
      | none => rfl
      | some link => rfl
  | cons d u =>
      have hd : isUrlChar d = false := head?_dropWhile isUrlChar t d (by rw [hrest]; rfl)
      have ht : t = t.takeWhile isUrlChar ++ d :: u := by
        rw [← hrest, List.takeWhile_append_dropWhile]
      have hruns : runs t = t.takeWhile isUrlChar :: runs u := by
        conv_lhs => rw [ht]
        exact List.splitOnP_append_cons_of_forall_mem hinside d (by rw [hd]; rfl) u
      have hlen : u.length < t.length := by
        have hlength := congrArg List.length ht
        rw [List.length_append, List.length_cons] at hlength
        omega
      rw [hfirst, hrest, findall_cons_of_not_isUrlChar hd, findall_linkPattern u, hruns,
        List.filterMap_cons]
      cases linkIn (t.takeWhile isUrlChar) with
      | none => rfl
      | some link => rfl
termination_by t.length

/-! ## Messages on which the function completes -/

/-- No link in the text has one square bracket without the other in its network
location. -/
def LinksParse (text : Text) : Prop :=
  ∀ run ∈ runs text, ∀ link ∈ linkIn run, Bracketed (netloc link)

/-- `find_links` completes exactly when the links of all messages can be parsed. -/
theorem find_links_completes_iff (messages : List Message) :
    (∃ written, find_links messages = .ok written) ↔ ∀ m ∈ messages, LinksParse m.text := by
  have hfind : (∃ written, find_links messages = .ok written) ↔
      ∃ d, linkMessages messages .empty = .ok d := by
    rw [find_links]
    cases linkMessages messages .empty with
    | ok d => exact ⟨fun _ => ⟨d, rfl⟩, fun _ => ⟨_, rfl⟩⟩
    | error e =>
        constructor
        · rintro ⟨written, hwritten⟩
          cases hwritten
        · rintro ⟨d, hd⟩
          cases hd
  rw [hfind, linkMessages_completes_iff]
  refine forall₂_congr fun m _ => ?_
  rw [findall_linkPattern, LinksParse]
  constructor
  · intro h run hrun link hlink
    exact h link (List.mem_filterMap.mpr ⟨run, hrun, hlink⟩)
  · intro h link hlink
    obtain ⟨run, hrun, hin⟩ := List.mem_filterMap.mp hlink
    exact h run hrun link hin

/-- A link to an address that is not closed. -/
theorem unclosed_bracket_raises :
    find_links [⟨none, "2014-05-01 12:00:00".toList, "see http://[fe80 now".toList⟩] =
      .error .valueError := by
  decide +kernel

end Analyser
