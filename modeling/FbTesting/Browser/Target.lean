import Mathlib.Data.List.DropRight
import FbTesting.Server.Routes

/-!
# What the browser asks for

`xmlhttp.open("GET", reference, true)` resolves the reference against the page,
which is at the root of the server.  The parser of addresses drops blanks at both
ends, tabs and line ends anywhere, and the fragment.  It escapes what a query may
not contain, but neither `&` nor `+` nor `%`: these mean something there.

The server undoes the escapes that the browser has put (`queryText_target`).  So
between the text that a script puts behind `?q=` and the text that the route
reads, what is left is `sent` on the one side and, on the other side, the split at
`&`, the blanks for `+` and the decoding of the escapes that the text had.
-/

namespace Browser

open Base Node Server

/-! ## Targets -/

/-- A control character or a blank. -/
def isBlank (c : Char) : Bool := c.toNat ≤ 32

def isTabOrNewline (c : Char) : Bool := c = '\t' || c = '\n' || c = '\r'

/-- The characters that are not escaped in a query. -/
def queryKept (c : Char) : Bool :=
  33 ≤ c.toNat && c.toNat < 127 && c ∉ ['"', '#', '<', '>', '\'']

/-- The target of the request for a reference.  The path of the references that
are asked for needs no escapes. -/
def target (reference : Text) : Text :=
  '/' :: encode queryKept (withoutHash
    (((reference.dropWhile isBlank).rdropWhile isBlank).filter fun c => !isTabOrNewline c))

/-- What is sent of a text at the end of a reference. -/
def sent (t : Text) : Text :=
  withoutHash ((t.rdropWhile isBlank).filter fun c => !isTabOrNewline c)

/-- `file + "?q=" + text`. -/
def reference (file text : Text) : Text := file ++ "?q=".toList ++ text

theorem rdropWhile_append {p : Char → Bool} {t u : Text} (h : ∀ c ∈ t.getLast?, p c = false) :
    (t ++ u).rdropWhile p = t ++ u.rdropWhile p := by
  induction u using List.reverseRecOn with
  | nil =>
      rw [List.append_nil, List.rdropWhile_nil, List.append_nil, List.rdropWhile_eq_self_iff]
      intro hne
      rw [h _ (List.getLast?_eq_some_getLast hne ▸ rfl)]
      exact Bool.false_ne_true
  | append_singleton u c ih =>
      rw [← List.append_assoc]
      cases hc : p c with
      | true =>
          rw [List.rdropWhile_concat_pos _ _ _ hc, List.rdropWhile_concat_pos _ _ _ hc, ih]
      | false =>
          rw [List.rdropWhile_concat_neg _ _ _ (by rw [hc]; decide),
            List.rdropWhile_concat_neg _ _ _ (by rw [hc]; decide), List.append_assoc]

/-- A text in a path or a query that is sent as it is. -/
def Sendable (t : Text) : Prop := ∀ c ∈ t, 32 < c.toNat ∧ c ≠ '#'

instance (t : Text) : Decidable (Sendable t) := inferInstanceAs (Decidable (∀ c ∈ t, _))

theorem Sendable.isBlank_eq {t : Text} (h : Sendable t) {c : Char} (hc : c ∈ t) :
    isBlank c = false := by
  have h32 := (h c hc).1
  simp only [isBlank, decide_eq_false_iff_not]
  omega

theorem isTabOrNewline_of_lt {c : Char} (h : 32 ≤ c.toNat) : isTabOrNewline c = false := by
  simp only [isTabOrNewline, Bool.or_eq_false_iff, decide_eq_false_iff_not]
  refine ⟨⟨?_, ?_⟩, ?_⟩ <;> rintro rfl <;> exact absurd h (by decide)

theorem withoutHash_append {t u : Text} (h : '#' ∉ t) : withoutHash (t ++ u) = t ++ withoutHash u := by
  refine List.takeWhile_append_of_pos fun c hc => ?_
  simp only [decide_eq_true_eq]
  rintro rfl
  exact h hc

theorem hash_not_mem_withoutHash (t : Text) : '#' ∉ withoutHash t := by
  intro h
  have := List.mem_takeWhile_imp h
  simp at this

/-- What stands before the text is sent as it is. -/
theorem target_append {p t : Text} (hne : p ≠ []) (hp : Sendable p) :
    target (p ++ t) = '/' :: encode queryKept (p ++ sent t) := by
  have hhead : (p ++ t).dropWhile isBlank = p ++ t := by
    cases p with
    | nil => exact absurd rfl hne
    | cons c p =>
        rw [List.cons_append, List.dropWhile_cons_of_neg]
        rw [hp.isBlank_eq List.mem_cons_self]
        exact Bool.false_ne_true
  have hlast : ∀ c ∈ p.getLast?, isBlank c = false := fun c hc =>
    hp.isBlank_eq (List.mem_of_getLast? hc)
  have hfilter : p.filter (fun c => !isTabOrNewline c) = p := by
    rw [List.filter_eq_self]
    intro c hc
    rw [isTabOrNewline_of_lt (Nat.le_of_lt (hp c hc).1)]
    rfl
  rw [target, hhead, rdropWhile_append hlast, List.filter_append, hfilter,
    withoutHash_append fun h => (hp _ h).2 rfl, sent]

/-- A text without blanks at its end and without control characters and `#` is
sent as it is. -/
theorem sent_eq_self {t : Text} (hlast : ∀ c ∈ t.getLast?, isBlank c = false)
    (h : ∀ c ∈ t, 32 ≤ c.toNat ∧ c ≠ '#') : sent t = t := by
  have hdrop : t.rdropWhile isBlank = t := by
    have := rdropWhile_append (u := []) hlast
    rwa [List.append_nil, List.rdropWhile_nil, List.append_nil] at this
  have hfilter : t.filter (fun c => !isTabOrNewline c) = t := by
    rw [List.filter_eq_self]
    intro c hc
    rw [isTabOrNewline_of_lt (h c hc).1]
    rfl
  rw [sent, hdrop, hfilter]
  have := withoutHash_append (u := []) fun hm => (h '#' hm).2 rfl
  rwa [List.append_nil, show withoutHash [] = [] from rfl, List.append_nil] at this

/-- No character is added to what is sent. -/
theorem sent_sublist (t : Text) : (sent t).Sublist t :=
  (List.takeWhile_sublist _).trans (List.filter_sublist.trans (List.rdropWhile_prefix _ _).sublist)

/-! ## The server undoes the escapes -/

theorem keepsEscapes_queryKept : KeepsEscapes queryKept where
  percent := by decide
  hexDigit := by
    intro c hc
    have hrange : 48 ≤ c.toNat ∧ c.toNat ≤ 57 ∨ 97 ≤ c.toNat ∧ c.toNat ≤ 102 ∨
        65 ≤ c.toNat ∧ c.toNat ≤ 70 := by
      unfold hexDigitValue at hc
      split_ifs at hc with h1 h2 h3
      · exact Or.inl h1
      · exact Or.inr (Or.inl h2)
      · exact Or.inr (Or.inr h3)
      · exact absurd rfl hc
    have hne : ∀ d ∈ ['"', '#', '<', '>', '\''], ¬(48 ≤ d.toNat ∧ d.toNat ≤ 57 ∨
        97 ≤ d.toNat ∧ d.toNat ≤ 102 ∨ 65 ≤ d.toNat ∧ d.toNat ≤ 70) := by decide
    have hmem : c ∉ ['"', '#', '<', '>', '\''] := fun hm => hne c hm hrange
    simp only [queryKept, hmem, not_false_eq_true, decide_true, Bool.and_true, Bool.and_eq_true,
      decide_eq_true_eq]
    omega

/-- A character that separates parts of a query: it is kept, and no escape has
it. -/
structure Separator (s : Char) : Prop where
  kept : queryKept s = true
  percent : s ≠ '%'
  hexDigit : hexDigitValue s = none

theorem mem_escapeByte {n : Nat} {c : Char} (h : c ∈ escapeByte n) :
    c = '%' ∨ hexDigitValue c ≠ none := by
  simp only [escapeByte, hex, List.nil_append, List.cons_append, List.map_cons, List.map_nil,
    List.mem_cons, List.not_mem_nil, or_false] at h
  rcases h with rfl | rfl | rfl
  · exact Or.inl rfl
  · refine Or.inr ?_
    rw [hexDigitValue_upper (Nat.mod_lt _ (by decide))]
    exact Option.some_ne_none _
  · refine Or.inr ?_
    rw [hexDigitValue_upper (Nat.mod_lt _ (by decide))]
    exact Option.some_ne_none _

theorem Separator.mem_encodeChar {s c : Char} (hs : Separator s) (h : s ∈ encodeChar queryKept c) :
    c = s := by
  unfold encodeChar at h
  split at h
  · exact (List.mem_singleton.mp h).symm
  · obtain ⟨b, _, hb⟩ := List.mem_flatMap.mp h
    rcases mem_escapeByte hb with h | h
    · exact absurd h hs.percent
    · exact absurd hs.hexDigit h

theorem Separator.mem_encode {s : Char} (hs : Separator s) {t : Text}
    (h : s ∈ encode queryKept t) : s ∈ t := by
  obtain ⟨c, hc, hmem⟩ := List.mem_flatMap.mp h
  exact hs.mem_encodeChar hmem ▸ hc

theorem Separator.encode_cons_self {s : Char} (hs : Separator s) (t : Text) :
    encode queryKept (s :: t) = s :: encode queryKept t := by
  rw [encode_cons, encodeChar, if_pos hs.kept, List.singleton_append]

theorem dropWhile_of_not_mem {s : Char} {t : Text} (h : s ∉ t) : t.dropWhile (· ≠ s) = [] := by
  rw [List.dropWhile_eq_nil_iff]
  intro c hc
  simp only [decide_eq_true_eq]
  rintro rfl
  exact h hc

/-- Escaping leaves the cut at a separator where it is. -/
theorem Separator.cut_encode {s : Char} (hs : Separator s) (t : Text) :
    (encode queryKept t).takeWhile (· ≠ s) = encode queryKept (t.takeWhile (· ≠ s)) ∧
      ((encode queryKept t).dropWhile (· ≠ s)).drop 1 =
        encode queryKept ((t.dropWhile (· ≠ s)).drop 1) := by
  by_cases hmem : s ∈ t
  · obtain ⟨a, b, rfl, ha⟩ := List.eq_append_cons_of_mem hmem
    have henc : s ∉ encode queryKept a := fun h => ha (hs.mem_encode h)
    rw [encode_append, hs.encode_cons_self, takeWhile_append_cons henc, dropWhile_append_cons henc,
      takeWhile_append_cons ha, dropWhile_append_cons ha]
    exact ⟨rfl, rfl⟩
  · have henc : s ∉ encode queryKept t := fun h => hmem (hs.mem_encode h)
    rw [takeWhile_of_not_mem henc, dropWhile_of_not_mem henc, takeWhile_of_not_mem hmem,
      dropWhile_of_not_mem hmem]
    exact ⟨rfl, rfl⟩

theorem Separator.splitOn_encode {s : Char} (hs : Separator s) (t : Text) :
    (encode queryKept t).splitOn s = (t.splitOn s).map (encode queryKept) := by
  induction hlen : t.length using Nat.strong_induction_on generalizing t with
  | _ len ih =>
      by_cases hmem : s ∈ t
      · obtain ⟨a, b, rfl, ha⟩ := List.eq_append_cons_of_mem hmem
        have henc : s ∉ encode queryKept a := fun h => ha (hs.mem_encode h)
        have hb := ih b.length (by rw [← hlen]; simp only [List.length_append, List.length_cons]; omega)
          b rfl
        rw [encode_append, hs.encode_cons_self, splitOn_append_cons henc, splitOn_append_cons ha, hb,
          List.map_cons]
      · rw [splitOn_of_not_mem hmem, splitOn_of_not_mem fun h => hmem (hs.mem_encode h)]
        rfl

theorem plusToBlank_encodeChar (c : Char) :
    plusToBlank (encodeChar queryKept c) = encode queryKept (plusToBlank [c]) := by
  by_cases hc : c = '+'
  · subst hc
    decide
  · have hplus : Separator '+' := ⟨by decide, by decide, by decide⟩
    have hid : plusToBlank (encodeChar queryKept c) = encodeChar queryKept c := by
      refine (List.flatMap_congr fun d hd => ?_).trans (List.flatMap_singleton' _)
      rw [if_neg]
      rintro rfl
      exact hc (hplus.mem_encodeChar hd)
    rw [hid]
    simp [plusToBlank, hc]

theorem plusToBlank_encode (t : Text) :
    plusToBlank (encode queryKept t) = encode queryKept (plusToBlank t) := by
  have happend : ∀ u v : Text, plusToBlank (u ++ v) = plusToBlank u ++ plusToBlank v :=
    fun u v => List.flatMap_append
  induction t with
  | nil => rfl
  | cons c t ih =>
      rw [encode_cons, happend, plusToBlank_encodeChar, ih, ← encode_append, ← happend]
      rfl

theorem parameter_encode (piece : Text) : parameter (encode queryKept piece) = parameter piece := by
  have heq : Separator '=' := ⟨by decide, by decide, by decide⟩
  obtain ⟨hname, hvalue⟩ := heq.cut_encode (plusToBlank piece)
  simp only [parameter, plusToBlank_encode, hname, hvalue, unescape_encode keepsEscapes_queryKept]

/-- Printable characters of ASCII are not white space. -/
theorem isWhiteSpace_of_queryKept {c : Char} (h : queryKept c = true) : isWhiteSpace c = false := by
  simp only [queryKept, Bool.and_eq_true, decide_eq_true_eq] at h
  have hlist : ∀ d ∈ ['\t', '\n', '\x0b', '\x0c', '\r', ' ', '\u00a0', '\u1680', '\u2028', '\u2029',
      '\u202f', '\u205f', '\u3000', '\ufeff'], ¬(33 ≤ d.toNat ∧ d.toNat < 127) := by decide
  rw [← Bool.not_eq_true]
  intro hw
  rcases Bool.or_eq_true_iff.mp hw with hmem | hrange
  · exact hlist c (of_decide_eq_true hmem) h.1
  · have hge := of_decide_eq_true (Bool.and_eq_true_iff.mp hrange).1
    have hle : 8192 ≤ c.toNat := hge
    omega

/-- What an escaped text consists of. -/
theorem graphic_of_mem_encode {t : Text} {c : Char} (h : c ∈ encode queryKept t) :
    c ≠ '#' ∧ isWhiteSpace c = false := by
  have hkept : queryKept c = true := by
    obtain ⟨d, -, hmem⟩ := List.mem_flatMap.mp h
    unfold encodeChar at hmem
    split at hmem
    · rename_i hkept
      rwa [List.mem_singleton.mp hmem]
    · obtain ⟨b, -, hb⟩ := List.mem_flatMap.mp hmem
      rcases mem_escapeByte hb with rfl | hx
      · decide
      · exact keepsEscapes_queryKept.hexDigit c hx
  constructor
  · rintro rfl
    exact absurd hkept (by decide)
  · exact isWhiteSpace_of_queryKept hkept

/-- The server reads of an escaped query what it reads of the query. -/
theorem valueText_encode (query name : Text) :
    valueText (encode queryKept query) name = valueText query name := by
  have hand : Separator '&' := ⟨by decide, by decide, by decide⟩
  have hvalues : queryValues (encode queryKept query) name = queryValues query name := by
    rw [queryValues, queryValues, hand.splitOn_encode, ← List.map_take, List.map_map]
    congr 2
    funext piece
    exact parameter_encode piece
  rw [valueText, valueText, hvalues]

/-- The name of a route, as a reference begins with it. -/
structure FileName (file : Text) : Prop where
  kept : ∀ c ∈ file, queryKept c = true
  /-- It is one component, and nothing else than a path. -/
  component : ∀ c ∈ ['?', '/', '@', '\\'], c ∉ file

instance (file : Text) : Decidable (FileName file) :=
  decidable_of_iff ((∀ c ∈ file, queryKept c = true) ∧ ∀ c ∈ ['?', '/', '@', '\\'], c ∉ file)
    ⟨fun h => ⟨h.1, h.2⟩, fun h => ⟨h.kept, h.component⟩⟩

section

variable {file : Text} (hfile : FileName file)

include hfile

theorem FileName.sendable : Sendable (file ++ "?q=".toList) := by
  intro c hc
  rcases List.mem_append.mp hc with h | h
  · have hkept := hfile.kept c h
    simp only [queryKept, Bool.and_eq_true, decide_eq_true_eq] at hkept
    refine ⟨hkept.1.1, ?_⟩
    rintro rfl
    exact absurd hkept.2 (by decide)
  · exact (by decide : Sendable "?q=".toList) c h

theorem FileName.encode_eq : encode queryKept file = file := by
  refine (List.flatMap_congr fun c hc => ?_).trans (List.flatMap_singleton' _)
  rw [encodeChar, if_pos (hfile.kept c hc)]

/-- The target of a reference to a route. -/
theorem target_reference (t : Text) :
    target (reference file t) = '/' :: file ++ '?' :: encode queryKept ('q' :: '=' :: sent t) := by
  have hq : Separator 'q' := ⟨by decide, by decide, by decide⟩
  have heq : Separator '=' := ⟨by decide, by decide, by decide⟩
  rw [reference, target_append (by simp) hfile.sendable, encode_append, encode_append,
    hfile.encode_eq, show encode queryKept "?q=".toList = "?q=".toList by decide,
    hq.encode_cons_self, heq.encode_cons_self]
  simp

theorem FileName.plain (t : Text) : Plain ('/' :: file) (encode queryKept t) where
  head := rfl
  slashes := by
    intro hprefix
    have hslash : '/' ∈ file := by
      obtain ⟨rest, hrest⟩ := hprefix
      rw [← (List.cons.inj hrest).2]
      exact List.mem_cons_self
    exact hfile.component '/' (by decide) hslash
  path_ne := by
    intro c hc
    rcases List.mem_cons.mp hc with rfl | hc
    · decide
    · have hno : ∀ d ∈ ['?', '/', '@', '\\'], c ≠ d := fun d hd heq =>
        hfile.component d hd (heq ▸ hc)
      refine ⟨hno _ (by decide), ?_, hno _ (by decide), hno _ (by decide),
        isWhiteSpace_of_queryKept (hfile.kept c hc)⟩
      rintro rfl
      exact absurd (hfile.kept _ hc) (by decide)
  query_ne := fun _ hc => graphic_of_mem_encode hc

/-- The server finds the path and the query of a reference. -/
theorem parse_target (t : Text) : parse (target (reference file t)) =
    some ⟨some ('/' :: file), encode queryKept ('q' :: '=' :: sent t)⟩ := by
  rw [target_reference hfile]
  exact parse_plain (hfile.plain _)

/-- Express matches the path of a reference. -/
theorem routePath_target (t : Text) :
    routePath (target (reference file t)) = some ('/' :: file) := by
  rw [target_reference hfile]
  exact routePath_plain (hfile.plain _)

/-- The text that a route reads of a request. -/
theorem queryText_target (t name : Text) :
    queryText (target (reference file t)) name = valueText ('q' :: '=' :: sent t) name := by
  rw [queryText_of_parse (parse_target hfile t), valueText_encode]

end

/-! ## What the server makes of the text -/

/-- A `+` is a blank. -/
def blankForPlus (c : Char) : Char := if c = '+' then ' ' else c

/-- The value of a parameter that is written as `t`. -/
def decoded (t : Text) : Text := unescape (t.map blankForPlus)

theorem unescape_plusToBlank (t : Text) : unescape (plusToBlank t) = decoded t := by
  -- with the blanks escaped too, both are one text
  have hkeep : KeepsEscapes fun c => decide (c ≠ ' ') := by
    refine ⟨by decide, fun c hc => ?_⟩
    simp only [decide_eq_true_eq]
    rintro rfl
    exact hc (by decide)
  have hsame : encode (fun c => decide (c ≠ ' ')) (plusToBlank t) =
      encode (fun c => decide (c ≠ ' ')) (t.map blankForPlus) := by
    induction t with
    | nil => rfl
    | cons c t ih =>
        rw [List.map_cons, encode_cons, ← ih,
          show plusToBlank (c :: t) = plusToBlank [c] ++ plusToBlank t by simp [plusToBlank],
          encode_append]
        congr 1
        by_cases hc : c = '+'
        · subst hc
          decide
        · simp [plusToBlank, blankForPlus, hc]
  rw [decoded, ← unescape_encode hkeep (plusToBlank t), hsame, unescape_encode hkeep]

theorem map_blankForPlus {t : Text} (h : '+' ∉ t) : t.map blankForPlus = t := by
  refine (List.map_congr_left fun c hc => ?_).trans (List.map_id t)
  rw [blankForPlus, if_neg]
  · rfl
  · rintro rfl
    exact h hc

/-- A value is read as it is written, up to blanks, or it gets shorter. -/
theorem decoded_cases (t : Text) :
    (NoEscape (t.map blankForPlus) ∧ decoded t = t.map blankForPlus) ∨
      (decoded t).length < t.length := by
  by_cases h : NoEscape (t.map blankForPlus)
  · exact Or.inl ⟨h, unescape_eq_self_iff.mpr h⟩
  · refine Or.inr ?_
    have hlen : (t.map blankForPlus).length = t.length := List.length_map _
    rw [← hlen]
    exact length_unescape_lt h

/-- A text that begins with a character other than `%` is decoded from there on. -/
theorem unescape_cons {c : Char} (hc : c ≠ '%') (t : Text) :
    unescape (c :: t) = c :: unescape t := by
  have hpieces : pieces (c :: t) = .char c :: pieces t := by
    rcases pieces_cons c t with ⟨_, _, _, _, h, _⟩ | ⟨_, h⟩
    · exact absurd h hc
    · exact h
  rw [unescape, hpieces]
  rfl

/-- The piece of the query that a script has written. -/
theorem parameter_q (p : Text) : parameter ('q' :: '=' :: p) = (['q'], decoded p) := by
  rw [← unescape_plusToBlank]
  rfl

/-- A piece that begins with another letter is of another name. -/
theorem parameter_cons_ne {c : Char} (hc : c ∉ ['q', '=', '+', '%']) (r : Text) :
    (parameter (c :: r)).1 ≠ ['q'] := by
  simp only [List.mem_cons, List.not_mem_nil, or_false, not_or] at hc
  obtain ⟨hq, heq, hplus, hpercent⟩ := hc
  have hname : (parameter (c :: r)).1 = c :: unescape ((plusToBlank r).takeWhile (· ≠ '=')) := by
    rw [← unescape_cons hpercent]
    simp [parameter, plusToBlank, hplus, heq]
  rw [hname]
  intro h
  exact hq (List.cons.inj h).1

/-- Without `&` there is one value. -/
theorem valueText_q {x : Text} (hand : '&' ∉ x) : valueText ('q' :: '=' :: x) ['q'] = decoded x := by
  have hno : '&' ∉ 'q' :: '=' :: x := by simpa using hand
  have hvalues : queryValues ('q' :: '=' :: x) ['q'] = [decoded x] := by
    rw [queryValues, splitOn_of_not_mem hno]
    simp [parameter_q]
  rw [valueText, hvalues]
  exact List.append_nil _

/-- The text before `&` is the value, unless a later piece is named `q` too. -/
theorem valueText_q_and {p rest : Text} (hand : '&' ∉ p)
    (hrest : ∀ piece ∈ rest.splitOn '&', (parameter piece).1 ≠ ['q']) :
    valueText ('q' :: '=' :: (p ++ '&' :: rest)) ['q'] = decoded p := by
  have hno : '&' ∉ 'q' :: '=' :: p := by simpa using hand
  have hsplit : ('q' :: '=' :: (p ++ '&' :: rest)).splitOn '&' =
      ('q' :: '=' :: p) :: rest.splitOn '&' := splitOn_append_cons hno rest
  have hnone : ((((rest.splitOn '&').take 999).map parameter).filterMap fun v =>
      if v.1 = ['q'] then some v.2 else none) = [] := by
    rw [List.filterMap_eq_nil_iff]
    intro v hv
    obtain ⟨piece, hpiece, rfl⟩ := List.mem_map.mp hv
    rw [if_neg (hrest piece (List.mem_of_mem_take hpiece))]
  have hvalues : queryValues ('q' :: '=' :: (p ++ '&' :: rest)) ['q'] = [decoded p] := by
    rw [queryValues, hsplit, List.take_succ_cons, List.map_cons, List.filterMap_cons, parameter_q,
      hnone]
    rfl
  rw [valueText, hvalues]
  exact List.append_nil _

end Browser
