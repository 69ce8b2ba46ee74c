import FbTesting.Base.Text

/-!
# Python 2 strings and their `repr`

A Python 2 string is a byte `str` or a `unicode`.  The two are equal, and hash
alike, when their characters are, so a set keeps the first of them; only `repr`
tells them apart, by the prefix `u`.

`repr` puts the characters between quotes.  It prefers the single quote and
takes the double one when the text has single quotes and no double ones.  It
escapes the quote it has chosen, the backslash, the control characters and
everything outside ASCII.  `str` of a list shows each element by `repr`.

The escapes form a prefix code: `unreprChar` reads one character back off the
front of a text.  From this follows that the text of a list determines the list
(`strList_injective`).  The text of a list is printable ASCII whatever the
elements are (`printable_of_mem_strList`).
-/

namespace Python

open Base

/-! ## Strings -/

/-- A Python 2 string.  A byte string of the analyser is plain ASCII. -/
structure PyString where
  /-- Whether this is a `unicode` rather than a `str`. -/
  unicode : Bool
  /-- The characters. -/
  text : Text
  /-- A byte string has no character outside ASCII. -/
  ascii : unicode = false → ∀ c ∈ text, c.toNat < 128
deriving DecidableEq

/-- The string lxml makes of a text: `str` for plain ASCII, `unicode` otherwise. -/
def PyString.ofText (t : Text) : PyString :=
  if h : ∀ c ∈ t, c.toNat < 128 then ⟨false, t, fun _ => h⟩ else ⟨true, t, nofun⟩

@[simp] theorem PyString.ofText_text (t : Text) : (PyString.ofText t).text = t := by
  unfold PyString.ofText
  split <;> rfl

/-! ## `repr` -/

/-- The quote `repr` puts around a text. -/
def reprQuote (t : Text) : Char := if '\'' ∈ t ∧ '"' ∉ t then '"' else '\''

/-- One character between quotes. -/
def reprChar (quote c : Char) : Text :=
  if c = quote ∨ c = '\\' then ['\\', c]
  else if c = '\t' then ['\\', 't']
  else if c = '\n' then ['\\', 'n']
  else if c = '\r' then ['\\', 'r']
  else if c.toNat < 32 ∨ 127 ≤ c.toNat ∧ c.toNat < 256 then '\\' :: 'x' :: hex 2 c.toNat
  else if c.toNat < 127 then [c]
  else if c.toNat < 65536 then '\\' :: 'u' :: hex 4 c.toNat
  else '\\' :: 'U' :: hex 8 c.toNat

/-- The characters between quotes. -/
def reprBody (quote : Char) (t : Text) : Text := t.flatMap (reprChar quote)

/-- `repr` of a string. -/
def repr (s : PyString) : Text :=
  (if s.unicode then ['u'] else []) ++
    reprQuote s.text :: (reprBody (reprQuote s.text) s.text ++ [reprQuote s.text])

/-- `repr` of an element that may be `None`. -/
def reprElem : Option PyString → Text
  | none => "None".toList
  | some s => repr s

/-- The elements of a list after the first, and the closing bracket. -/
def strTail : List (Option PyString) → Text
  | [] => [']']
  | a :: l => ',' :: ' ' :: (reprElem a ++ strTail l)

/-- `str` of a list. -/
def strList : List (Option PyString) → Text
  | [] => ['[', ']']
  | a :: l => '[' :: (reprElem a ++ strTail l)

@[simp] theorem reprBody_nil (q : Char) : reprBody q [] = [] := rfl

@[simp] theorem reprBody_cons (q c : Char) (t : Text) :
    reprBody q (c :: t) = reprChar q c ++ reprBody q t := by simp [reprBody]

@[simp] theorem reprBody_append (q : Char) (t u : Text) :
    reprBody q (t ++ u) = reprBody q t ++ reprBody q u := by simp [reprBody]

theorem reprQuote_cases (t : Text) : reprQuote t = '\'' ∨ reprQuote t = '"' := by
  unfold reprQuote
  split
  · exact Or.inr rfl
  · exact Or.inl rfl

/-! ## Reading one character back -/

/-- The character a fixed number of hexadecimal digits stands for. -/
def unreprHex (w : Nat) (t : Text) : Option (Char × Text) :=
  (hexValue (t.take w)).map fun n => (Char.ofNat n, t.drop w)

/-- What follows a backslash. -/
def unreprEscape : Text → Option (Char × Text)
  | [] => none
  | e :: r =>
      if e = 'x' then unreprHex 2 r
      else if e = 'u' then unreprHex 4 r
      else if e = 'U' then unreprHex 8 r
      else if e = 't' then some ('\t', r)
      else if e = 'n' then some ('\n', r)
      else if e = 'r' then some ('\r', r)
      else some (e, r)

/-- The first character of a text between quotes, and what follows it. -/
def unreprChar : Text → Option (Char × Text)
  | [] => none
  | c :: r => if c = '\\' then unreprEscape r else some (c, r)

theorem unreprHex_hex {w : Nat} {c : Char} (h : c.toNat < 16 ^ w) (x : Text) :
    unreprHex w (hex w c.toNat ++ x) = some (c, x) := by
  have htake : (hex w c.toNat ++ x).take w = hex w c.toNat := by
    rw [List.take_append_of_le_length (by simp), List.take_of_length_le (by simp)]
  have hdrop : (hex w c.toNat ++ x).drop w = x := by
    rw [List.drop_append_of_le_length (by simp), List.drop_of_length_le (by simp), List.nil_append]
  rw [unreprHex, htake, hdrop, hexValue_hex h, Option.map_some, Char.ofNat_toNat]

theorem char_toNat_lt (c : Char) : c.toNat < 16 ^ 8 := by
  have h := c.val.toNat_lt
  exact Nat.lt_of_lt_of_le h (by decide)

/-- An escape is read back, whatever follows it. -/
theorem unreprChar_reprChar {q : Char} (hq : q = '\'' ∨ q = '"') (c : Char) (x : Text) :
    unreprChar (reprChar q c ++ x) = some (c, x) := by
  unfold reprChar
  split_ifs with h1 h2 h3 h4 h5 h6 h7
  · rcases h1 with rfl | rfl
    · rcases hq with rfl | rfl <;> rfl
    · rfl
  · subst h2; rfl
  · subst h3; rfl
  · subst h4; rfl
  · have hlt : c.toNat < 16 ^ 2 := by omega
    simpa [unreprChar, unreprEscape] using unreprHex_hex hlt x
  · have hne : c ≠ '\\' := fun h => h1 (Or.inr h)
    simp [unreprChar, hne]
  · have hlt : c.toNat < 16 ^ 4 := by omega
    simpa [unreprChar, unreprEscape] using unreprHex_hex hlt x
  · simpa [unreprChar, unreprEscape] using unreprHex_hex (char_toNat_lt c) x

/-- The escapes of two characters are the same only if the characters are. -/
theorem reprChar_cancel {q c d : Char} {x y : Text} (hq : q = '\'' ∨ q = '"')
    (h : reprChar q c ++ x = reprChar q d ++ y) : c = d ∧ x = y := by
  have hc := unreprChar_reprChar hq c x
  rw [h, unreprChar_reprChar hq d y] at hc
  simpa [eq_comm] using hc

/-- An escape never begins with the quote. -/
theorem reprChar_ne_quote {q c : Char} {x y : Text} (hq : q = '\'' ∨ q = '"') :
    reprChar q c ++ x ≠ q :: y := by
  intro h
  have hx := unreprChar_reprChar hq c x
  have hne : q ≠ '\\' := by rcases hq with rfl | rfl <;> decide
  rw [h] at hx
  simp only [unreprChar, hne, if_false, Option.some.injEq, Prod.mk.injEq] at hx
  obtain ⟨rfl, rfl⟩ := hx
  simp [reprChar] at h

/-! ## The text of a list determines the list -/

/-- The closing quote ends the text between quotes. -/
theorem reprBody_cancel {q : Char} (hq : q = '\'' ∨ q = '"') {x y : Text} :
    ∀ {t u : Text}, reprBody q t ++ q :: x = reprBody q u ++ q :: y → t = u ∧ x = y
  | [], [], h => by simpa using h
  | [], d :: u, h => by
      rw [reprBody_cons, List.append_assoc] at h
      exact absurd h.symm (reprChar_ne_quote hq)
  | c :: t, [], h => by
      rw [reprBody_cons, List.append_assoc] at h
      exact absurd h (reprChar_ne_quote hq)
  | c :: t, d :: u, h => by
      rw [reprBody_cons, reprBody_cons, List.append_assoc, List.append_assoc] at h
      obtain ⟨rfl, hrest⟩ := reprChar_cancel hq h
      obtain ⟨rfl, rfl⟩ := reprBody_cancel hq hrest
      exact ⟨rfl, rfl⟩

theorem quoted_cancel {t u x y : Text}
    (h : reprQuote t :: (reprBody (reprQuote t) t ++ [reprQuote t]) ++ x =
      reprQuote u :: (reprBody (reprQuote u) u ++ [reprQuote u]) ++ y) : t = u ∧ x = y := by
  simp only [List.cons_append, List.append_assoc, List.nil_append, List.cons.injEq] at h
  obtain ⟨hq, hbody⟩ := h
  rw [← hq] at hbody
  exact reprBody_cancel (reprQuote_cases t) hbody

/-- `repr` is a prefix code. -/
theorem repr_cancel {s t : PyString} {x y : Text} (h : repr s ++ x = repr t ++ y) :
    s = t ∧ x = y := by
  obtain ⟨us, ts, hs⟩ := s
  obtain ⟨ut, tt, ht⟩ := t
  -- a `u` in front is not a quote, so the two strings are of one kind
  have hkind : us = ut := by
    cases us <;> cases ut
    · rfl
    · rcases reprQuote_cases ts with hq | hq <;> simp [repr, hq] at h
    · rcases reprQuote_cases tt with hq | hq <;> simp [repr, hq] at h
    · rfl
  subst hkind
  simp only [repr, List.append_assoc, List.append_cancel_left_eq] at h
  obtain ⟨rfl, rfl⟩ := quoted_cancel (by simpa using h)
  exact ⟨rfl, rfl⟩

theorem repr_ne_none {s : PyString} {x y : Text} : "None".toList ++ x ≠ repr s ++ y := by
  intro h
  obtain ⟨us, ts, hs⟩ := s
  cases us with
  | true => simp [repr] at h
  | false => rcases reprQuote_cases ts with hq | hq <;> simp [repr, hq] at h

theorem reprElem_cancel {a b : Option PyString} {x y : Text}
    (h : reprElem a ++ x = reprElem b ++ y) : a = b ∧ x = y := by
  cases a with
  | none =>
      cases b with
      | none => exact ⟨rfl, by simpa [reprElem] using h⟩
      | some t => exact absurd h repr_ne_none
  | some s =>
      cases b with
      | none => exact absurd h.symm repr_ne_none
      | some t =>
          obtain ⟨rfl, rfl⟩ := repr_cancel h
          exact ⟨rfl, rfl⟩

theorem strTail_injective : ∀ {l m : List (Option PyString)}, strTail l = strTail m → l = m
  | [], [], _ => rfl
  | [], _ :: _, h => by simp [strTail] at h
  | _ :: _, [], h => by simp [strTail] at h
  | a :: l, b :: m, h => by
      simp only [strTail, List.cons.injEq, true_and] at h
      obtain ⟨rfl, htail⟩ := reprElem_cancel h
      rw [strTail_injective htail]

theorem reprElem_ne_bracket {a : Option PyString} {x y : Text} : reprElem a ++ x ≠ ']' :: y := by
  intro h
  cases a with
  | none => simp [reprElem] at h
  | some s =>
      obtain ⟨us, ts, hs⟩ := s
      cases us with
      | true => simp [reprElem, repr] at h
      | false => rcases reprQuote_cases ts with hq | hq <;> simp [reprElem, repr, hq] at h

/-- The text of a list determines the list. -/
theorem strList_injective : ∀ {l m : List (Option PyString)}, strList l = strList m → l = m
  | [], [], _ => rfl
  | [], _ :: _, h => by
      simp only [strList, List.cons.injEq, true_and] at h
      exact absurd h.symm reprElem_ne_bracket
  | _ :: _, [], h => by
      simp only [strList, List.cons.injEq, true_and] at h
      exact absurd h reprElem_ne_bracket
  | a :: l, b :: m, h => by
      simp only [strList, List.cons.injEq, true_and] at h
      obtain ⟨rfl, htail⟩ := reprElem_cancel h
      rw [strTail_injective htail]

/-! ## The text of a list is printable -/

/-- A printable ASCII character. -/
def Printable (c : Char) : Prop := 32 ≤ c.toNat ∧ c.toNat < 127

instance (c : Char) : Decidable (Printable c) := inferInstanceAs (Decidable (_ ∧ _))

theorem printable_hexDigit {n : Nat} (h : n < 16) : Printable (hexDigit n) := by
  revert n
  decide

theorem printable_of_mem_hex {c : Char} : ∀ {w n : Nat}, c ∈ hex w n → Printable c
  | 0, _, h => by cases h
  | w + 1, n, h => by
      rcases List.mem_append.mp h with h | h
      · exact printable_of_mem_hex h
      · rw [List.mem_singleton.mp h]
        exact printable_hexDigit (Nat.mod_lt _ (by decide))

theorem printable_of_mem_reprChar {q c d : Char} (hq : q = '\'' ∨ q = '"')
    (h : d ∈ reprChar q c) : Printable d := by
  unfold reprChar at h
  split_ifs at h with h1 h2 h3 h4 h5 h6 h7
  · rcases h1 with rfl | rfl
    · rcases hq with rfl | rfl <;> simp at h <;> rcases h with rfl | rfl <;> decide
    · simp at h; subst h; decide
  · simp at h; rcases h with rfl | rfl <;> decide
  · simp at h; rcases h with rfl | rfl <;> decide
  · simp at h; rcases h with rfl | rfl <;> decide
  · simp only [List.mem_cons] at h
    rcases h with rfl | rfl | h
    · decide
    · decide
    · exact printable_of_mem_hex h
  · rw [List.mem_singleton.mp h]
    exact ⟨by omega, h6⟩
  · simp only [List.mem_cons] at h
    rcases h with rfl | rfl | h
    · decide
    · decide
    · exact printable_of_mem_hex h
  · simp only [List.mem_cons] at h
    rcases h with rfl | rfl | h
    · decide
    · decide
    · exact printable_of_mem_hex h

theorem printable_of_mem_repr {s : PyString} {d : Char} (h : d ∈ repr s) : Printable d := by
  have hq : Printable (reprQuote s.text) := by
    rcases reprQuote_cases s.text with hq | hq <;> rw [hq] <;> decide
  rcases List.mem_append.mp h with h | h
  · split at h
    · rw [List.mem_singleton.mp h]; decide
    · cases h
  · rcases List.mem_cons.mp h with rfl | h
    · exact hq
    · rcases List.mem_append.mp h with h | h
      · obtain ⟨c, _, hc⟩ := List.mem_flatMap.mp h
        exact printable_of_mem_reprChar (reprQuote_cases s.text) hc
      · rw [List.mem_singleton.mp h]
        exact hq

theorem printable_of_mem_reprElem {a : Option PyString} {d : Char} (h : d ∈ reprElem a) :
    Printable d := by
  cases a with
  | none => revert d; decide
  | some s => exact printable_of_mem_repr h

theorem printable_of_mem_strTail {d : Char} : ∀ {l : List (Option PyString)},
    d ∈ strTail l → Printable d
  | [], h => by rw [List.mem_singleton.mp h]; decide
  | a :: l, h => by
      simp only [strTail, List.mem_cons, List.mem_append] at h
      rcases h with rfl | rfl | h | h
      · decide
      · decide
      · exact printable_of_mem_reprElem h
      · exact printable_of_mem_strTail h

/-- The text of a list is printable ASCII. -/
theorem printable_of_mem_strList {d : Char} {l : List (Option PyString)}
    (h : d ∈ strList l) : Printable d := by
  cases l with
  | nil => revert d; decide
  | cons a l =>
      simp only [strList, List.mem_cons, List.mem_append] at h
      rcases h with rfl | h | h
      · decide
      · exact printable_of_mem_reprElem h
      · exact printable_of_mem_strTail h

end Python
