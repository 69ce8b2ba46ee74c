import FbTesting.Base.Json

/-!
# The laws of the JSON reader

`parse_dump`, `parse_stringify` and `parse_prefix_dump`, with what they rest on: the
reader undoes each piece that a writer of a legible style puts down (characters,
strings, integers, then values by recursion on the value), and it is monotone in the
text and in its fuel.  What is dumped is plain ASCII (`plain_dump`).
-/

namespace Base.Json

/-! ## Characters and strings -/

theorem readHex4_hex {n : Nat} (h : n < 65536) (x : Text) :
    readHex4 (hex 4 n ++ x) = some (n, x) := by
  have htake : (hex 4 n ++ x).take 4 = hex 4 n := by
    rw [List.take_append_of_le_length (by simp), List.take_of_length_le (by simp)]
  have hdrop : (hex 4 n ++ x).drop 4 = x := by
    rw [List.drop_append_of_le_length (by simp), List.drop_of_length_le (by simp), List.nil_append]
  rw [readHex4, if_pos (by simp), htake, hdrop, hexValue_hex (by omega), Option.map_some]

theorem readEscape_escape4 {c : Char} (h : c.toNat < 65536) (x : Text) :
    readEscape ('u' :: (hex 4 c.toNat ++ x)) = some (c, x) := by
  have hvalid : c.toNat < 55296 ∨ 57344 ≤ c.toNat := by
    cases c.valid with
    | inl hv => exact Or.inl hv
    | inr hv => exact Or.inr hv.1
  have h1 : ¬(55296 ≤ c.toNat ∧ c.toNat < 56320) := by omega
  have h2 : ¬(56320 ≤ c.toNat ∧ c.toNat < 57344) := by omega
  simp only [readEscape, if_true, readHex4_hex h, if_neg h1, if_neg h2, Char.ofNat_toNat]

/-- A pair of escapes is read as one character. -/
theorem readEscape_pair {hi lo : Nat} (hhi : 55296 ≤ hi ∧ hi < 56320)
    (hlo : 56320 ≤ lo ∧ lo < 57344) (x : Text) :
    readEscape ('u' :: (hex 4 hi ++ (escape4 lo ++ x))) =
      some (Char.ofNat (65536 + (hi - 55296) * 1024 + (lo - 56320)), x) := by
  have h1 : readHex4 (hex 4 hi ++ (escape4 lo ++ x)) = some (hi, escape4 lo ++ x) :=
    readHex4_hex (by omega) _
  have h2 : readHex4 (hex 4 lo ++ x) = some (lo, x) := readHex4_hex (by omega) _
  simp only [readEscape, if_true, h1, if_pos hhi]
  simp only [escape4, List.cons_append, readPair, if_true, h2, Option.map_some, if_pos hlo]

/-- The two halves of a character outside the basic plane. -/
theorem surrogate_halves {n : Nat} (hn : 65536 ≤ n) (hlt : n < 1114112) :
    ∃ hi lo, hi = 55296 + (n - 65536) / 1024 ∧ lo = 56320 + (n - 65536) % 1024 ∧
      (55296 ≤ hi ∧ hi < 56320) ∧ (56320 ≤ lo ∧ lo < 57344) ∧
      65536 + (hi - 55296) * 1024 + (lo - 56320) = n := by
  refine ⟨_, _, rfl, rfl, ?_, ?_, ?_⟩ <;> omega

theorem readChar_pair {c : Char} (h : 65536 ≤ c.toNat) (x : Text) :
    readChar (escape4 (55296 + (c.toNat - 65536) / 1024) ++
      (escape4 (56320 + (c.toNat - 65536) % 1024) ++ x)) = some (c, x) := by
  have hlt : c.toNat < 1114112 := by
    cases c.valid with
    | inl hv => exact Nat.lt_of_lt_of_le hv (by decide)
    | inr hv => exact hv.2
  obtain ⟨hi, lo, hhi, hlo, hhi', hlo', hsum⟩ := surrogate_halves h hlt
  rw [← hhi, ← hlo, escape4, List.cons_append, List.cons_append, readChar, if_pos rfl,
    readEscape_pair hhi' hlo', hsum, Char.ofNat_toNat]

/-- A character is written as a short escape, as itself, or by its code. -/
theorem asciiChar_cases (c : Char) :
    (∃ e, asciiChar c = ['\\', e] ∧ ∀ x, readEscape (e :: x) = some (c, x)) ∨
      (asciiChar c = [c] ∧ c ≠ '"' ∧ c ≠ '\\' ∧ 32 ≤ c.toNat) ∨
      (asciiChar c = escape4 c.toNat ∧ c.toNat < 65536) ∨
      (asciiChar c = escape4 (55296 + (c.toNat - 65536) / 1024) ++
        escape4 (56320 + (c.toNat - 65536) % 1024) ∧ 65536 ≤ c.toNat) := by
  by_cases hshort : c ∈ ['"', '\\', '\n', '\r', '\t', '\x0c', '\x08']
  · have hall : ∀ d ∈ ['"', '\\', '\n', '\r', '\t', '\x0c', '\x08'],
        ∃ e, asciiChar d = ['\\', e] ∧ ∀ x, readEscape (e :: x) = some (d, x) := by
      simp only [List.forall_mem_cons]
      exact ⟨⟨_, rfl, fun _ => rfl⟩, ⟨_, rfl, fun _ => rfl⟩, ⟨_, rfl, fun _ => rfl⟩,
        ⟨_, rfl, fun _ => rfl⟩, ⟨_, rfl, fun _ => rfl⟩, ⟨_, rfl, fun _ => rfl⟩,
        ⟨_, rfl, fun _ => rfl⟩, fun _ hd => absurd hd List.not_mem_nil⟩
    exact Or.inl (hall c hshort)
  · simp only [List.mem_cons, List.not_mem_nil, or_false, not_or] at hshort
    obtain ⟨h1, h2, h3, h4, h5, h6, h7⟩ := hshort
    rw [asciiChar, if_neg h1, if_neg h2, if_neg h3, if_neg h4, if_neg h5, if_neg h6, if_neg h7]
    by_cases hascii : 32 ≤ c.toNat ∧ c.toNat ≤ 126
    · rw [if_pos hascii]
      exact Or.inr (Or.inl ⟨rfl, h1, h2, hascii.1⟩)
    · rw [if_neg hascii]
      by_cases hbasic : c.toNat < 65536
      · rw [if_pos hbasic]
        exact Or.inr (Or.inr (Or.inl ⟨rfl, hbasic⟩))
      · rw [if_neg hbasic]
        exact Or.inr (Or.inr (Or.inr ⟨rfl, Nat.le_of_not_lt hbasic⟩))

/-- A character that was written is read back, whatever follows it. -/
theorem readChar_asciiChar (c : Char) (x : Text) : readChar (asciiChar c ++ x) = some (c, x) := by
  rcases asciiChar_cases c with ⟨e, hc, hread⟩ | ⟨hc, -, hslash, hge⟩ | ⟨hc, hbasic⟩ | ⟨hc, hpair⟩
  · rw [hc]
    exact hread x
  · rw [hc, List.singleton_append, readChar, if_neg hslash, if_neg (Nat.not_lt.mpr hge)]
  · rw [hc]
    exact readEscape_escape4 hbasic x
  · rw [hc, List.append_assoc]
    exact readChar_pair hpair x

/-- No written character begins with a quote. -/
theorem asciiChar_head (c : Char) : ∃ d ds, asciiChar c = d :: ds ∧ d ≠ '"' := by
  rcases asciiChar_cases c with ⟨e, hc, -⟩ | ⟨hc, hquote, -⟩ | ⟨hc, -⟩ | ⟨hc, -⟩
  · exact ⟨'\\', [e], hc, by decide⟩
  · exact ⟨c, [], hc, hquote⟩
  · exact ⟨'\\', _, hc, by decide⟩
  · exact ⟨'\\', _, hc, by decide⟩

/-- A character that is written as it is, or in plain ASCII. -/
theorem plainChar_cases (c : Char) :
    (plainChar c = [c] ∧ c ≠ '"' ∧ c ≠ '\\' ∧ 32 ≤ c.toNat) ∨ plainChar c = asciiChar c := by
  unfold plainChar
  split
  · rename_i h
    exact Or.inl ⟨rfl, h.2.1, h.2.2, h.1⟩
  · exact Or.inr rfl

/-- What a reader asks of a style: there is nothing but white space in a separator
behind its first character, and the characters of strings are read back. -/
structure Style.Legible (s : Style) : Prop where
  comma : ∃ ws, s.comma = ',' :: ws ∧ ∀ c ∈ ws, isWs c = true
  colon : ∃ ws, s.colon = ':' :: ws ∧ ∀ c ∈ ws, isWs c = true
  char : ∀ c x, readChar (s.char c ++ x) = some (c, x)
  head : ∀ c, ∃ d ds, s.char c = d :: ds ∧ d ≠ '"'

theorem legible_dumpStyle : dumpStyle.Legible where
  comma := ⟨[' '], rfl, by decide⟩
  colon := ⟨[' '], rfl, by decide⟩
  char := readChar_asciiChar
  head := asciiChar_head

theorem legible_stringifyStyle : stringifyStyle.Legible where
  comma := ⟨[], rfl, by decide⟩
  colon := ⟨[], rfl, by decide⟩
  char := fun c x => by
    show readChar (plainChar c ++ x) = some (c, x)
    cases plainChar_cases c with
    | inl h =>
        obtain ⟨hc, _, hslash, hge⟩ := h
        rw [hc, List.singleton_append, readChar, if_neg hslash, if_neg (Nat.not_lt.mpr hge)]
    | inr h =>
        rw [h]
        exact readChar_asciiChar c x
  head := fun c => by
    cases plainChar_cases c with
    | inl h => exact ⟨c, [], h.1, h.2.1⟩
    | inr h =>
        obtain ⟨d, ds, hd, hne⟩ := asciiChar_head c
        exact ⟨d, ds, h.trans hd, hne⟩

variable {s : Style}

theorem readChars_written (hs : s.Legible) (t x : Text) : ∀ n : Nat, t.length < n →
    readChars n (t.flatMap s.char ++ '"' :: x) = some (t, x) := by
  induction t with
  | nil =>
      intro n h
      cases n with
      | zero => omega
      | succ n => simp [readChars]
  | cons c t ih =>
      intro n h
      cases n with
      | zero => omega
      | succ n =>
          obtain ⟨d, ds, hd, hne⟩ := hs.head c
          have hread := hs.char c (t.flatMap s.char ++ '"' :: x)
          rw [List.flatMap_cons, List.append_assoc]
          rw [hd, List.cons_append] at hread ⊢
          have hn : t.length < n := by simpa using h
          simp only [readChars, if_neg hne, hread, Option.bind_some, ih n hn, Option.map_some]

theorem length_le_written (hs : s.Legible) (t : Text) : t.length ≤ (t.flatMap s.char).length := by
  induction t with
  | nil => simp
  | cons c t ih =>
      obtain ⟨d, ds, hd, _⟩ := hs.head c
      simp only [List.flatMap_cons, List.length_append, List.length_cons, hd]
      omega

/-- A string that was written is read back. -/
theorem readString_written (hs : s.Legible) (t x : Text) :
    readString (t.flatMap s.char ++ '"' :: x) = some (t, x) := by
  refine readChars_written hs t x _ ?_
  have hle := length_le_written hs t
  simp only [List.length_append, List.length_cons]
  omega

/-! ## Integers -/

theorem decimal_head {n : Nat} (h : 0 < n) : (decimal n).head? ≠ some '0' := by
  induction n using Nat.strongRecOn with
  | ind n ih =>
      rw [decimal, Nat.toDigits_eq_if (by decide)]
      split
      · rename_i hlt
        have hsmall : ∀ m < 10, 0 < m → [Nat.digitChar m].head? ≠ some '0' := by decide
        exact hsmall n hlt h
      · rename_i hge
        have hdiv : 0 < n / 10 := Nat.div_pos (by omega) (by decide)
        have hne := Nat.toDigits_ne_nil (n := n / 10) (b := 10)
        have hhead := ih (n / 10) (by omega) hdiv
        rw [List.head?_append_of_ne_nil _ hne]
        exact hhead

theorem isIntPart_decimal (n : Nat) : isIntPart (decimal n) = true := by
  rw [isIntPart, isDecimal_decimal, Bool.true_and]
  cases n with
  | zero => decide
  | succ n => simp [decimal_head (Nat.succ_pos n)]

theorem takeWhile_eq_self {p : Char → Bool} {t : Text} (h : ∀ c ∈ t, p c = true) :
    t.takeWhile p = t := by
  induction t with
  | nil => rfl
  | cons c t ih =>
      rw [List.takeWhile_cons, if_pos (h c (by simp)), ih fun d hd => h d (List.mem_cons_of_mem _ hd)]

theorem dropWhile_eq_nil {p : Char → Bool} {t : Text} (h : ∀ c ∈ t, p c = true) :
    t.dropWhile p = [] := by
  induction t with
  | nil => rfl
  | cons c t ih =>
      rw [List.dropWhile_cons, if_pos (h c (by simp)), ih fun d hd => h d (List.mem_cons_of_mem _ hd)]

theorem unsignedValue_decimal (neg : Bool) (lit : Text) (n : Nat) :
    unsignedValue neg lit (decimal n) = some (num (if neg then -(n : Int) else n)) := by
  have hdig : ∀ c ∈ decimal n, c.isDigit = true := fun c => isDigit_of_mem_decimal
  simp only [unsignedValue, takeWhile_eq_self hdig, dropWhile_eq_nil hdig, isIntPart_decimal,
    decimalValue_decimal, if_true]

theorem numberValue_intText (n : Int) : numberValue (intText n) = some (num n) := by
  unfold intText
  split
  · rename_i hneg
    rw [numberValue, if_pos rfl, unsignedValue_decimal, if_pos rfl]
    congr 2
    omega
  · rename_i hpos
    have hvalue := unsignedValue_decimal false (decimal n.natAbs) n.natAbs
    cases hd : decimal n.natAbs with
    | nil => exact absurd hd (decimal_ne_nil _)
    | cons c r =>
        have hc : c.isDigit = true := isDigit_of_mem_decimal (n := n.natAbs) (by simp [hd])
        have hne : c ≠ '-' := by rintro rfl; exact absurd hc (by decide)
        rw [hd] at hvalue
        rw [numberValue, if_neg hne, hvalue]
        simp only [Bool.false_eq_true, if_false, Option.some.injEq, num.injEq]
        omega

/-- A text that does not continue a number. -/
def Stops (x : Text) : Prop := ∀ c ∈ x.head?, isNumChar c = false

theorem stops_nil : Stops [] := by simp [Stops]

theorem stops_cons {c : Char} {x : Text} (h : isNumChar c = false) : Stops (c :: x) := by
  simpa [Stops] using h

theorem isNumChar_intText (n : Int) : ∀ c ∈ intText n, isNumChar c = true := by
  intro c hc
  have hdig : ∀ d ∈ decimal n.natAbs, isNumChar d = true := by
    intro d hd
    simp [isNumChar, isDigit_of_mem_decimal hd]
  unfold intText at hc
  split at hc
  · cases List.mem_cons.mp hc with
    | inl h => subst h; decide
    | inr h => exact hdig c h
  · exact hdig c hc

theorem intText_head (n : Int) : ∃ c r, intText n = c :: r ∧ (c = '-' ∨ c.isDigit = true) := by
  unfold intText
  split
  · exact ⟨_, _, rfl, Or.inl rfl⟩
  · cases hd : decimal n.natAbs with
    | nil => exact absurd hd (decimal_ne_nil _)
    | cons c r => exact ⟨c, r, rfl, Or.inr (isDigit_of_mem_decimal (n := n.natAbs) (by simp [hd]))⟩

theorem readScalar_intText (n : Int) {x : Text} (hx : Stops x) :
    readScalar (intText n ++ x) = some (num n, x) := by
  obtain ⟨c, r, hcr, hc⟩ := intText_head n
  have hname : ∀ d : Char, d = 'n' ∨ d = 't' ∨ d = 'f' → c ≠ d := by
    rintro d hd rfl
    rcases hc with rfl | hc
    · revert hd; decide
    · rcases hd with rfl | rfl | rfl <;> exact absurd hc (by decide)
  have hnot : ∀ (d : Char) (w : Text), d = 'n' ∨ d = 't' ∨ d = 'f' →
      ¬(d :: w <+: intText n ++ x) := by
    intro d w hd hp
    rw [hcr, List.cons_append, List.cons_prefix_cons] at hp
    exact hname d hd hp.1.symm
  have hnull : ¬("null".toList <+: intText n ++ x) := hnot 'n' _ (by simp)
  have htrue : ¬("true".toList <+: intText n ++ x) := hnot 't' _ (by simp)
  have hfalse : ¬("false".toList <+: intText n ++ x) := hnot 'f' _ (by simp)
  rw [readScalar, if_neg hnull, if_neg htrue, if_neg hfalse,
    takeWhile_append_eq_iff.mpr ⟨isNumChar_intText n, hx⟩,
    List.dropWhile_append_of_pos (isNumChar_intText n), dropWhile_of_head? hx,
    numberValue_intText, Option.map_some]

/-! ## Reading back a written value -/

mutual

/-- A value without numbers that are kept by their literal. -/
def Exact : Json → Prop
  | real _ => False
  | arr vs => ExactElems vs
  | obj ms => ExactMembers ms
  | _ => True

/-- Every element is exact. -/
def ExactElems : List Json → Prop
  | [] => True
  | v :: vs => Exact v ∧ ExactElems vs

/-- Every member is exact. -/
def ExactMembers : List (Text × Json) → Prop
  | [] => True
  | (_, v) :: ms => Exact v ∧ ExactMembers ms

end

theorem skipWs_of_not {c : Char} (h : isWs c = false) (t : Text) : skipWs (c :: t) = c :: t := by
  simp [skipWs, h]

theorem skipWs_append {ws : Text} (h : ∀ c ∈ ws, isWs c = true) (t : Text) :
    skipWs (ws ++ t) = skipWs t := by
  rw [skipWs, List.dropWhile_append_of_pos h]
  rfl

theorem parseValue_blank {ws : Text} (h : ∀ c ∈ ws, isWs c = true) (n : Nat) (t : Text) :
    parseValue n (ws ++ t) = parseValue n t := by
  cases n with
  | zero => simp [parseValue]
  | succ n => simp only [parseValue, skipWs_append h]

theorem parseElems_blank {ws : Text} (h : ∀ c ∈ ws, isWs c = true) (n : Nat) (t : Text) :
    parseElems n (ws ++ t) = parseElems n t := by
  cases n with
  | zero => simp [parseElems]
  | succ n => simp only [parseElems, parseValue_blank h]

theorem parseMembers_blank {ws : Text} (h : ∀ c ∈ ws, isWs c = true) (n : Nat) (t : Text) :
    parseMembers n (ws ++ t) = parseMembers n t := by
  cases n with
  | zero => simp [parseMembers]
  | succ n => simp only [parseMembers, skipWs_append h]

/-- A written value begins with a character that is neither white space nor a
closing bracket or brace. -/
theorem render_head (s : Style) (v : Json) (h : Exact v) :
    ∃ c r, render s v = c :: r ∧ isWs c = false ∧ c ≠ ']' ∧ c ≠ '}' := by
  cases v with
  | null => exact ⟨'n', _, rfl, by decide⟩
  | bool b =>
      cases b with
      | true => exact ⟨'t', _, rfl, by decide⟩
      | false => exact ⟨'f', _, rfl, by decide⟩
  | num n =>
      obtain ⟨c, r, hcr, hc⟩ := intText_head n
      refine ⟨c, r, hcr, ?_⟩
      cases hc with
      | inl hc => subst hc; decide
      | inr hc =>
          have hne : ∀ d : Char, d.isDigit = false → c ≠ d := by
            rintro d hd rfl
            rw [hc] at hd
            cases hd
          simp [isWs, hne ' ' (by decide), hne '\t' (by decide), hne '\n' (by decide),
            hne '\r' (by decide), hne ']' (by decide), hne '}' (by decide)]
  | real lit => exact absurd h (by simp [Exact])
  | str t => exact ⟨'"', _, rfl, by decide⟩
  | arr vs =>
      cases vs with
      | nil => exact ⟨'[', _, rfl, by decide⟩
      | cons v vs => exact ⟨'[', _, rfl, by decide⟩
  | obj ms =>
      cases ms with
      | nil => exact ⟨'{', _, rfl, by decide⟩
      | cons m ms => exact ⟨'{', _, rfl, by decide⟩

/-- The text between the opening bracket and the end of an array. -/
def elemsText (s : Style) : List Json → Text
  | [] => [']']
  | v :: vs => render s v ++ renderElems s vs

/-- The text between the opening brace and the end of an object. -/
def membersText (s : Style) : List (Text × Json) → Text
  | [] => ['}']
  | (k, v) :: ms => stringText s k ++ s.colon ++ render s v ++ renderMembers s ms

theorem render_arr (s : Style) (vs : List Json) : render s (arr vs) = '[' :: elemsText s vs := by
  cases vs with
  | nil => rfl
  | cons v vs => rfl

theorem render_obj (s : Style) (ms : List (Text × Json)) :
    render s (obj ms) = '{' :: membersText s ms := by
  cases ms with
  | nil => rfl
  | cons m ms => rfl

theorem renderElems_cons (s : Style) (v : Json) (vs : List Json) :
    renderElems s (v :: vs) = s.comma ++ elemsText s (v :: vs) := List.append_assoc _ _ _

theorem renderMembers_cons (s : Style) (m : Text × Json) (ms : List (Text × Json)) :
    renderMembers s (m :: ms) = s.comma ++ membersText s (m :: ms) := by
  simp [renderMembers, membersText]

theorem renderElems_stops (hs : s.Legible) (vs : List Json) (x : Text) :
    Stops (renderElems s vs ++ x) := by
  cases vs with
  | nil => exact stops_cons (by decide)
  | cons v vs =>
      obtain ⟨ws, hcomma, _⟩ := hs.comma
      rw [renderElems_cons, hcomma]
      exact stops_cons (by decide)

theorem renderMembers_stops (hs : s.Legible) (ms : List (Text × Json)) (x : Text) :
    Stops (renderMembers s ms ++ x) := by
  cases ms with
  | nil => exact stops_cons (by decide)
  | cons m ms =>
      obtain ⟨ws, hcomma, _⟩ := hs.comma
      rw [renderMembers_cons, hcomma]
      exact stops_cons (by decide)

theorem readString_stringText (hs : s.Legible) (k x : Text) :
    readString (k.flatMap s.char ++ ['"'] ++ x) = some (k, x) := by
  rw [List.append_assoc]
  exact readString_written hs k x

mutual

/-- A written value is read back off the front of a text. -/
theorem parseValue_render (hs : s.Legible) : ∀ (v : Json), Exact v → ∀ (n : Nat) (x : Text),
    (render s v).length < n → Stops x → parseValue n (render s v ++ x) = some (v, x)
  | v, _, 0, _, hn, _ => by omega
  | null, _, n + 1, x, _, _ => by rfl
  | bool true, _, n + 1, x, _, _ => by rfl
  | bool false, _, n + 1, x, _, _ => by rfl
  | num k, _, n + 1, x, _, hx => by
      obtain ⟨c, r, hcr, hws, _⟩ := render_head s (num k) (by simp [Exact])
      have hread := readScalar_intText k hx
      have htext : render s (num k) = intText k := rfl
      have hnot : c ≠ '"' ∧ c ≠ '[' ∧ c ≠ '{' := by
        obtain ⟨c', r', hcr', hc'⟩ := intText_head k
        rw [← htext, hcr] at hcr'
        obtain ⟨rfl, rfl⟩ := List.cons.inj hcr'
        cases hc' with
        | inl hc => subst hc; decide
        | inr hc => refine ⟨?_, ?_, ?_⟩ <;> rintro rfl <;> exact absurd hc (by decide)
      rw [htext] at hcr ⊢
      rw [hcr] at hread ⊢
      simp only [parseValue, List.cons_append, skipWs_of_not hws, if_neg hnot.1, if_neg hnot.2.1,
        if_neg hnot.2.2] at hread ⊢
      exact hread
  | real _, h, _ + 1, _, _, _ => absurd h (by simp [Exact])
  | str t, _, n + 1, x, _, _ => by
      have hread := readString_stringText hs t x
      have hws : isWs '"' = false := by decide
      simp only [render, stringText, List.cons_append, parseValue, skipWs_of_not hws, if_true,
        hread, Option.map_some]
  | arr vs, h, n + 1, x, hn, _ => by
      have hws : isWs '[' = false := by decide
      rw [render_arr] at hn ⊢
      cases vs with
      | nil => rfl
      | cons v vs =>
          simp only [Exact] at h
          obtain ⟨c, r, hcr, hc, hb, _⟩ := render_head s v h.1
          have ih := parseElems_render hs (v :: vs) h (by simp) n x (by simpa using hn)
          have htext : elemsText s (v :: vs) ++ x = c :: (r ++ renderElems s vs ++ x) := by
            rw [elemsText, hcr]; rfl
          simp only [parseValue, List.cons_append, skipWs_of_not hws]
          rw [htext] at ih ⊢
          simp only [skipWs_of_not hc, if_neg hb, ih, Option.map_some]
          simp
  | obj ms, h, n + 1, x, hn, _ => by
      have hws : isWs '{' = false := by decide
      have hq : isWs '"' = false := by decide
      rw [render_obj] at hn ⊢
      cases ms with
      | nil => rfl
      | cons m ms =>
          simp only [Exact] at h
          have ih := parseMembers_render hs (m :: ms) h (by simp) n x (by simpa using hn)
          obtain ⟨k, v⟩ := m
          simp only [parseValue, List.cons_append, skipWs_of_not hws]
          simp only [membersText, stringText, List.cons_append, skipWs_of_not hq] at ih ⊢
          simp only [ih, Option.map_some]
          simp

/-- Written elements are read back up to the closing bracket. -/
theorem parseElems_render (hs : s.Legible) : ∀ (vs : List Json), ExactElems vs → vs ≠ [] →
    ∀ (n : Nat) (x : Text), (elemsText s vs).length < n →
      parseElems n (elemsText s vs ++ x) = some (vs, x)
  | _, _, _, 0, _, hn => by omega
  | [], _, hne, _ + 1, _, _ => absurd rfl hne
  | v :: vs, h, _, n + 1, x, hn => by
      obtain ⟨ws, hcomma, hblank⟩ := hs.comma
      have hlen : (render s v).length < n := by
        have hpos : 0 < (renderElems s vs).length := by
          cases vs <;> simp [renderElems, hcomma]
        simp only [elemsText, List.length_append] at hn
        omega
      have hv := parseValue_render hs v h.1 n (renderElems s vs ++ x) hlen
        (renderElems_stops hs vs x)
      rw [elemsText, List.append_assoc]
      simp only [parseElems, hv, Option.bind_some]
      cases vs with
      | nil => rfl
      | cons w vs =>
          have hc : isWs ',' = false := by decide
          have ih := parseElems_render hs (w :: vs) h.2 (by simp) n x (by
            simp only [elemsText, renderElems_cons, hcomma, List.length_append,
              List.length_cons] at hn ⊢
            omega)
          simp only [renderElems_cons, hcomma, List.cons_append, List.append_assoc,
            skipWs_of_not hc, if_true, parseElems_blank hblank, ih, Option.map_some]

/-- Written members are read back up to the closing brace. -/
theorem parseMembers_render (hs : s.Legible) : ∀ (ms : List (Text × Json)), ExactMembers ms →
    ms ≠ [] → ∀ (n : Nat) (x : Text), (membersText s ms).length < n →
      parseMembers n (membersText s ms ++ x) = some (ms, x)
  | _, _, _, 0, _, hn => by omega
  | [], _, hne, _ + 1, _, _ => absurd rfl hne
  | (k, v) :: ms, h, _, n + 1, x, hn => by
      obtain ⟨cs, hcomma, hblank⟩ := hs.comma
      obtain ⟨ws, hcolon, hspace⟩ := hs.colon
      have hq : isWs '"' = false := by decide
      have hcol : isWs ':' = false := by decide
      have hlen : (render s v).length < n := by
        simp only [membersText, List.length_append, stringText, List.length_cons] at hn
        omega
      have hv := parseValue_render hs v h.1 n (renderMembers s ms ++ x) hlen
        (renderMembers_stops hs ms x)
      have hk := readString_stringText hs k
        (':' :: (ws ++ (render s v ++ (renderMembers s ms ++ x))))
      have htext : membersText s ((k, v) :: ms) ++ x = '"' :: (k.flatMap s.char ++ ['"'] ++
          (':' :: (ws ++ (render s v ++ (renderMembers s ms ++ x))))) := by
        simp [membersText, stringText, hcolon]
      rw [htext]
      simp only [parseMembers, skipWs_of_not hq, if_true, hk, Option.bind_some, skipWs_of_not hcol,
        parseValue_blank hspace, hv]
      cases ms with
      | nil => rfl
      | cons m ms =>
          have hc : isWs ',' = false := by decide
          have ih := parseMembers_render hs (m :: ms) h.2 (by simp) n x (by
            simp only [membersText, renderMembers_cons, hcomma, List.length_append,
              List.length_cons] at hn ⊢
            omega)
          simp only [renderMembers_cons, hcomma, List.cons_append, List.append_assoc,
            skipWs_of_not hc, if_true, parseMembers_blank hblank, ih, Option.map_some]

end

/-- What was written is read back, in every legible style. -/
theorem parse_render (hs : s.Legible) {v : Json} (h : Exact v) : parse (render s v) = some v := by
  have hv := parseValue_render hs v h ((render s v).length + 1) [] (Nat.lt_succ_self _) stops_nil
  rw [List.append_nil] at hv
  simp [parse, hv, skipWs]

/-- What was written is read back. -/
theorem parse_dump {v : Json} (h : Exact v) : parse (dump v) = some v :=
  parse_render legible_dumpStyle h

/-- What the server sends is read back by the browser. -/
theorem parse_stringify {v : Json} (h : Exact v) : parse (stringify v) = some v :=
  parse_render legible_stringifyStyle h

/-! ## The characters of a dumped text -/

/-- A character of ASCII that is not a control character. -/
def Plain (c : Char) : Prop := 32 ≤ c.toNat ∧ c.toNat ≤ 126

instance (c : Char) : Decidable (Plain c) := inferInstanceAs (Decidable (_ ∧ _))

theorem plain_hex (w : Nat) : ∀ n : Nat, ∀ c ∈ hex w n, Plain c := by
  induction w with
  | zero => exact fun _ _ hc => absurd hc List.not_mem_nil
  | succ w ih =>
      intro n
      have hdigit : ∀ d < 16, Plain (hexDigit d) := by decide
      rw [hex, List.forall_mem_append]
      exact ⟨ih _, List.forall_mem_singleton.mpr (hdigit _ (Nat.mod_lt n (by decide)))⟩

theorem plain_escape4 (n : Nat) : ∀ c ∈ escape4 n, Plain c := by
  rw [escape4, List.forall_mem_cons, List.forall_mem_cons]
  exact ⟨by decide, by decide, plain_hex 4 n⟩

theorem plain_asciiChar (c : Char) : ∀ d ∈ asciiChar c, Plain d := by
  unfold asciiChar
  split_ifs with _ _ _ _ _ _ _ hascii
  all_goals try decide
  · exact List.forall_mem_singleton.mpr hascii
  · exact plain_escape4 _
  · exact List.forall_mem_append.mpr ⟨plain_escape4 _, plain_escape4 _⟩

theorem plain_stringText (t : Text) : ∀ c ∈ stringText dumpStyle t, Plain c := by
  rw [stringText, List.forall_mem_cons, List.forall_mem_append]
  exact ⟨by decide, List.forall_mem_flatMap.mpr fun c _ => plain_asciiChar c, by decide⟩

theorem plain_intText (n : Int) : ∀ c ∈ intText n, Plain c := by
  have hdigit : ∀ c ∈ decimal n.natAbs, Plain c := by
    intro c hc
    have hd := isDigit_of_mem_decimal hc
    simp only [Char.isDigit, Bool.and_eq_true, decide_eq_true_eq, UInt32.le_iff_toNat_le] at hd
    exact ⟨Nat.le_trans (by decide) hd.1, Nat.le_trans hd.2 (by decide)⟩
  unfold intText
  split
  · exact List.forall_mem_cons.mpr ⟨by decide, hdigit⟩
  · exact hdigit

mutual

/-- What is dumped is plain. -/
theorem plain_dump : ∀ (v : Json), Exact v → ∀ c ∈ dump v, Plain c
  | null, _ => by decide
  | bool true, _ => by decide
  | bool false, _ => by decide
  | num n, _ => plain_intText n
  | real _, h => absurd h (by simp [Exact])
  | str t, _ => plain_stringText t
  | arr [], _ => by decide
  | arr (v :: vs), h => by
      simp only [Exact, ExactElems] at h
      rw [dump, render, List.forall_mem_cons, List.forall_mem_append]
      exact ⟨by decide, plain_dump v h.1, plain_renderElems vs h.2⟩
  | obj [], _ => by decide
  | obj ((k, v) :: ms), h => by
      simp only [Exact, ExactMembers] at h
      rw [dump, render, List.forall_mem_cons, List.forall_mem_append, List.forall_mem_append,
        List.forall_mem_append]
      exact ⟨by decide, ⟨⟨plain_stringText k, by decide⟩, plain_dump v h.1⟩,
        plain_renderMembers ms h.2⟩

theorem plain_renderElems : ∀ (vs : List Json), ExactElems vs →
    ∀ c ∈ renderElems dumpStyle vs, Plain c
  | [], _ => by decide
  | v :: vs, h => by
      rw [renderElems, List.forall_mem_append, List.forall_mem_append]
      exact ⟨⟨by decide, plain_dump v h.1⟩, plain_renderElems vs h.2⟩

theorem plain_renderMembers : ∀ (ms : List (Text × Json)), ExactMembers ms →
    ∀ c ∈ renderMembers dumpStyle ms, Plain c
  | [], _ => by decide
  | (k, v) :: ms, h => by
      rw [renderMembers, List.forall_mem_append, List.forall_mem_append, List.forall_mem_append,
        List.forall_mem_append]
      exact ⟨⟨⟨⟨by decide, plain_stringText k⟩, by decide⟩, plain_dump v h.1⟩,
        plain_renderMembers ms h.2⟩

end

/-! ## Monotonicity of the reader -/

theorem readHex4_mono {t r : Text} {n : Nat} (h : readHex4 t = some (n, r)) (x : Text) :
    readHex4 (t ++ x) = some (n, r ++ x) := by
  unfold readHex4 at h ⊢
  split at h
  · rename_i hlen
    rw [if_pos (by simp only [List.length_append]; omega), List.take_append_of_le_length hlen,
      List.drop_append_of_le_length hlen]
    cases hv : hexValue (t.take 4) with
    | none => rw [hv] at h; cases h
    | some k =>
        rw [hv] at h
        simp only [Option.map_some, Option.some.injEq, Prod.mk.injEq] at h ⊢
        exact ⟨h.1, by rw [h.2]⟩
  · cases h

theorem readPair_mono {hi : Nat} {t r : Text} {c : Char} (h : readPair hi t = some (c, r))
    (x : Text) : readPair hi (t ++ x) = some (c, r ++ x) := by
  cases t with
  | nil => simp [readPair] at h
  | cons d t =>
      by_cases hd : d = '\\'
      · cases t with
        | nil => simp [readPair, hd] at h
        | cons e t =>
            by_cases he : e = 'u'
            · simp only [readPair, if_pos hd, if_pos he, List.cons_append] at h ⊢
              cases hx : readHex4 t with
              | none => rw [hx] at h; cases h
              | some p =>
                  obtain ⟨lo, r'⟩ := p
                  rw [hx] at h
                  rw [readHex4_mono hx x]
                  simp only [Option.map_some, Option.some.injEq] at h ⊢
                  by_cases hlo : 56320 ≤ lo ∧ lo < 57344
                  · simp only [if_pos hlo, Prod.mk.injEq] at h ⊢
                    exact ⟨h.1, by rw [h.2]⟩
                  · simp only [if_neg hlo, Prod.mk.injEq] at h ⊢
                    exact ⟨h.1, by rw [← h.2]; rfl⟩
            · simp only [readPair, if_pos hd, if_neg he, List.cons_append, Option.some.injEq,
                Prod.mk.injEq] at h ⊢
              exact ⟨h.1, by rw [← h.2]; rfl⟩
      · simp only [readPair, if_neg hd, List.cons_append, Option.some.injEq, Prod.mk.injEq] at h ⊢
        exact ⟨h.1, by rw [← h.2]; rfl⟩

theorem readEscape_mono {t r : Text} {c : Char} (h : readEscape t = some (c, r)) (x : Text) :
    readEscape (t ++ x) = some (c, r ++ x) := by
  cases t with
  | nil => simp [readEscape] at h
  | cons e t =>
      by_cases he : e = 'u'
      · simp only [readEscape, if_pos he, List.cons_append] at h ⊢
        cases hx : readHex4 t with
        | none => rw [hx] at h; cases h
        | some p =>
            obtain ⟨n, r'⟩ := p
            rw [hx] at h
            rw [readHex4_mono hx x]
            simp only at h ⊢
            split_ifs at h ⊢ with h1 h2
            · exact readPair_mono h x
            · simp only [Option.some.injEq, Prod.mk.injEq] at h ⊢
              exact ⟨h.1, by rw [h.2]⟩
            · simp only [Option.some.injEq, Prod.mk.injEq] at h ⊢
              exact ⟨h.1, by rw [h.2]⟩
      · simp only [readEscape, if_neg he, List.cons_append] at h ⊢
        split_ifs at h ⊢ <;>
          simp only [Option.some.injEq, Prod.mk.injEq] at h ⊢ <;> exact ⟨h.1, by rw [h.2]⟩

theorem readChar_mono {t r : Text} {c : Char} (h : readChar t = some (c, r)) (x : Text) :
    readChar (t ++ x) = some (c, r ++ x) := by
  cases t with
  | nil => simp [readChar] at h
  | cons d t =>
      simp only [readChar, List.cons_append] at h ⊢
      split_ifs at h ⊢
      · exact readEscape_mono h x
      · simp only [Option.some.injEq, Prod.mk.injEq] at h ⊢
        exact ⟨h.1, by rw [h.2]⟩

theorem readChars_mono {x : Text} : ∀ {n m : Nat} {t s r : Text}, n ≤ m →
    readChars n t = some (s, r) → readChars m (t ++ x) = some (s, r ++ x)
  | 0, _, _, _, _, _, h => by simp [readChars] at h
  | n + 1, 0, _, _, _, hm, _ => by omega
  | n + 1, m + 1, [], _, _, _, h => by simp [readChars] at h
  | n + 1, m + 1, c :: t, s, r, hm, h => by
      by_cases hc : c = '"'
      · simp only [readChars, if_pos hc, List.cons_append, Option.some.injEq,
          Prod.mk.injEq] at h ⊢
        exact ⟨h.1, by rw [h.2]⟩
      · simp only [readChars, if_neg hc, List.cons_append] at h ⊢
        cases hd : readChar (c :: t) with
        | none => rw [hd] at h; cases h
        | some p =>
            obtain ⟨d, r'⟩ := p
            rw [hd] at h
            have hd' := readChar_mono hd x
            rw [List.cons_append] at hd'
            rw [hd']
            simp only [Option.bind_some] at h ⊢
            cases hs : readChars n r' with
            | none => rw [hs] at h; cases h
            | some q =>
                obtain ⟨ds, r''⟩ := q
                rw [hs] at h
                rw [readChars_mono (Nat.le_of_succ_le_succ hm) hs]
                simp only [Option.map_some, Option.some.injEq, Prod.mk.injEq] at h ⊢
                exact ⟨h.1, by rw [h.2]⟩

theorem readString_mono {t s r : Text} (h : readString t = some (s, r)) (x : Text) :
    readString (t ++ x) = some (s, r ++ x) :=
  readChars_mono (by simp) h

theorem skipWs_mono {t r : Text} {c : Char} (h : skipWs t = c :: r) (x : Text) :
    skipWs (t ++ x) = c :: (r ++ x) := by
  unfold skipWs at h ⊢
  rw [List.dropWhile_append, h]
  rfl

/-- A number, whose text does not show where it ends. -/
def IsNumber : Json → Prop
  | num _ => True
  | real _ => True
  | _ => False

theorem numberValue_isNumber {t : Text} {v : Json} (h : numberValue t = some v) : IsNumber v := by
  have hun : ∀ {neg : Bool} {lit u : Text}, unsignedValue neg lit u = some v → IsNumber v := by
    intro neg lit u hu
    unfold unsignedValue at hu
    simp only at hu
    split_ifs at hu <;> cases hu <;> trivial
  cases t with
  | nil => simp [numberValue] at h
  | cons c r =>
      simp only [numberValue] at h
      split_ifs at h
      · exact hun h
      · exact hun h

/-- A prefix of a longer text is a prefix of it already, if there is room. -/
theorem prefix_drop_append {w t x : Text} (h : w <+: t) :
    w <+: t ++ x ∧ (t ++ x).drop w.length = t.drop w.length ++ x :=
  ⟨h.trans (List.prefix_append t x), List.drop_append_of_le_length h.length_le⟩

/-- A literal name does not begin with a character of a number. -/
theorem not_name_prefix {d : Char} {w t : Text} (hd : isNumChar d = false) {v : Json}
    (h : numberValue (t.takeWhile isNumChar) = some v) (x : Text) : ¬(d :: w <+: t ++ x) := by
  intro hp
  cases t with
  | nil => simp [numberValue] at h
  | cons c t =>
      rw [List.cons_append, List.cons_prefix_cons] at hp
      rw [List.takeWhile_cons, ← hp.1, hd] at h
      simp [numberValue] at h

theorem span_append_of_rest {p : Char → Bool} {t x : Text} (h : t.dropWhile p ≠ []) :
    (t ++ x).takeWhile p = t.takeWhile p ∧ (t ++ x).dropWhile p = t.dropWhile p ++ x := by
  induction t with
  | nil => exact absurd rfl h
  | cons c t ih =>
      by_cases hc : p c = true
      · rw [List.dropWhile_cons, if_pos hc] at h
        obtain ⟨h1, h2⟩ := ih h
        simp [hc, h1, h2]
      · simp [hc]

theorem readScalar_mono {t r : Text} {v : Json} (h : readScalar t = some (v, r))
    (hr : IsNumber v → r ≠ []) (x : Text) : readScalar (t ++ x) = some (v, r ++ x) := by
  have hname : ∀ (w : Text) (u : Json), w <+: t → some (u, t.drop w.length) = some (v, r) →
      w <+: t ++ x ∧ some (u, (t ++ x).drop w.length) = some (v, r ++ x) := by
    intro w u hw hu
    obtain ⟨hp, hd⟩ := prefix_drop_append (x := x) hw
    simp only [Option.some.injEq, Prod.mk.injEq] at hu
    exact ⟨hp, by rw [hd, hu.1, hu.2]⟩
  unfold readScalar at h ⊢
  by_cases h1 : "null".toList <+: t
  · rw [if_pos h1] at h
    obtain ⟨hp, hd⟩ := hname _ _ h1 h
    rw [if_pos hp]
    exact hd
  rw [if_neg h1] at h
  by_cases h2 : "true".toList <+: t
  · rw [if_pos h2] at h
    obtain ⟨hp, hd⟩ := hname _ _ h2 h
    have hn : ¬("null".toList <+: t ++ x) := by
      obtain ⟨u, rfl⟩ := h2
      simp
    rw [if_neg hn, if_pos hp]
    exact hd
  rw [if_neg h2] at h
  by_cases h3 : "false".toList <+: t
  · rw [if_pos h3] at h
    obtain ⟨hp, hd⟩ := hname _ _ h3 h
    have hn : ¬("null".toList <+: t ++ x) ∧ ¬("true".toList <+: t ++ x) := by
      obtain ⟨u, rfl⟩ := h3
      simp
    rw [if_neg hn.1, if_neg hn.2, if_pos hp]
    exact hd
  rw [if_neg h3] at h
  cases hv : numberValue (t.takeWhile isNumChar) with
  | none => rw [hv] at h; cases h
  | some u =>
      rw [hv] at h
      simp only [Option.map_some, Option.some.injEq, Prod.mk.injEq] at h
      obtain ⟨rfl, hrest⟩ := h
      have hne : t.dropWhile isNumChar ≠ [] := by
        rw [hrest]
        exact hr (numberValue_isNumber hv)
      obtain ⟨ht, hd⟩ := span_append_of_rest (x := x) hne
      have hnull : ¬("null".toList <+: t ++ x) := not_name_prefix (by decide) hv x
      have htrue : ¬("true".toList <+: t ++ x) := not_name_prefix (by decide) hv x
      have hfalse : ¬("false".toList <+: t ++ x) := not_name_prefix (by decide) hv x
      rw [if_neg hnull, if_neg htrue, if_neg hfalse, ht, hd, hv, hrest, Option.map_some]

/-- What the reader does with fuel `n` it also does with more fuel and more
text after it. -/
structure Mono (x : Text) (n : Nat) : Prop where
  value : ∀ {m : Nat} {t r : Text} {v : Json}, n ≤ m → parseValue n t = some (v, r) →
    (IsNumber v → r ≠ []) → parseValue m (t ++ x) = some (v, r ++ x)
  elems : ∀ {m : Nat} {t r : Text} {vs : List Json}, n ≤ m → parseElems n t = some (vs, r) →
    parseElems m (t ++ x) = some (vs, r ++ x)
  members : ∀ {m : Nat} {t r : Text} {ms : List (Text × Json)}, n ≤ m →
    parseMembers n t = some (ms, r) → parseMembers m (t ++ x) = some (ms, r ++ x)

/-- The result of a reader that rebuilds a value from what another one read. -/
theorem map_mono {α β : Type} {o o' : Option (α × Text)} {f : α → β} {b : β} {r x : Text}
    (h : (o.map fun p => (f p.1, p.2)) = some (b, r))
    (ho : ∀ a r, o = some (a, r) → o' = some (a, r ++ x)) :
    (o'.map fun p => (f p.1, p.2)) = some (b, r ++ x) := by
  cases o with
  | none => cases h
  | some p =>
      obtain ⟨a, r'⟩ := p
      simp only [Option.map_some, Option.some.injEq, Prod.mk.injEq] at h
      rw [ho a r' rfl, Option.map_some, h.1, h.2]

theorem parseValue_mono_step {x : Text} {n : Nat} (ih : Mono x n) {m : Nat} {t r : Text} {v : Json}
    (hm : n ≤ m) (h : parseValue (n + 1) t = some (v, r)) (hr : IsNumber v → r ≠ []) :
    parseValue (m + 1) (t ++ x) = some (v, r ++ x) := by
  simp only [parseValue] at h ⊢
  cases hs : skipWs t with
  | nil => rw [hs] at h; cases h
  | cons c u =>
      rw [hs] at h
      rw [skipWs_mono hs x]
      simp only at h ⊢
      split_ifs at h ⊢ with h1 h2 h3
      · exact map_mono h fun a r' ha => readString_mono ha x
      · cases hb : skipWs u with
        | nil => rw [hb] at h; cases h
        | cons d u' =>
            rw [hb] at h
            rw [skipWs_mono hb x]
            simp only at h ⊢
            split_ifs at h ⊢
            · simp only [Option.some.injEq, Prod.mk.injEq] at h ⊢
              exact ⟨h.1, by rw [h.2]⟩
            · refine map_mono h fun a r' ha => ?_
              have hx := ih.elems hm ha
              rwa [List.cons_append] at hx
      · cases hb : skipWs u with
        | nil => rw [hb] at h; cases h
        | cons d u' =>
            rw [hb] at h
            rw [skipWs_mono hb x]
            simp only at h ⊢
            split_ifs at h ⊢
            · simp only [Option.some.injEq, Prod.mk.injEq] at h ⊢
              exact ⟨h.1, by rw [h.2]⟩
            · refine map_mono h fun a r' ha => ?_
              have hx := ih.members hm ha
              rwa [List.cons_append] at hx
      · have hx := readScalar_mono h hr x
        rwa [List.cons_append] at hx

/-- What follows a value shows that a number is complete. -/
theorem Mono.value_followed {x : Text} {n : Nat} (ih : Mono x n) {m : Nat} {t u u' : Text} {v : Json}
    {d : Char} (hm : n ≤ m) (hv : parseValue n t = some (v, u)) (hs : skipWs u = d :: u') :
    parseValue m (t ++ x) = some (v, u ++ x) := by
  refine ih.value hm hv fun _ => ?_
  rintro rfl
  simp [skipWs] at hs

theorem parseElems_mono_step {x : Text} {n : Nat} (ih : Mono x n) {m : Nat} {t r : Text}
    {vs : List Json} (hm : n ≤ m) (h : parseElems (n + 1) t = some (vs, r)) :
    parseElems (m + 1) (t ++ x) = some (vs, r ++ x) := by
  simp only [parseElems] at h ⊢
  cases hv : parseValue n t with
  | none => rw [hv] at h; cases h
  | some p =>
      obtain ⟨v, u⟩ := p
      rw [hv] at h
      simp only [Option.bind_some] at h
      cases hs : skipWs u with
      | nil => rw [hs] at h; cases h
      | cons d u' =>
          rw [hs] at h
          rw [ih.value_followed hm hv hs]
          simp only [Option.bind_some, skipWs_mono hs x] at h ⊢
          split_ifs at h ⊢
          · exact map_mono h fun a r' ha => ih.elems hm ha
          · simp only [Option.some.injEq, Prod.mk.injEq] at h ⊢
            exact ⟨h.1, by rw [h.2]⟩

theorem parseMembers_mono_step {x : Text} {n : Nat} (ih : Mono x n) {m : Nat} {t r : Text}
    {ms : List (Text × Json)} (hm : n ≤ m) (h : parseMembers (n + 1) t = some (ms, r)) :
    parseMembers (m + 1) (t ++ x) = some (ms, r ++ x) := by
  simp only [parseMembers] at h ⊢
  cases hs : skipWs t with
  | nil => rw [hs] at h; cases h
  | cons c u =>
      rw [hs] at h
      rw [skipWs_mono hs x]
      simp only at h ⊢
      split_ifs at h ⊢
      cases hk : readString u with
      | none => rw [hk] at h; cases h
      | some p =>
          obtain ⟨k, u1⟩ := p
          rw [hk] at h
          rw [readString_mono hk x]
          simp only [Option.bind_some] at h ⊢
          cases hs1 : skipWs u1 with
          | nil => rw [hs1] at h; cases h
          | cons d u2 =>
              rw [hs1] at h
              rw [skipWs_mono hs1 x]
              simp only at h ⊢
              split_ifs at h ⊢
              cases hv : parseValue n u2 with
              | none => rw [hv] at h; cases h
              | some q =>
                  obtain ⟨v, u3⟩ := q
                  rw [hv] at h
                  simp only [Option.bind_some] at h
                  cases hs3 : skipWs u3 with
                  | nil => rw [hs3] at h; cases h
                  | cons e u4 =>
                      rw [hs3] at h
                      rw [ih.value_followed hm hv hs3]
                      simp only [Option.bind_some, skipWs_mono hs3 x] at h ⊢
                      split_ifs at h ⊢
                      · exact map_mono h fun a r' ha => ih.members hm ha
                      · simp only [Option.some.injEq, Prod.mk.injEq] at h ⊢
                        exact ⟨h.1, by rw [h.2]⟩

theorem mono (x : Text) (n : Nat) : Mono x n := by
  induction n with
  | zero =>
      exact ⟨fun _ h => by simp [parseValue] at h, fun _ h => by simp [parseElems] at h,
        fun _ h => by simp [parseMembers] at h⟩
  | succ n ih =>
      constructor
      · intro m t r v hm h hr
        cases m with
        | zero => omega
        | succ m => exact parseValue_mono_step ih (Nat.le_of_succ_le_succ hm) h hr
      · intro m t r vs hm h
        cases m with
        | zero => omega
        | succ m => exact parseElems_mono_step ih (Nat.le_of_succ_le_succ hm) h
      · intro m t r ms hm h
        cases m with
        | zero => omega
        | succ m => exact parseMembers_mono_step ih (Nat.le_of_succ_le_succ hm) h

/-- What is read off the front of a text is read off it when more text follows. -/
theorem parseValue_mono {n m : Nat} {t r x : Text} {v : Json} (hm : n ≤ m)
    (h : parseValue n t = some (v, r)) (hr : IsNumber v → r ≠ []) :
    parseValue m (t ++ x) = some (v, r ++ x) :=
  (mono x n).value hm h hr

/-! ## Texts that were cut short -/

/-- An array or an object. -/
def IsContainer : Json → Prop
  | arr _ => True
  | obj _ => True
  | _ => False

/-- What begins with a bracket or a brace is not read as a number. -/
theorem not_isNumber_of_open {n : Nat} {c : Char} {t r : Text} {v : Json} (hc : c = '[' ∨ c = '{')
    (h : parseValue n (c :: t) = some (v, r)) : ¬IsNumber v := by
  cases n with
  | zero => simp [parseValue] at h
  | succ n =>
      have hws : isWs c = false := by rcases hc with rfl | rfl <;> decide
      simp only [parseValue, skipWs_of_not hws] at h
      rcases hc with rfl | rfl
      · simp only [Char.reduceEq, if_false, if_true] at h
        cases hs : skipWs t with
        | nil => rw [hs] at h; cases h
        | cons d u =>
            rw [hs] at h
            simp only at h
            split_ifs at h
            · cases h; exact id
            · obtain ⟨a, _, ha⟩ := Option.map_eq_some_iff.mp h
              cases ha; exact id
      · simp only [Char.reduceEq, if_false, if_true] at h
        cases hs : skipWs t with
        | nil => rw [hs] at h; cases h
        | cons d u =>
            rw [hs] at h
            simp only at h
            split_ifs at h
            · cases h; exact id
            · obtain ⟨a, _, ha⟩ := Option.map_eq_some_iff.mp h
              cases ha; exact id

theorem dump_container {v : Json} (h : IsContainer v) :
    ∃ c r, dump v = c :: r ∧ (c = '[' ∨ c = '{') := by
  cases v with
  | arr vs => exact ⟨'[', _, render_arr dumpStyle vs, Or.inl rfl⟩
  | obj ms => exact ⟨'{', _, render_obj dumpStyle ms, Or.inr rfl⟩
  | _ => exact absurd h id

/-- A written array or object that was cut short is not JSON. -/
theorem parse_prefix_dump {v : Json} {t : Text} (hv : Exact v) (hc : IsContainer v)
    (hp : t <+: dump v) (hne : t ≠ dump v) : parse t = none := by
  obtain ⟨s, hs⟩ := hp
  have hsne : s ≠ [] := by
    rintro rfl
    exact hne (by simpa using hs)
  cases hread : parseValue (t.length + 1) t with
  | none => simp [parse, hread]
  | some p =>
      obtain ⟨w, r⟩ := p
      exfalso
      -- `t` is not empty, so it begins as the whole text does
      cases t with
      | nil => simp [parseValue, skipWs] at hread
      | cons c t =>
          obtain ⟨d, u, hd, hopen⟩ := dump_container hc
          have hcd : c = d := by
            rw [hd, List.cons_append] at hs
            exact (List.cons.inj hs).1
          subst hcd
          have hlen : (c :: t).length + 1 ≤ (dump v).length + 1 := by
            rw [← hs, List.length_append]
            omega
          have hlong := parseValue_mono (x := s) hlen hread
            fun hnum => absurd hnum (not_isNumber_of_open hopen hread)
          have hwhole : parseValue ((dump v).length + 1) (dump v ++ []) = some (v, []) :=
            parseValue_render legible_dumpStyle v hv _ [] (Nat.lt_succ_self _) stops_nil
          rw [hs] at hlong
          rw [List.append_nil, hlong, Option.some.injEq, Prod.mk.injEq] at hwhole
          exact hsne (List.append_eq_nil_iff.mp hwhole.2).2

end Base.Json
