import FbTesting.Base.Percent

/-!
# Escaping

The other direction of percent-encoding: the characters outside of a set are
replaced by the escapes of their UTF-8 bytes.  The set keeps the percent sign and
the hexadecimal digits, so an escape that is already there stays one.

Escaping does not change what a text decodes to (`unescape_encode`).  The reason
is that no character begins with a continuation byte: a run of bytes in front of
a character is decoded as it is without the character.
-/

namespace Base

/-! ## UTF-8 bytes -/

/-- The UTF-8 bytes of a character. -/
def utf8 (c : Char) : List Nat :=
  let n := c.toNat
  if n < 0x80 then [n]
  else if n < 0x800 then [0xc0 + n / 64, 0x80 + n % 64]
  else if n < 0x10000 then [0xe0 + n / 4096, 0x80 + n / 64 % 64, 0x80 + n % 64]
  else [0xf0 + n / 262144, 0x80 + n / 4096 % 64, 0x80 + n / 64 % 64, 0x80 + n % 64]

theorem continuation_add {x : Nat} (h : x < 64) : continuation (0x80 + x) = some x := by
  rw [continuation, if_pos ⟨by omega, by omega⟩, Nat.add_sub_cancel_left]

theorem continuation_of_lt {x : Nat} (h : x < 0x80) : continuation x = none := by
  rw [continuation, if_neg (by omega)]

theorem continuation_of_ge {x : Nat} (h : 0xc0 ≤ x) : continuation x = none := by
  rw [continuation, if_neg (by omega)]

theorem scalarFrom_toNat {c : Char} {least : Nat} (h : least ≤ c.toNat) :
    scalarFrom least c.toNat = some c := by
  rw [scalarFrom, if_pos ⟨h, c.valid⟩, Char.ofNat_toNat]

theorem toNat_lt_of_valid (c : Char) : c.toNat < 0x110000 := by
  rcases c.valid with h | h
  · exact Nat.lt_trans h (by decide)
  · exact h.2

/-- The bytes of a character are read back. -/
theorem utf8Char_utf8 (c : Char) (rest : List Nat) :
    utf8Char (utf8 c ++ rest) = some (c, (utf8 c).length - 1) := by
  have hlt := toNat_lt_of_valid c
  unfold utf8
  simp only []
  split_ifs with h1 h2 h3
  · simp only [List.cons_append, List.nil_append, utf8Char, if_pos h1, Char.ofNat_toNat]
    rfl
  · have hn : (0xc0 + c.toNat / 64 - 0xc0) * 64 + c.toNat % 64 = c.toNat := by omega
    simp only [List.cons_append, List.nil_append, utf8Char]
    rw [if_neg (by omega), if_pos (by omega), continuation_add (Nat.mod_lt _ (by decide))]
    simp only [Option.bind_eq_bind, Option.bind_some, hn]
    rw [scalarFrom_toNat (by omega)]
    rfl
  · have hn : ((0xe0 + c.toNat / 4096 - 0xe0) * 64 + c.toNat / 64 % 64) * 64 + c.toNat % 64 =
        c.toNat := by omega
    simp only [List.cons_append, List.nil_append, utf8Char]
    rw [if_neg (by omega), if_neg (by omega), if_pos (by omega),
      continuation_add (Nat.mod_lt _ (by decide)), continuation_add (Nat.mod_lt _ (by decide))]
    simp only [Option.bind_eq_bind, Option.bind_some, hn]
    rw [scalarFrom_toNat (by omega)]
    rfl
  · have hn : (((0xf0 + c.toNat / 262144 - 0xf0) * 64 + c.toNat / 4096 % 64) * 64 +
        c.toNat / 64 % 64) * 64 + c.toNat % 64 = c.toNat := by omega
    simp only [List.cons_append, List.nil_append, utf8Char]
    rw [if_neg (by omega), if_neg (by omega), if_neg (by omega), if_pos (by omega),
      continuation_add (Nat.mod_lt _ (by decide)), continuation_add (Nat.mod_lt _ (by decide)),
      continuation_add (Nat.mod_lt _ (by decide))]
    simp only [Option.bind_eq_bind, Option.bind_some, hn]
    rw [scalarFrom_toNat (by omega)]
    rfl

/-- The first byte of a character, which is not a continuation byte. -/
theorem exists_utf8_eq_cons (c : Char) : ∃ b bs, utf8 c = b :: bs ∧ continuation b = none := by
  have hlt := toNat_lt_of_valid c
  unfold utf8
  simp only []
  split_ifs with h1 h2 h3
  · exact ⟨_, _, rfl, continuation_of_lt h1⟩
  · exact ⟨_, _, rfl, continuation_of_ge (by omega)⟩
  · exact ⟨_, _, rfl, continuation_of_ge (by omega)⟩
  · exact ⟨_, _, rfl, continuation_of_ge (by omega)⟩

theorem utf8_lt {c : Char} {b : Nat} (h : b ∈ utf8 c) : b < 256 := by
  have hlt := toNat_lt_of_valid c
  unfold utf8 at h
  simp only [] at h
  split_ifs at h with h1 h2 h3 <;> simp only [List.mem_cons, List.not_mem_nil, or_false] at h <;>
    omega

/-! ## A run of bytes before a character -/

/-- The bytes after a character do not matter to it. -/
theorem utf8Char_append (b d : Nat) (run rest : List Nat) (hd : continuation d = none) :
    utf8Char (b :: (run ++ d :: rest)) = utf8Char (b :: run) := by
  match run with
  | [] => cases rest with
      | nil => simp [utf8Char, hd]
      | cons e rest => cases rest <;> simp [utf8Char, hd]
  | [x] => cases rest <;> simp [utf8Char, hd]
  | [x, y] => simp [utf8Char, hd]
  | x :: y :: z :: run => simp [utf8Char]

theorem utf8Char_length {b n : Nat} {c : Char} {run : List Nat}
    (h : utf8Char (b :: run) = some (c, n)) : n ≤ run.length := by
  simp only [utf8Char] at h
  split_ifs at h with h1 h2 h3 h4
  · cases h
    exact Nat.zero_le _
  · cases run with
    | nil => cases h
    | cons x run =>
        simp only [Option.bind_eq_bind, Option.bind_eq_some_iff, Option.some.injEq,
          Prod.mk.injEq] at h
        obtain ⟨_, _, _, _, _, rfl⟩ := h
        exact Nat.le_add_left _ _
  · match run, h with
    | x :: y :: run, h =>
        simp only [Option.bind_eq_bind, Option.bind_eq_some_iff, Option.some.injEq,
          Prod.mk.injEq] at h
        obtain ⟨_, _, _, _, _, _, _, rfl⟩ := h
        exact Nat.le_add_left _ _
  · match run, h with
    | x :: y :: z :: run, h =>
        simp only [Option.bind_eq_bind, Option.bind_eq_some_iff, Option.some.injEq,
          Prod.mk.injEq] at h
        obtain ⟨_, _, _, _, _, _, _, _, _, rfl⟩ := h
        exact Nat.le_add_left _ _

theorem utf8From_append_left (bs rest : List Nat) :
    utf8From bs.length (bs ++ rest) = utf8From 0 rest := by
  induction bs with
  | nil => rfl
  | cons b bs ih => exact ih

/-- The bytes before a character are decoded as without it. -/
theorem utf8From_append_utf8 (c : Char) (rest : List Nat) (run : List Nat) : ∀ skip ≤ run.length,
    utf8From skip (run ++ (utf8 c ++ rest)) = utf8From skip run ++ some c :: utf8From 0 rest := by
  obtain ⟨d, ds, hutf, hd⟩ := exists_utf8_eq_cons c
  induction run with
  | nil =>
      intro skip hskip
      rw [Nat.le_zero.mp hskip]
      have hread := utf8Char_utf8 c rest
      rw [hutf] at hread ⊢
      simp only [List.nil_append, List.cons_append, utf8From]
      rw [show utf8Char (d :: (ds ++ rest)) = some (c, ds.length) from hread]
      simp only [utf8From_append_left]
  | cons b run ih =>
      intro skip hskip
      cases skip with
      | succ k => exact ih k (Nat.le_of_succ_le_succ hskip)
      | zero =>
          have hsame : utf8Char (b :: (run ++ (utf8 c ++ rest))) = utf8Char (b :: run) := by
            rw [hutf]
            exact utf8Char_append b d run _ hd
          simp only [List.cons_append, utf8From, hsame]
          cases hchar : utf8Char (b :: run) with
          | none => simp only [List.cons_append, ih 0 (Nat.zero_le _)]
          | some p => simp only [List.cons_append, ih p.2 (utf8Char_length hchar)]

/-- Bytes that make up a character are the character. -/
theorem decodePieces_append_utf8 (c : Char) (run : List Nat) (ps : List Piece) : ∀ after : List Nat,
    decodePieces (run ++ (utf8 c ++ after)) ps =
      utf8From 0 run ++ some c :: decodePieces after ps := by
  induction ps with
  | nil => intro after; exact utf8From_append_utf8 c after run 0 (Nat.zero_le _)
  | cons p ps ih =>
      intro after
      cases p with
      | byte n =>
          have h := ih (after ++ [n])
          simp only [decodePieces, List.append_assoc] at h ⊢
          exact h
      | char d =>
          simp only [decodePieces, utf8From_append_utf8 c after run 0 (Nat.zero_le _),
            List.append_assoc, List.cons_append]

theorem decodePieces_bytes (bs : List Nat) (ps : List Piece) : ∀ run : List Nat,
    decodePieces run (bs.map .byte ++ ps) = decodePieces (run ++ bs) ps := by
  induction bs with
  | nil => intro run; rw [List.map_nil, List.nil_append, List.append_nil]
  | cons b bs ih =>
      intro run
      rw [List.map_cons, List.cons_append, decodePieces, ih, List.append_assoc]
      rfl

/-! ## Escaping a text -/

/-- The escape of a byte, with upper-case digits. -/
def escapeByte (n : Nat) : Text := '%' :: (hex 2 n).map Char.toUpper

section

-- the characters that are kept
variable (keep : Char → Bool)

/-- A character, escaped unless it is kept. -/
def encodeChar (c : Char) : Text := if keep c then [c] else (utf8 c).flatMap escapeByte

/-- A text with the characters escaped that are not kept. -/
def encode (t : Text) : Text := t.flatMap (encodeChar keep)

/-- A set that keeps escapes as they are. -/
structure KeepsEscapes : Prop where
  percent : keep '%' = true
  hexDigit : ∀ c, hexDigitValue c ≠ none → keep c = true

/-- The piece a character becomes. -/
def expand : Piece → List Piece
  | .byte n => [.byte n]
  | .char c => if keep c then [.char c] else (utf8 c).map .byte

@[simp] theorem encode_nil : encode keep [] = [] := rfl

@[simp] theorem encode_cons (c : Char) (t : Text) :
    encode keep (c :: t) = encodeChar keep c ++ encode keep t := by simp [encode]

@[simp] theorem encode_append (t u : Text) :
    encode keep (t ++ u) = encode keep t ++ encode keep u := by simp [encode]

end

theorem decodePieces_expand (keep : Char → Bool) (ps : List Piece) : ∀ run : List Nat,
    decodePieces run (ps.flatMap (expand keep)) = decodePieces run ps := by
  induction ps with
  | nil => intro run; rfl
  | cons p ps ih =>
      intro run
      cases p with
      | byte n => exact ih (run ++ [n])
      | char c =>
          rw [List.flatMap_cons, expand]
          split
          · simp only [List.singleton_append, decodePieces, ih]
          · have h := decodePieces_append_utf8 c run (ps.flatMap (expand keep)) []
            rw [List.append_nil] at h
            rw [decodePieces_bytes, h, ih, decodePieces]

theorem hexDigitValue_upper {n : Nat} (h : n < 16) :
    hexDigitValue (hexDigit n).toUpper = some n := by
  revert n
  decide

theorem escapeAt_escapeByte {n : Nat} (h : n < 256) (t : Text) :
    escapeAt (escapeByte n ++ t) = some n := by
  have hhigh : n / 16 % 16 < 16 := Nat.mod_lt _ (by decide)
  have hlow : n % 16 < 16 := Nat.mod_lt _ (by decide)
  simp only [escapeByte, hex, List.nil_append, List.cons_append, List.map_cons, List.map_nil,
    escapeAt, hexDigitValue_upper hhigh, hexDigitValue_upper hlow, Option.bind_some,
    Option.map_some, Option.some.injEq]
  omega

theorem pieces_escapeByte {n : Nat} (h : n < 256) (t : Text) :
    pieces (escapeByte n ++ t) = .byte n :: pieces t := by
  have hescape := escapeAt_escapeByte h t
  rw [pieces, escapeByte] at *
  simp only [List.cons_append, piecesFrom] at hescape ⊢
  rw [hescape]
  rfl

theorem pieces_escapeBytes {bs : List Nat} (h : ∀ b ∈ bs, b < 256) (t : Text) :
    pieces (bs.flatMap escapeByte ++ t) = bs.map .byte ++ pieces t := by
  induction bs with
  | nil => rfl
  | cons b bs ih =>
      rw [List.flatMap_cons, List.append_assoc, pieces_escapeByte (h b List.mem_cons_self),
        ih fun x hx => h x (List.mem_cons_of_mem _ hx)]
      rfl

/-- A piece at the front of a text, and what follows it. -/
theorem pieces_cons (c : Char) (t : Text) :
    (∃ a b n r, c = '%' ∧ t = a :: b :: r ∧ hexDigitValue a ≠ none ∧ hexDigitValue b ≠ none ∧
      escapeAt (c :: t) = some n ∧ pieces (c :: t) = .byte n :: pieces r) ∨
    (escapeAt (c :: t) = none ∧ pieces (c :: t) = .char c :: pieces t) := by
  cases h : escapeAt (c :: t) with
  | none =>
      refine Or.inr ⟨rfl, ?_⟩
      rw [pieces, piecesFrom, h]
      rfl
  | some n =>
      refine Or.inl ?_
      have hshape := h
      unfold escapeAt at hshape
      split at hshape
      · rename_i a b r heq
        obtain ⟨rfl, rfl⟩ := List.cons.inj heq
        simp only [Option.bind_eq_some_iff, Option.map_eq_some_iff] at hshape
        obtain ⟨x, hx, y, hy, -⟩ := hshape
        refine ⟨a, b, n, r, rfl, rfl, by simp [hx], by simp [hy], rfl, ?_⟩
        rw [pieces, piecesFrom, h]
        rfl
      · cases hshape

section

variable {keep : Char → Bool} (hkeep : KeepsEscapes keep)

include hkeep

theorem encodeChar_of_hexDigit {c : Char} (h : hexDigitValue c ≠ none) : encodeChar keep c = [c] := by
  rw [encodeChar, if_pos (hkeep.hexDigit c h)]

/-- An escaped character begins with a percent sign, and otherwise is itself. -/
theorem encodeChar_cases (c : Char) :
    encodeChar keep c = [c] ∨ (hexDigitValue c = none ∧ ∃ r, encodeChar keep c = '%' :: r) := by
  cases hc : keep c with
  | true => exact Or.inl (by rw [encodeChar, if_pos hc])
  | false =>
      refine Or.inr ⟨?_, ?_⟩
      · by_contra h
        rw [hkeep.hexDigit c h] at hc
        cases hc
      · obtain ⟨b, bs, hutf, -⟩ := exists_utf8_eq_cons c
        rw [encodeChar, if_neg (by rw [hc]; decide), hutf, List.flatMap_cons]
        exact ⟨_, rfl⟩

/-- Escaping what follows a stray percent sign does not make an escape of it. -/
theorem escapeAt_encode {c : Char} {t : Text} (h : escapeAt (c :: t) = none) :
    escapeAt (c :: encode keep t) = none := by
  by_cases hc : c = '%'
  · subst hc
    cases t with
    | nil => rfl
    | cons a t =>
        rw [encode_cons]
        rcases encodeChar_cases hkeep a with ha | ⟨-, r, ha⟩
        · rw [ha]
          cases t with
          | nil => rfl
          | cons b t =>
              rw [encode_cons]
              rcases encodeChar_cases hkeep b with hb | ⟨-, r, hb⟩
              · rw [hb]
                exact h
              · rw [hb]
                cases hexDigitValue a <;> simp [escapeAt, show hexDigitValue '%' = none from rfl]
        · rw [ha]
          cases r with
          | nil =>
              cases encode keep t <;> simp [escapeAt, show hexDigitValue '%' = none from rfl]
          | cons d r => simp [escapeAt, show hexDigitValue '%' = none from rfl]
  · unfold escapeAt
    split
    · rename_i heq
      exact absurd (List.cons.inj heq).1 hc
    · rfl

/-- The pieces of an escaped text are those of the text, expanded. -/
theorem pieces_encode (t : Text) : pieces (encode keep t) = (pieces t).flatMap (expand keep) := by
  induction hlen : t.length using Nat.strong_induction_on generalizing t with
  | _ len ih =>
      cases t with
      | nil => rfl
      | cons c t =>
          rcases pieces_cons c t with ⟨a, b, n, r, rfl, rfl, ha, hb, hesc, hpieces⟩ | ⟨hesc, hpieces⟩
          · have hr := ih r.length (by rw [← hlen]; simp only [List.length_cons]; omega) r rfl
            have henc : encode keep ('%' :: a :: b :: r) = '%' :: a :: b :: encode keep r := by
              rw [encode_cons, encode_cons, encode_cons, encodeChar, if_pos hkeep.percent,
                encodeChar_of_hexDigit hkeep ha, encodeChar_of_hexDigit hkeep hb]
              rfl
            rw [henc, hpieces, List.flatMap_cons, ← hr, pieces, piecesFrom]
            rw [show escapeAt ('%' :: a :: b :: encode keep r) = some n from hesc]
            rfl
          · have ht := ih t.length (by rw [← hlen]; exact Nat.lt_succ_self _) t rfl
            rw [hpieces, List.flatMap_cons, ← ht, encode_cons]
            cases hc : keep c with
            | true =>
                rw [encodeChar, expand, if_pos hc, if_pos hc, List.singleton_append, pieces,
                  piecesFrom, escapeAt_encode hkeep hesc]
                rfl
            | false =>
                rw [encodeChar, expand, if_neg (by rw [hc]; decide), if_neg (by rw [hc]; decide),
                  pieces_escapeBytes fun b hb => utf8_lt hb]

/-- Escaping does not change what a text decodes to. -/
theorem unescape_encode (t : Text) : unescape (encode keep t) = unescape t := by
  rw [unescape, unescape, pieces_encode hkeep, decodePieces_expand keep]

end

end Base
