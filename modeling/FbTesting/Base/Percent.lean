import FbTesting.Base.Text

/-!
# Percent-encoding

A text is read as a list of pieces: an escape `%hh` stands for a byte, and any
other character, a stray `%` included, for itself.  Runs of bytes are decoded as
UTF-8.  `decodeURIComponent` fails on a stray `%` and on bytes that are not
UTF-8; `unescape` keeps the first and puts the replacement character for the
second.

`unescape` changes a text exactly when the text has an escape
(`unescape_eq_self_iff`), because each escape is three characters long and
yields at most one.
-/

namespace Base

/-! ## Pieces -/

/-- A byte that was escaped, or a character that was not. -/
inductive Piece where
  | byte (n : Nat)
  | char (c : Char)
deriving DecidableEq

/-- The escape at the front of a text. -/
def escapeAt : Text → Option Nat
  | '%' :: a :: b :: _ =>
      (hexDigitValue a).bind fun x => (hexDigitValue b).map fun y => 16 * x + y
  | _ => none

/-- The pieces of a text, after `skip` characters that an escape has used up. -/
def piecesFrom : Nat → Text → List Piece
  | _, [] => []
  | skip + 1, _ :: rest => piecesFrom skip rest
  | 0, c :: rest =>
      match escapeAt (c :: rest) with
      | some n => .byte n :: piecesFrom 2 rest
      | none => .char c :: piecesFrom 0 rest

/-- The pieces of a text. -/
def pieces (t : Text) : List Piece := piecesFrom 0 t

/-! ## UTF-8 -/

/-- The character of a code point of a sequence that may start at `least`. -/
def scalarFrom (least n : Nat) : Option Char :=
  if least ≤ n ∧ n.isValidChar then some (Char.ofNat n) else none

/-- The bits of a continuation byte. -/
def continuation (b : Nat) : Option Nat := if 0x80 ≤ b ∧ b < 0xc0 then some (b - 0x80) else none

/-- The character at the front of a list of bytes, and the number of bytes after
the first that it takes. -/
def utf8Char : List Nat → Option (Char × Nat)
  | [] => none
  | a :: rest =>
      if a < 0x80 then some (Char.ofNat a, 0)
      else if 0xc0 ≤ a ∧ a < 0xe0 then
        match rest with
        | b :: _ => do
            let x ← continuation b
            let c ← scalarFrom 0x80 ((a - 0xc0) * 64 + x)
            some (c, 1)
        | _ => none
      else if 0xe0 ≤ a ∧ a < 0xf0 then
        match rest with
        | b :: c :: _ => do
            let x ← continuation b
            let y ← continuation c
            let d ← scalarFrom 0x800 (((a - 0xe0) * 64 + x) * 64 + y)
            some (d, 2)
        | _ => none
      else if 0xf0 ≤ a ∧ a < 0xf8 then
        match rest with
        | b :: c :: d :: _ => do
            let x ← continuation b
            let y ← continuation c
            let z ← continuation d
            let e ← scalarFrom 0x10000 ((((a - 0xf0) * 64 + x) * 64 + y) * 64 + z)
            some (e, 3)
        | _ => none
      else none

/-- The characters of a list of bytes, `none` standing for a byte that is out of
place. -/
def utf8From : Nat → List Nat → List (Option Char)
  | _, [] => []
  | skip + 1, _ :: rest => utf8From skip rest
  | 0, b :: rest =>
      match utf8Char (b :: rest) with
      | some (c, n) => some c :: utf8From n rest
      | none => none :: utf8From 0 rest

/-- The characters of a list of pieces, after the bytes of an unfinished run. -/
def decodePieces : List Nat → List Piece → List (Option Char)
  | run, [] => utf8From 0 run
  | run, .byte n :: rest => decodePieces (run ++ [n]) rest
  | run, .char c :: rest => utf8From 0 run ++ some c :: decodePieces [] rest

/-! ## Decoding -/

/-- `decodeURIComponent`. -/
def decodeURIComponent (t : Text) : Option Text :=
  if Piece.char '%' ∈ pieces t then none
  else (decodePieces [] (pieces t)).mapM id

/-- `querystring.unescape`. -/
def unescape (t : Text) : Text := (decodePieces [] (pieces t)).map fun c => c.getD '\ufffd'

/-- The text has no escape. -/
def NoEscape (t : Text) : Prop := ∀ n, Piece.byte n ∉ pieces t

theorem length_utf8From (bs : List Nat) : ∀ skip, (utf8From skip bs).length ≤ bs.length := by
  induction bs with
  | nil => intro skip; cases skip <;> exact Nat.le_refl 0
  | cons b bs ih =>
      intro skip
      cases skip with
      | succ k => exact Nat.le_succ_of_le (ih k)
      | zero =>
          rw [utf8From]
          split
          · exact Nat.succ_le_succ (ih _)
          · exact Nat.succ_le_succ (ih 0)

/-- A piece yields at most one character. -/
theorem length_decodePieces (ps : List Piece) : ∀ run,
    (decodePieces run ps).length ≤ run.length + ps.length := by
  induction ps with
  | nil => intro run; exact length_utf8From run 0
  | cons p ps ih =>
      intro run
      cases p with
      | byte n =>
          have h := ih (run ++ [n])
          rw [List.length_append] at h
          simp only [decodePieces, List.length_cons, List.length_nil] at h ⊢
          omega
      | char c =>
          have h := ih []
          have hrun := length_utf8From run 0
          simp only [decodePieces, List.length_append, List.length_cons, List.length_nil] at h ⊢
          omega

/-- A text without escapes is read as its own characters. -/
theorem pieces_of_noEscape {t : Text} (h : NoEscape t) : pieces t = t.map .char := by
  unfold NoEscape pieces at *
  induction t with
  | nil => rfl
  | cons c t ih =>
      cases hc : escapeAt (c :: t) with
      | some n =>
          refine absurd ?_ (h n)
          rw [piecesFrom, hc]
          exact List.mem_cons_self
      | none =>
          have hstep : piecesFrom 0 (c :: t) = .char c :: piecesFrom 0 t := by rw [piecesFrom, hc]
          rw [hstep] at h ⊢
          rw [ih fun n hn => h n (List.mem_cons_of_mem _ hn), List.map_cons]

theorem decodePieces_chars (t : Text) : decodePieces [] (t.map .char) = t.map some := by
  induction t with
  | nil => rfl
  | cons c t ih =>
      rw [List.map_cons, decodePieces, ih]
      rfl

/-- Escapes take more characters than pieces. -/
theorem length_piecesFrom (t : Text) : ∀ skip, (piecesFrom skip t).length ≤ t.length - skip := by
  induction t with
  | nil => intro skip; cases skip <;> exact Nat.zero_le _
  | cons c t ih =>
      intro skip
      cases skip with
      | succ k =>
          have h := ih k
          simp only [piecesFrom, List.length_cons]
          omega
      | zero =>
          rw [piecesFrom]
          split
          · have h := ih 2
            simp only [List.length_cons]
            omega
          · have h := ih 0
            simp only [List.length_cons]
            omega

/-- With an escape there are fewer pieces than characters. -/
theorem length_pieces_lt {t : Text} {n : Nat} : ∀ {skip : Nat}, Piece.byte n ∈ piecesFrom skip t →
    (piecesFrom skip t).length < t.length - skip := by
  induction t with
  | nil => intro skip h; cases skip <;> cases h
  | cons c t ih =>
      intro skip h
      cases skip with
      | succ k =>
          have hlt : (piecesFrom k t).length < t.length - k := ih h
          simp only [piecesFrom, List.length_cons]
          omega
      | zero =>
          cases hc : escapeAt (c :: t) with
          | some m =>
              have hlen : 2 ≤ t.length := by
                unfold escapeAt at hc
                split at hc
                · rename_i heq
                  cases heq
                  simp
                · cases hc
              have hle := length_piecesFrom t 2
              rw [piecesFrom, hc]
              simp only [List.length_cons]
              omega
          | none =>
              have hstep : piecesFrom 0 (c :: t) = .char c :: piecesFrom 0 t := by
                rw [piecesFrom, hc]
              rw [hstep] at h ⊢
              cases h with
              | tail _ htail =>
                  have hlt := ih htail
                  simp only [List.length_cons]
                  omega

/-- A text without a percent sign has no escape. -/
theorem noEscape_of_not_mem {t : Text} (h : '%' ∉ t) : NoEscape t := by
  unfold NoEscape pieces
  induction t with
  | nil => intro n hn; cases hn
  | cons c t ih =>
      intro n hn
      have hescape : escapeAt (c :: t) = none := by
        unfold escapeAt
        split
        · rename_i heq
          exact absurd ((List.cons.inj heq).1 ▸ List.mem_cons_self) h
        · rfl
      rw [piecesFrom, hescape] at hn
      rcases List.mem_cons.mp hn with heq | hn
      · cases heq
      · exact ih (fun hm => h (List.mem_cons_of_mem _ hm)) n hn

/-- Decoding an escape makes a text shorter. -/
theorem length_unescape_lt {t : Text} (h : ¬NoEscape t) : (unescape t).length < t.length := by
  unfold NoEscape at h
  push Not at h
  obtain ⟨n, hn⟩ := h
  have hlt := length_pieces_lt hn
  have hle := length_decodePieces (pieces t) []
  rw [unescape, List.length_map]
  simp only [List.length_nil, pieces] at hlt hle ⊢
  omega

/-- Decoding changes a text exactly when it has an escape. -/
theorem unescape_eq_self_iff {t : Text} : unescape t = t ↔ NoEscape t := by
  constructor
  · intro h
    by_contra hesc
    have hlt := length_unescape_lt hesc
    rw [h] at hlt
    exact Nat.lt_irrefl _ hlt
  · intro h
    rw [unescape, pieces_of_noEscape h, decodePieces_chars, List.map_map]
    exact List.map_id t

end Base
