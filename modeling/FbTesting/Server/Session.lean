import Mathlib.Data.Rat.Floor
import Mathlib.Tactic.Linarith
import FbTesting.Base.Text

/-!
# Session IDs and handshakes

A session ID is four hexadecimal digits: `genuuid` writes a number between
`0x10000` and `0x20000` in base 16 and drops the first digit.  The number is a
sum of doubles, `1 + Math.random()`, without its lower places.  The sum is rounded,
and from the greatest random values it is 2 (`Draw.number_bounds`).  The type
carries the shape of an ID, and `genuuid` is shown to produce it.

A handshake reads `signedCookies['connect.sid']`.  cookie-parser yields the
signed value for a valid signature and `undefined` or `false` otherwise.  The
connection handler then uses what it got as a property name, so that the two
other values name properties as well.  They are not session IDs
(`SignedSid.key_eq_text_iff`).
-/

namespace Server

open Base

/-! ## Session IDs -/

/-- A lower-case hexadecimal digit. -/
def isHexDigit (c : Char) : Bool := c ∈ "0123456789abcdef".toList

/-- A session ID. -/
structure SessionID where
  text : Text
  /-- It has four digits. -/
  length_eq : text.length = 4
  /-- They are hexadecimal. -/
  digits : ∀ c ∈ text, isHexDigit c = true
deriving DecidableEq

@[ext] theorem SessionID.ext {s t : SessionID} (h : s.text = t.text) : s = t := by
  cases s
  cases t
  cases h
  rfl

/-! ## The number behind an ID -/

/-- The nearest whole number, and the even one of two that are equally near. -/
def roundEven (q : ℚ) : Nat :=
  if q - ⌊q⌋₊ < 1 / 2 then ⌊q⌋₊
  else if 1 / 2 < q - ⌊q⌋₊ then ⌊q⌋₊ + 1
  else ⌊q⌋₊ + ⌊q⌋₊ % 2

/-- Rounding reaches an even number from one half below it on. -/
theorem le_roundEven_iff {q : ℚ} (hq : 0 ≤ q) {m : Nat} (hm : m % 2 = 0) :
    m ≤ roundEven q ↔ (m : ℚ) ≤ q + 1 / 2 := by
  have hlo : ((⌊q⌋₊ : Nat) : ℚ) ≤ q := Nat.floor_le hq
  have hhi : q < (⌊q⌋₊ : Nat) + 1 := Nat.lt_floor_add_one q
  -- both sides compare with the whole number below or with the one above
  have hbelow : ∀ k : Nat, q + 1 / 2 < k + 1 → (k : ℚ) ≤ q + 1 / 2 →
      (m ≤ k ↔ (m : ℚ) ≤ q + 1 / 2) := by
    intro k hlt hle
    constructor
    · intro hmk
      exact (Nat.cast_le.mpr hmk).trans hle
    · intro hmq
      have hcast : (m : ℚ) < ((k + 1 : Nat) : ℚ) := by
        push_cast
        exact hmq.trans_lt hlt
      exact Nat.lt_succ_iff.mp (Nat.cast_lt.mp hcast)
  rw [roundEven]
  split_ifs with hless hmore
  · exact hbelow _ (by linarith) (by linarith)
  · exact hbelow (⌊q⌋₊ + 1) (by push_cast; linarith) (by push_cast; linarith)
  · rw [← hbelow (⌊q⌋₊ + 1) (by push_cast; linarith) (by push_cast; linarith)]
    omega

/-- A value of `Math.random()`. -/
structure Draw where
  value : ℚ
  nonneg : 0 ≤ value
  lt_one : value < 1

theorem Draw.least_bounds : (0 : ℚ) ≤ 0 ∧ (0 : ℚ) < 1 := ⟨le_refl 0, zero_lt_one⟩

/-- The least value. -/
def Draw.least : Draw := ⟨0, Draw.least_bounds.1, Draw.least_bounds.2⟩

/-- `1 + Math.random()`, as a multiple of `2⁻⁵²`.  The doubles from 1 to 2 are these
multiples, and an addition gives the nearest one. -/
def Draw.sum (d : Draw) : Nat := roundEven ((1 + d.value) * 0x10000000000000)

/-- `((1 + Math.random()) * 0x10000) | 0`.  The product is exact. -/
def Draw.number (d : Draw) : Nat := d.sum * 0x10000 / 0x10000000000000

theorem Draw.le_number_iff (d : Draw) (k : Nat) :
    k ≤ d.number ↔ (k : ℚ) ≤ (1 + d.value) * 0x10000 + 1 / 2 ^ 37 := by
  have hnonneg : 0 ≤ (1 + d.value) * 0x10000000000000 :=
    mul_nonneg (by linarith [d.nonneg]) (by norm_num)
  have hsum : k ≤ d.number ↔ k * 2 ^ 36 ≤ d.sum := by
    rw [Draw.number, Nat.le_div_iff_mul_le (by norm_num)]
    omega
  rw [hsum, Draw.sum, le_roundEven_iff hnonneg (by omega)]
  push_cast
  constructor
  · intro h
    linarith
  · intro h
    linarith

theorem Draw.number_bounds (d : Draw) : 0x10000 ≤ d.number ∧ d.number ≤ 0x20000 := by
  have h0 := d.nonneg
  have h1 := d.lt_one
  constructor
  · rw [d.le_number_iff]
    push_cast
    linarith
  · rw [← Nat.lt_succ_iff, ← Nat.not_le, d.le_number_iff, not_le]
    push_cast
    linarith

/-! ## The digits of an ID -/

theorem isHexDigit_digitChar {n : Nat} (h : n < 16) : isHexDigit n.digitChar = true := by
  revert n
  decide

theorem isHexDigit_of_mem_toDigits {n : Nat} : ∀ {c : Char}, c ∈ Nat.toDigits 16 n →
    isHexDigit c = true := by
  induction n using Nat.strongRecOn with
  | ind n ih =>
      intro c hc
      cases Nat.lt_or_ge n 16 with
      | inl hlt =>
          rw [Nat.toDigits_of_lt_base hlt, List.mem_singleton] at hc
          rw [hc]
          exact isHexDigit_digitChar hlt
      | inr hge =>
          rw [Nat.toDigits_of_base_le (by decide) hge, List.mem_append, List.mem_singleton] at hc
          cases hc with
          | inl h => exact ih (n / 16) (Nat.div_lt_self (by omega) (by decide)) h
          | inr h =>
              rw [h]
              exact isHexDigit_digitChar (Nat.mod_lt _ (by decide))

/-- A number between `0x10000` and `0x20000` has five digits. -/
theorem length_toDigits_number {n : Nat} (h : 0x10000 ≤ n ∧ n ≤ 0x20000) :
    (Nat.toDigits 16 n).length = 5 := by
  have hle : (Nat.toDigits 16 n).length ≤ 5 :=
    (Nat.length_toDigits_le_iff (by decide) (by decide)).mpr (by omega)
  have hgt : ¬(Nat.toDigits 16 n).length ≤ 4 := by
    rw [Nat.length_toDigits_le_iff (by decide) (by decide)]
    omega
  omega

/-- `genuuid`: the digits of the number without the first. -/
def genuuid (d : Draw) : SessionID where
  text := (Nat.toDigits 16 d.number).drop 1
  length_eq := by rw [List.length_drop, length_toDigits_number d.number_bounds]
  digits := fun _ hc => isHexDigit_of_mem_toDigits (List.mem_of_mem_drop hc)

/-! ## Handshakes -/

/-- `signedCookies['connect.sid']`. -/
inductive SignedSid where
  /-- The signature is valid. -/
  | valid (s : SessionID)
  /-- There is no such signed cookie. -/
  | undefined
  /-- The signature is not valid. -/
  | tampered
deriving DecidableEq

/-- The property name it is turned into. -/
def SignedSid.key : SignedSid → Text
  | .valid s => s.text
  | .undefined => "undefined".toList
  | .tampered => "false".toList

/-- Only the valid cookie of a session names the property of the session. -/
theorem SignedSid.key_eq_text_iff {c : SignedSid} {s : SessionID} :
    c.key = s.text ↔ c = .valid s := by
  constructor
  · intro h
    cases c with
    | valid t => rw [SessionID.ext h]
    | undefined =>
        have hlen := congrArg List.length h
        rw [s.length_eq] at hlen
        exact absurd hlen (by decide)
    | tampered =>
        have hlen := congrArg List.length h
        rw [s.length_eq] at hlen
        exact absurd hlen (by decide)
  · intro h
    rw [h]
    rfl

end Server
