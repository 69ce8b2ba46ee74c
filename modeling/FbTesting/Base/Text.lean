import Mathlib.Algebra.Group.Nat.Defs
import Mathlib.Data.List.Basic
import Mathlib.Data.List.Infix
import Mathlib.Data.List.TakeWhile

/-!
# Texts and number formats

A text is the list of its code points.  Two number formats are used on texts.
The decimal format is `Nat.toDigits 10`, with a padded variant of a least
width.  The hexadecimal format has a fixed width and lower-case digits, as
escape sequences have it.

Both formats are read back by a value function (`decimalValue`, `hexValue`),
and the read-back laws are `decimalValue_decimal`, `decimalValue_padded` and
`hexValue_hex`.
-/

namespace Base

/-- A text, as the list of its code points. -/
abbrev Text := List Char

/-- A statement about the characters of a text is decided along the text.  There
is also an instance that goes over all characters, and it would be found first. -/
instance (priority := high) decidableForallMem (t : Text) (p : Char → Prop) [DecidablePred p] :
    Decidable (∀ c ∈ t, p c) := List.decidableBAll p t

/-! ## Decimal numbers -/

/-- The decimal digits of a number, without padding. -/
def decimal (n : Nat) : Text := Nat.toDigits 10 n

/-- The decimal digits of a number, padded with zeros to at least `w` digits. -/
def padded (w n : Nat) : Text :=
  List.replicate (w - (decimal n).length) '0' ++ decimal n

/-- The number a list of decimal digits stands for. -/
def decimalValue (t : Text) : Nat := Nat.ofDigitChars 10 t 0

/-- A nonempty list of decimal digits. -/
def isDecimal (t : Text) : Bool := !t.isEmpty && t.all Char.isDigit

theorem decimal_ne_nil (n : Nat) : decimal n ≠ [] := Nat.toDigits_ne_nil

theorem isDigit_of_mem_decimal {n : Nat} {c : Char} (h : c ∈ decimal n) : c.isDigit = true :=
  Nat.isDigit_of_mem_toDigits (by decide) (by decide) h

theorem decimalValue_decimal (n : Nat) : decimalValue (decimal n) = n :=
  Nat.ofDigitChars_ten_toDigits

theorem isDigit_of_mem_padded {w n : Nat} {c : Char} (h : c ∈ padded w n) :
    c.isDigit = true := by
  rcases List.mem_append.mp h with hz | hd
  · rw [List.eq_of_mem_replicate hz]
    decide
  · exact isDigit_of_mem_decimal hd

theorem padded_ne_nil (w n : Nat) : padded w n ≠ [] := by
  simp [padded, decimal_ne_nil]

theorem isDecimal_of_digits {t : Text} (hne : t ≠ []) (h : ∀ c ∈ t, c.isDigit = true) :
    isDecimal t = true := by
  simp only [isDecimal, Bool.and_eq_true, Bool.not_eq_true', List.isEmpty_eq_false_iff,
    List.all_eq_true]
  exact ⟨hne, h⟩

theorem isDecimal_decimal (n : Nat) : isDecimal (decimal n) = true :=
  isDecimal_of_digits (decimal_ne_nil n) fun _ => isDigit_of_mem_decimal

/-- Padding does not change the value. -/
theorem decimalValue_padded (w n : Nat) : decimalValue (padded w n) = n := by
  rw [decimalValue, padded, Nat.ofDigitChars_append, Nat.ofDigitChars_replicate_zero,
    Nat.mul_zero]
  exact decimalValue_decimal n

/-- A number below `10 ^ w` is padded to exactly `w` digits. -/
theorem length_padded {w n : Nat} (hw : 0 < w) (h : n < 10 ^ w) : (padded w n).length = w := by
  have hle : (decimal n).length ≤ w := (Nat.length_toDigits_le_iff (by decide) hw).mpr h
  simp only [padded, List.length_append, List.length_replicate]
  omega

/-! ## Hexadecimal numbers of a fixed width -/

/-- The lower-case hexadecimal digit of a number below 16. -/
def hexDigit (n : Nat) : Char := Nat.digitChar n

/-- The value of a hexadecimal digit of either case. -/
def hexDigitValue (c : Char) : Option Nat :=
  if '0' ≤ c ∧ c ≤ '9' then some (c.toNat - 48)
  else if 'a' ≤ c ∧ c ≤ 'f' then some (c.toNat - 87)
  else if 'A' ≤ c ∧ c ≤ 'F' then some (c.toNat - 55)
  else none

/-- The `w` lowest hexadecimal digits of a number, most significant first. -/
def hex : Nat → Nat → Text
  | 0, _ => []
  | w + 1, n => hex w (n / 16) ++ [hexDigit (n % 16)]

/-- The number a list of hexadecimal digits stands for, above what was read
before it. -/
def hexValueFrom (acc : Nat) : Text → Option Nat
  | [] => some acc
  | c :: cs => (hexDigitValue c).bind fun d => hexValueFrom (acc * 16 + d) cs

/-- The number a list of hexadecimal digits stands for. -/
def hexValue (t : Text) : Option Nat := hexValueFrom 0 t

theorem hexDigitValue_hexDigit {n : Nat} (h : n < 16) : hexDigitValue (hexDigit n) = some n := by
  revert n
  decide

@[simp] theorem length_hex : ∀ w n : Nat, (hex w n).length = w
  | 0, _ => rfl
  | w + 1, n => by simp [hex, length_hex w]

theorem hexValueFrom_append (t u : Text) : ∀ acc : Nat,
    hexValueFrom acc (t ++ u) = (hexValueFrom acc t).bind fun a => hexValueFrom a u := by
  induction t with
  | nil => intro acc; rfl
  | cons c cs ih =>
      intro acc
      cases hd : hexDigitValue c with
      | none => simp [hexValueFrom, hd]
      | some d => simp [hexValueFrom, hd, ih]

theorem hexValueFrom_hex : ∀ (w n acc : Nat), n < 16 ^ w →
    hexValueFrom acc (hex w n) = some (acc * 16 ^ w + n)
  | 0, n, acc, h => by
      have hn : n = 0 := by simpa using h
      simp [hex, hexValueFrom, hn]
  | w + 1, n, acc, h => by
      have hdiv : n / 16 < 16 ^ w := by
        rw [Nat.div_lt_iff_lt_mul (by decide)]
        rwa [Nat.pow_succ] at h
      have hmod : n % 16 < 16 := Nat.mod_lt _ (by decide)
      rw [hex, hexValueFrom_append, hexValueFrom_hex w (n / 16) acc hdiv]
      simp only [Option.bind_some, hexValueFrom, hexDigitValue_hexDigit hmod, Option.some.injEq]
      rw [Nat.pow_succ]
      have hn := Nat.div_add_mod n 16
      rw [Nat.add_mul, Nat.mul_assoc]
      omega

/-- A number that fits the width is read back from its digits. -/
theorem hexValue_hex {w n : Nat} (h : n < 16 ^ w) : hexValue (hex w n) = some n := by
  rw [hexValue, hexValueFrom_hex w n 0 h, Nat.zero_mul, Nat.zero_add]

/-- Digit strings of the same width differ when the numbers do. -/
theorem hex_injective {w m n : Nat} (hm : m < 16 ^ w) (hn : n < 16 ^ w)
    (h : hex w m = hex w n) : m = n := by
  have hv := hexValue_hex hm
  rw [h, hexValue_hex hn] at hv
  exact (Option.some.inj hv).symm

/-! ## Splitting at a separator -/

/-- A piece without the separator is the first piece of the split. -/
theorem splitOn_append_cons {sep : Char} {piece : Text} (h : sep ∉ piece) (rest : Text) :
    (piece ++ sep :: rest).splitOn sep = piece :: rest.splitOn sep := by
  rw [List.splitOn_eq_splitOnP, List.splitOn_eq_splitOnP]
  refine List.splitOnP_append_cons_of_forall_mem (fun x hx => ?_) sep (by simp) rest
  simp only [beq_eq_false_iff_ne, ne_eq]
  rintro rfl
  exact h hx

/-- A text without the separator is its own only piece. -/
theorem splitOn_of_not_mem {sep : Char} {t : Text} (h : sep ∉ t) : t.splitOn sep = [t] := by
  rw [List.splitOn_eq_splitOnP]
  refine List.splitOnP_eq_singleton fun x hx => ?_
  simp only [beq_eq_false_iff_ne, ne_eq]
  rintro rfl
  exact h hx

theorem infix_intercalate {sep piece : Text} : ∀ {pieces : List Text}, piece ∈ pieces →
    piece <:+: sep.intercalate pieces
  | [p], h => by
      rw [List.mem_singleton.mp h, List.intercalate_singleton]
  | p :: q :: pieces, h => by
      rw [List.intercalate_cons_cons]
      cases List.mem_cons.mp h with
      | inl heq =>
          rw [heq, List.append_assoc]
          exact (List.prefix_append p _).isInfix
      | inr hmem => exact (infix_intercalate hmem).trans (List.suffix_append _ _).isInfix

/-- The pieces of a text occur in it. -/
theorem infix_of_mem_splitOn {sep : Char} {piece t : Text} (h : piece ∈ t.splitOn sep) :
    piece <:+: t := by
  have hin : piece <:+: [sep].intercalate (t.splitOn sep) := infix_intercalate h
  rwa [List.intercalate_splitOn] at hin

theorem not_mem_of_digits {t : Text} {c : Char} (hc : c.isDigit = false)
    (h : ∀ x ∈ t, x.isDigit = true) : c ∉ t := by
  intro hm
  rw [h c hm] at hc
  cases hc

/-- A letter or digit is none of some other characters. -/
theorem not_mem_of_isAlphanum {marks : Text} {c : Char} (hc : c.isAlphanum = true)
    (hmarks : ∀ d ∈ marks, d.isAlphanum = false) : c ∉ marks := by
  intro hmem
  rw [hmarks c hmem] at hc
  cases hc

/-- A class with all letters and digits, among these and some other characters, is given by
the characters that it lacks. -/
theorem class_iff_not_mem {p : Char → Bool} {marks missing : Text}
    (halnum : ∀ c, c.isAlphanum = true → p c = true)
    (hmissing : ∀ d ∈ missing, d.isAlphanum = false)
    (hmarks : ∀ d ∈ marks, p d = true ↔ d ∉ missing) {c : Char}
    (hc : c.isAlphanum = true ∨ c ∈ marks) : p c = true ↔ c ∉ missing := by
  cases hc with
  | inl h => exact iff_of_true (halnum c h) (not_mem_of_isAlphanum h hmissing)
  | inr h => exact hmarks c h

/-! ## Infixes and padding -/

section

variable {α : Type}

theorem head?_of_infix_replicate {l : List α} {n : Nat} {z : α} (h : l <:+: List.replicate n z)
    (hne : l ≠ []) : l.head? = some z := by
  cases l with
  | nil => exact absurd rfl hne
  | cons a l => rw [List.head?_cons, List.eq_of_mem_replicate (h.subset List.mem_cons_self)]

theorem getLast?_of_infix_replicate {l : List α} {n : Nat} {z : α} (h : l <:+: List.replicate n z)
    (hne : l ≠ []) : l.getLast? = some z := by
  rw [List.getLast?_eq_some_getLast hne,
    List.eq_of_mem_replicate (h.subset (List.getLast_mem hne))]

/-- A text that is no longer than the padding, and neither begins nor ends with its
character, is on one side of it. -/
theorem infix_of_padded {d x y : List α} {n : Nat} {z : α} (hlen : d.length ≤ n)
    (hhead : d.head? ≠ some z) (hlast : d.getLast? ≠ some z)
    (h : d <:+: x ++ (List.replicate n z ++ y)) : d <:+: x ∨ d <:+: y := by
  rcases List.infix_append_iff.mp h with h | h | ⟨l₁, l₂, rfl, h₁, h₂⟩
  · exact Or.inl h
  · rcases List.infix_append_iff.mp h with h | h | ⟨l₁, l₂, rfl, h₁, h₂⟩
    · have hnil : d = [] := by
        by_contra hne
        exact hhead (head?_of_infix_replicate h hne)
      rw [hnil]
      exact Or.inl List.nil_infix
    · exact Or.inr h
    · have hnil : l₁ = [] := by
        by_contra hne
        refine hhead ?_
        rw [List.head?_append_of_ne_nil _ hne]
        exact head?_of_infix_replicate h₁.isInfix hne
      rw [hnil]
      exact Or.inr h₂.isInfix
  · have hnil : l₂ = [] := by
      by_contra hne
      refine hlast ?_
      rw [List.getLast?_append_of_ne_nil _ hne]
      have hpad : l₂ <+: List.replicate n z := by
        refine List.prefix_of_prefix_length_le h₂ (List.prefix_append _ y) ?_
        rw [List.length_append] at hlen
        rw [List.length_replicate]
        omega
      exact getLast?_of_infix_replicate hpad.isInfix hne
    rw [hnil, List.append_nil]
    exact Or.inl h₁.isInfix

end

/-! ## Runs of characters -/

theorem dropWhile_of_head? {p : Char → Bool} {t : Text} (h : ∀ c ∈ t.head?, p c = false) :
    t.dropWhile p = t := by
  cases t with
  | nil => rfl
  | cons c t => exact List.dropWhile_cons_of_neg (Bool.eq_false_iff.mp (h c rfl))

theorem takeWhile_append_cons {s : Char} {t : Text} (h : s ∉ t) (rest : Text) :
    (t ++ s :: rest).takeWhile (· ≠ s) = t := by
  rw [List.takeWhile_append_of_pos, List.takeWhile_cons_of_neg (by simp), List.append_nil]
  intro c hc
  simp only [decide_eq_true_eq]
  rintro rfl
  exact h hc

theorem dropWhile_append_cons {s : Char} {t : Text} (h : s ∉ t) (rest : Text) :
    (t ++ s :: rest).dropWhile (· ≠ s) = s :: rest := by
  rw [List.dropWhile_append_of_pos, List.dropWhile_cons_of_neg (by simp)]
  intro c hc
  simp only [decide_eq_true_eq]
  rintro rfl
  exact h hc

theorem takeWhile_of_not_mem {s : Char} {t : Text} (h : s ∉ t) : t.takeWhile (· ≠ s) = t := by
  rw [List.takeWhile_eq_self_iff]
  intro c hc
  simp only [decide_eq_true_eq]
  rintro rfl
  exact h hc

/-- A text begins with a run exactly when its characters are of the class and what
follows them is not. -/
theorem takeWhile_append_eq_iff {p : Char → Bool} {v rest : Text} :
    (v ++ rest).takeWhile p = v ↔ (∀ c ∈ v, p c = true) ∧ ∀ c ∈ rest.head?, p c = false := by
  induction v with
  | nil =>
      rw [List.nil_append, and_iff_right fun c hc => absurd hc List.not_mem_nil]
      cases rest with
      | nil => exact iff_of_true rfl fun c hc => by cases hc
      | cons d rest =>
          cases hd : p d with
          | true =>
              rw [List.takeWhile_cons_of_pos hd]
              refine iff_of_false (List.cons_ne_nil _ _) fun h => ?_
              rw [h d rfl] at hd
              cases hd
          | false =>
              rw [List.takeWhile_cons_of_neg (Bool.eq_false_iff.mp hd)]
              refine iff_of_true rfl fun c hc => ?_
              rw [← Option.some.inj hc]
              exact hd
  | cons d v ih =>
      rw [List.cons_append, List.forall_mem_cons]
      cases hd : p d with
      | true =>
          rw [List.takeWhile_cons_of_pos hd, List.cons_inj_right, ih, and_iff_right rfl]
      | false =>
          rw [List.takeWhile_cons_of_neg (Bool.eq_false_iff.mp hd)]
          refine iff_of_false (List.cons_ne_nil _ _).symm fun h => ?_
          cases h.1.1

/-- After a run there is nothing or a character outside the class. -/
theorem head?_dropWhile (p : Char → Bool) (t : Text) :
    ∀ c ∈ (t.dropWhile p).head?, p c = false := by
  intro c hc
  have hnot := List.head?_dropWhile_not p t
  rw [Option.mem_def.mp hc] at hnot
  exact hnot

/-! ## Lower case -/

/-- A capital letter is shifted to the small one. -/
theorem toNat_toLower {c : Char} (h : c.val ≥ 'A'.val ∧ c.val ≤ 'Z'.val) :
    c.toLower.val.toNat = c.val.toNat + 32 := by
  have hshift : c.toLower.val = c.val + ('a'.val - 'A'.val) := congrArg Char.val (dif_pos h)
  have hdiff : ('a'.val - 'A'.val).toNat = 32 := by decide
  have hZ : ('Z'.val).toNat = 90 := by decide
  have hlast := UInt32.le_iff_toNat_le.mp h.2
  rw [hshift, UInt32.toNat_add, hdiff]
  omega

/-- What is lower-cased stays so. -/
theorem toLower_toLower (c : Char) : c.toLower.toLower = c.toLower := by
  have hlow : ¬(c.toLower.val ≥ 'A'.val ∧ c.toLower.val ≤ 'Z'.val) := by
    by_cases hupper : c.val ≥ 'A'.val ∧ c.val ≤ 'Z'.val
    · have hA : ('A'.val).toNat = 65 := by decide
      have hZ : ('Z'.val).toNat = 90 := by decide
      have hfirst := UInt32.le_iff_toNat_le.mp hupper.1
      simp only [ge_iff_le, UInt32.le_iff_toNat_le, toNat_toLower hupper]
      omega
    · have hsame : c.toLower = c := dif_neg hupper
      rw [hsame]
      exact hupper
  exact dif_neg hlow

theorem isAlpha_of_small {c : Char} (h : 'a'.val ≤ c.val ∧ c.val ≤ 'z'.val) : c.isAlpha = true := by
  have hlower : c.isLower = true := by
    change (decide (c.val ≥ 'a'.val) && decide (c.val ≤ 'z'.val)) = true
    rw [decide_eq_true h.1, decide_eq_true h.2]
    rfl
  change (c.isUpper || c.isLower) = true
  rw [hlower, Bool.or_true]

/-- A letter or digit is lower-cased to one. -/
theorem isAlphanum_toLower {c : Char} (h : c.isAlphanum = true) : c.toLower.isAlphanum = true := by
  by_cases hupper : c.val ≥ 'A'.val ∧ c.val ≤ 'Z'.val
  · have hA : ('A'.val).toNat = 65 := by decide
    have hZ : ('Z'.val).toNat = 90 := by decide
    have ha : ('a'.val).toNat = 97 := by decide
    have hz : ('z'.val).toNat = 122 := by decide
    have hfirst := UInt32.le_iff_toNat_le.mp hupper.1
    have hlast := UInt32.le_iff_toNat_le.mp hupper.2
    have hsmall : 'a'.val ≤ c.toLower.val ∧ c.toLower.val ≤ 'z'.val := by
      rw [UInt32.le_iff_toNat_le, UInt32.le_iff_toNat_le, toNat_toLower hupper]
      omega
    rw [Char.isAlphanum, isAlpha_of_small hsmall, Bool.true_or]
  · have hsame : c.toLower = c := dif_neg hupper
    rwa [hsame]

end Base
