import FbTesting.Base.Text

/-!
# Setting and reading markup

The browser is outside the repository.  Of it the scripts use `innerHTML`: setting
it parses a markup, and reading it writes the content down as markup again.  An
`Html` is what they use of this, and its `Rules` are what the standard says of
buttons with a text in them.

A text that opens no markup becomes a text node.  Line ends are unified and
character references are replaced by what they stand for (`References.text`).
When the node is written down, four characters are replaced by references
(`escape`).  The table of references is long, so it is a parameter; each
reference takes more characters than it stands for.

What was written down is read back up to line ends (`References.text_escape`).
What is read first is the text as it stands or a shorter one
(`References.text_cases`).
-/

namespace Browser

open Base

/-! ## Line ends -/

/-- A text with its line ends unified, after a carriage return or not. -/
def unifyFrom : Bool → Text → Text
  | _, [] => []
  | true, '\n' :: rest => unifyFrom false rest
  | _, c :: rest => (if c = '\r' then '\n' else c) :: unifyFrom (c = '\r') rest

/-- A text with its line ends unified. -/
def unify (t : Text) : Text := unifyFrom false t

theorem unifyFrom_cons {b : Bool} {c : Char} (h : ¬(b = true ∧ c = '\n')) (t : Text) :
    unifyFrom b (c :: t) = (if c = '\r' then '\n' else c) :: unifyFrom (c = '\r') t := by
  rw [unifyFrom.eq_def]
  split
  · rename_i heq
    cases heq
  · rename_i heq
    exact absurd ⟨rfl, (List.cons.inj heq).1⟩ h
  · rename_i heq
    obtain ⟨rfl, rfl⟩ := List.cons.inj heq
    rfl

theorem length_unifyFrom (t : Text) : ∀ b, (unifyFrom b t).length ≤ t.length := by
  induction t with
  | nil => intro b; cases b <;> exact Nat.le_refl 0
  | cons c t ih =>
      intro b
      by_cases h : b = true ∧ c = '\n'
      · obtain ⟨rfl, rfl⟩ := h
        exact Nat.le_succ_of_le (ih false)
      · rw [unifyFrom_cons h]
        exact Nat.succ_le_succ (ih _)

theorem unify_eq_self {t : Text} (h : '\r' ∉ t) : unify t = t := by
  unfold unify
  induction t with
  | nil => rfl
  | cons c t ih =>
      have hc : c ≠ '\r' := fun heq => h (heq ▸ List.mem_cons_self)
      rw [unifyFrom_cons (by simp), if_neg hc, decide_eq_false hc,
        ih fun hm => h (List.mem_cons_of_mem _ hm)]

theorem null_not_mem_unifyFrom {t : Text} (h : '\x00' ∉ t) : ∀ b, '\x00' ∉ unifyFrom b t := by
  induction t with
  | nil => intro b; cases b <;> exact List.not_mem_nil
  | cons c t ih =>
      have ht : '\x00' ∉ t := fun hm => h (List.mem_cons_of_mem _ hm)
      intro b
      by_cases hb : b = true ∧ c = '\n'
      · obtain ⟨rfl, rfl⟩ := hb
        exact ih ht false
      · rw [unifyFrom_cons hb]
        intro hm
        rcases List.mem_cons.mp hm with heq | hm
        · split at heq
          · exact absurd heq (by decide)
          · exact h (heq ▸ List.mem_cons_self)
        · exact ih ht _ hm

/-! ## Writing a text node down -/

/-- A character of a text node, as markup. -/
def escapeChar (c : Char) : Text :=
  if c = '&' then "&amp;".toList
  else if c = '<' then "&lt;".toList
  else if c = '>' then "&gt;".toList
  else if c = '\u00a0' then "&nbsp;".toList
  else [c]

/-- A text node, as markup. -/
def escape (t : Text) : Text := t.flatMap escapeChar

/-- The characters that are replaced. -/
def isEscaped (c : Char) : Bool := c ∈ ['&', '<', '>', '\u00a0']

@[simp] theorem escape_nil : escape [] = [] := rfl

@[simp] theorem escape_cons (c : Char) (t : Text) : escape (c :: t) = escapeChar c ++ escape t := by
  simp [escape]

@[simp] theorem escape_append (t u : Text) : escape (t ++ u) = escape t ++ escape u := by
  simp [escape]

theorem escapeChar_of_not {c : Char} (h : isEscaped c = false) : escapeChar c = [c] := by
  simp only [isEscaped, decide_eq_false_iff_not, List.mem_cons, List.not_mem_nil, or_false,
    not_or] at h
  obtain ⟨h1, h2, h3, h4⟩ := h
  rw [escapeChar, if_neg h1, if_neg h2, if_neg h3, if_neg h4]

/-- A replaced character is one of four. -/
theorem escaped_cases {c : Char} (h : isEscaped c = true) :
    c = '&' ∨ c = '<' ∨ c = '>' ∨ c = '\u00a0' := by
  simpa [isEscaped] using h

theorem escape_eq_self {t : Text} (h : ∀ c ∈ t, isEscaped c = false) : escape t = t :=
  (List.flatMap_congr fun c hc => escapeChar_of_not (h c hc)).trans (List.flatMap_singleton' _)

/-- The references that are written have neither line ends nor `<`. -/
theorem mem_escapeChar {c d : Char} (h : d ∈ escapeChar c) :
    (d = c ∧ isEscaped c = false) ∨ d ∈ "&amp;ltgnbs".toList := by
  cases hc : isEscaped c with
  | false =>
      rw [escapeChar_of_not hc] at h
      exact Or.inl ⟨List.mem_singleton.mp h, rfl⟩
  | true =>
      refine Or.inr ?_
      have hall : ∀ e ∈ ['&', '<', '>', '\u00a0'], ∀ d ∈ escapeChar e,
          d ∈ "&amp;ltgnbs".toList := by decide
      exact hall c (by simpa [isEscaped] using hc) d h

theorem unifyFrom_append {w : Text} (h : ∀ c ∈ w, c ≠ '\n' ∧ c ≠ '\r') (hne : w ≠ []) (t : Text) :
    ∀ b, unifyFrom b (w ++ t) = w ++ unifyFrom false t := by
  induction w with
  | nil => exact absurd rfl hne
  | cons c w ih =>
      intro b
      obtain ⟨hn, hr⟩ := h c List.mem_cons_self
      rw [List.cons_append, unifyFrom_cons fun hb => hn hb.2, if_neg hr, decide_eq_false hr,
        List.cons_append]
      cases w with
      | nil => rfl
      | cons d w => rw [ih (fun e he => h e (List.mem_cons_of_mem _ he)) (by simp)]

/-- Line ends are unified before or after a text is written down. -/
theorem unify_escape (t : Text) : ∀ b, unifyFrom b (escape t) = escape (unifyFrom b t) := by
  induction t with
  | nil => intro b; cases b <;> rfl
  | cons c t ih =>
      intro b
      cases hc : isEscaped c with
      | true =>
          have hplain : ∀ e ∈ ['&', '<', '>', '\u00a0'], ∀ d ∈ escapeChar e,
              d ≠ '\n' ∧ d ≠ '\r' := by decide
          have hmem : c ∈ ['&', '<', '>', '\u00a0'] := by simpa [isEscaped] using hc
          have hlines : ∀ e ∈ ['&', '<', '>', '\u00a0'], e ≠ '\n' ∧ e ≠ '\r' ∧ escapeChar e ≠ [] := by
            decide
          obtain ⟨hn, hr, hne⟩ := hlines c hmem
          rw [escape_cons, unifyFrom_append (hplain c hmem) hne, ih, unifyFrom_cons fun hb => hn hb.2,
            if_neg hr, decide_eq_false hr, escape_cons]
      | false =>
          rw [escape_cons, escapeChar_of_not hc, List.singleton_append]
          by_cases hb : b = true ∧ c = '\n'
          · obtain ⟨rfl, rfl⟩ := hb
            exact ih false
          · rw [unifyFrom_cons hb, unifyFrom_cons hb, ih, escape_cons]
            split
            · rfl
            · rw [escapeChar_of_not hc]
              rfl

/-! ## Character references -/

/-- The table of character references. -/
structure References where
  /-- What the reference after an ampersand stands for, and how many characters
  it takes. -/
  read : Text → Option (Text × Nat)
  /-- With the ampersand, a reference is longer than what it stands for. -/
  shorter : ∀ {r u n}, read r = some (u, n) → u.length ≤ n ∧ n ≤ r.length
  /-- No reference stands for the null character. -/
  noNull : ∀ {r u n}, read r = some (u, n) → '\x00' ∉ u
  amp : ∀ r, read ("amp;".toList ++ r) = some (['&'], 4)
  lt : ∀ r, read ("lt;".toList ++ r) = some (['<'], 3)
  gt : ∀ r, read ("gt;".toList ++ r) = some (['>'], 3)
  nbsp : ∀ r, read ("nbsp;".toList ++ r) = some (['\u00a0'], 5)

namespace References

variable (R : References)

/-- A text with its references replaced, after `skip` characters of one. -/
def decodeFrom : Nat → Text → Text
  | _, [] => []
  | skip + 1, _ :: rest => decodeFrom skip rest
  | 0, c :: rest =>
      if c = '&' then
        match R.read rest with
        | some (u, n) => u ++ decodeFrom n rest
        | none => c :: decodeFrom 0 rest
      else c :: decodeFrom 0 rest

/-- The text node that a text becomes. -/
def text (t : Text) : Text := R.decodeFrom 0 (unify t)

theorem decodeFrom_append_left (w t : Text) : R.decodeFrom w.length (w ++ t) = R.decodeFrom 0 t := by
  induction w with
  | nil => rfl
  | cons c w ih => exact ih

theorem decodeFrom_reference {w t u : Text} (h : R.read (w ++ t) = some (u, w.length)) :
    R.decodeFrom 0 ('&' :: (w ++ t)) = u ++ R.decodeFrom 0 t := by
  rw [decodeFrom, if_pos rfl, h]
  simp only [decodeFrom_append_left]

theorem decodeFrom_ne {c : Char} (hc : c ≠ '&') (t : Text) :
    R.decodeFrom 0 (c :: t) = c :: R.decodeFrom 0 t := by
  rw [decodeFrom, if_neg hc]

/-- What is written down is read back. -/
theorem decodeFrom_escape (t : Text) : R.decodeFrom 0 (escape t) = t := by
  induction t with
  | nil => rfl
  | cons c t ih =>
      rw [escape_cons]
      cases hc : isEscaped c with
      | false =>
          have hne : c ≠ '&' := by
            rintro rfl
            exact absurd hc (by decide)
          rw [escapeChar_of_not hc, List.singleton_append, R.decodeFrom_ne hne, ih]
      | true =>
          rcases escaped_cases hc with rfl | rfl | rfl | rfl
          · have h := R.decodeFrom_reference (w := "amp;".toList) (R.amp (escape t))
            rw [ih] at h
            exact h
          · have h := R.decodeFrom_reference (w := "lt;".toList) (R.lt (escape t))
            rw [ih] at h
            exact h
          · have h := R.decodeFrom_reference (w := "gt;".toList) (R.gt (escape t))
            rw [ih] at h
            exact h
          · have h := R.decodeFrom_reference (w := "nbsp;".toList) (R.nbsp (escape t))
            rw [ih] at h
            exact h

/-- Writing down and reading back unifies line ends. -/
theorem text_escape (t : Text) : R.text (escape t) = unify t := by
  rw [text, unify, unify_escape, decodeFrom_escape]
  rfl

theorem length_decodeFrom (t : Text) : ∀ skip, (R.decodeFrom skip t).length ≤ t.length - skip := by
  induction t with
  | nil => intro skip; cases skip <;> exact Nat.zero_le _
  | cons c t ih =>
      intro skip
      cases skip with
      | succ k =>
          have h := ih k
          simp only [decodeFrom, List.length_cons]
          omega
      | zero =>
          have hrest := ih 0
          rw [decodeFrom]
          split
          · split
            · rename_i u n hread
              have hlen := R.shorter hread
              have h := ih n
              simp only [List.length_append, List.length_cons]
              omega
            · simp only [List.length_cons]
              omega
          · simp only [List.length_cons]
            omega

/-- Replacing references changes nothing or makes the text shorter. -/
theorem decodeFrom_cases (t : Text) :
    R.decodeFrom 0 t = t ∨ (R.decodeFrom 0 t).length < t.length := by
  induction t with
  | nil => exact Or.inl rfl
  | cons c t ih =>
      have hstep : R.decodeFrom 0 (c :: t) = c :: R.decodeFrom 0 t →
          R.decodeFrom 0 (c :: t) = c :: t ∨ (R.decodeFrom 0 (c :: t)).length < (c :: t).length := by
        intro h
        rw [h]
        rcases ih with ih | ih
        · exact Or.inl (by rw [ih])
        · exact Or.inr (Nat.succ_lt_succ ih)
      by_cases hc : c = '&'
      · cases hread : R.read t with
        | none => exact hstep (by rw [decodeFrom, if_pos hc, hread])
        | some p =>
            obtain ⟨u, n⟩ := p
            refine Or.inr ?_
            have hlen := R.shorter hread
            have hrest := R.length_decodeFrom t n
            rw [decodeFrom, if_pos hc, hread]
            simp only [List.length_append, List.length_cons]
            omega
      · exact hstep (R.decodeFrom_ne hc t)

theorem text_cases {t : Text} (h : '\r' ∉ t) : R.text t = t ∨ (R.text t).length < t.length := by
  rw [text, unify_eq_self h]
  exact R.decodeFrom_cases t

theorem null_not_mem_decodeFrom {t : Text} (h : '\x00' ∉ t) :
    ∀ skip, '\x00' ∉ R.decodeFrom skip t := by
  induction t with
  | nil => intro skip; cases skip <;> exact List.not_mem_nil
  | cons c t ih =>
      have ht : '\x00' ∉ t := fun hm => h (List.mem_cons_of_mem _ hm)
      have hcons : '\x00' ∉ c :: R.decodeFrom 0 t := by
        intro hm
        rcases List.mem_cons.mp hm with heq | hm
        · exact h (heq ▸ List.mem_cons_self)
        · exact ih ht 0 hm
      intro skip
      cases skip with
      | succ k => exact ih ht k
      | zero =>
          rw [decodeFrom]
          split
          · split
            · rename_i u n hread
              intro hm
              rcases List.mem_append.mp hm with hm | hm
              · exact R.noNull hread hm
              · exact ih ht n hm
            · exact hcons
          · exact hcons

end References

/-! ## Buttons -/

/-- A character that opens markup behind `<`. -/
def opensTag (c : Char) : Bool := c.isAlpha || c ∈ ['/', '!', '?']

/-- The text has no null character and opens no markup. -/
structure PlainText (t : Text) : Prop where
  noNull : '\x00' ∉ t
  noTag : ∀ c, opensTag c = true → ¬['<', c] <:+: t

theorem plainText_of_not_mem {t : Text} (hnull : '\x00' ∉ t) (h : '<' ∉ t) : PlainText t :=
  ⟨hnull, fun _ _ hpart => h (hpart.subset List.mem_cons_self)⟩

/-- What is written down opens no markup. -/
theorem plainText_escape {t : Text} (h : '\x00' ∉ t) : PlainText (escape t) := by
  have hmem : ∀ c ∈ ['\x00', '<'], c ∈ escape t → c ∈ t ∧ isEscaped c = false := by
    intro c hc hm
    obtain ⟨d, hd, hm⟩ := List.mem_flatMap.mp hm
    rcases mem_escapeChar hm with ⟨rfl, hesc⟩ | hm
    · exact ⟨hd, hesc⟩
    · exact absurd hm ((by decide : ∀ c ∈ ['\x00', '<'], c ∉ "&amp;ltgnbs".toList) c hc)
  refine plainText_of_not_mem (fun hm => h (hmem _ (by simp) hm).1) fun hm => ?_
  exact absurd (hmem _ (by simp) hm).2 (by decide)

/-- `'<button type="button" onclick="getLinks(this.innerHTML)">' + t + '</button>'`. -/
def buttonMarkup (t : Text) : Text :=
  "<button type=\"button\" onclick=\"getLinks(this.innerHTML)\">".toList ++ t ++ "</button>".toList

/-- What the scripts use of the documents of a browser. -/
structure Html where
  /-- The content of an element. -/
  Content : Type
  /-- Setting `innerHTML`. -/
  parse : Text → Content
  /-- Reading `innerHTML`. -/
  markup : Content → Text
  /-- The `innerHTML` of each button in the content. -/
  buttons : Content → List Text

/-- What the standard says of buttons with plain texts. -/
structure Html.Rules (E : Html) (R : References) : Prop where
  markup_parse : ∀ ts : List Text, (∀ t ∈ ts, PlainText t) →
    E.markup (E.parse (ts.flatMap buttonMarkup)) =
      ts.flatMap fun t => buttonMarkup (escape (R.text t))
  buttons_parse : ∀ ts : List Text, (∀ t ∈ ts, PlainText t) →
    E.buttons (E.parse (ts.flatMap buttonMarkup)) = ts.map fun t => escape (R.text t)

end Browser
