import FbTesting.Base.Text

/-!
# Regular expressions with backtracking

A pattern is tried at the beginning of a text, and there may be several ways for it to
match.  `rests` lists what is left of the text after each of them, in the order in
which a backtracking matcher tries them: of an alternative the left side first, and a
greedy iteration goes on as long as it can before it stops.  An iteration that consumes
nothing is not counted.  The match that is found is the first (`first`), and `findall`
searches a text for matches from left to right, each beginning where the one before it
ends.

Two kinds of facts are proved here.  `matches_of_mem_findall` is soundness: what is found
is in the language of the pattern.  The others compute the first match: `first_seq` when
both parts have one, `first_star_char` for an iterated character, and
`first_star_upTo` for an iteration that has to end in a character of a certain kind.
-/

namespace Base

/-- A regular expression. -/
inductive Regex where
  /-- The empty text. -/
  | done
  /-- One character of a class. -/
  | char (p : Char → Bool)
  | seq (r s : Regex)
  | alt (r s : Regex)
  /-- Any number of iterations, as many as possible. -/
  | star (r : Regex)

namespace Regex

/-- `r?`. -/
def opt (r : Regex) : Regex := .alt r .done

/-- `r+`. -/
def plus (r : Regex) : Regex := .seq r (.star r)

/-- The characters of a text one after the other. -/
def lit : Text → Regex
  | [] => .done
  | c :: t => .seq (.char (· == c)) (lit t)

/-! ## Matching -/

/-- At most `n` iterations of a matcher. -/
def iterate (f : Text → List Text) : Nat → Text → List Text
  | 0, t => [t]
  | n + 1, t => ((f t).filter fun u => u.length < t.length).flatMap (iterate f n) ++ [t]

/-- What is left of a text after a match at its beginning, the preferred match
first. -/
def rests : Regex → Text → List Text
  | .done, t => [t]
  | .char _, [] => []
  | .char p, c :: t => if p c then [t] else []
  | .seq r s, t => (r.rests t).flatMap s.rests
  | .alt r s, t => r.rests t ++ s.rests t
  | .star r, t => iterate r.rests t.length t

/-- What is left after the match that is found. -/
def first (r : Regex) (t : Text) : Option Text := (r.rests t).head?

/-- The texts that a pattern matches. -/
inductive Matches : Regex → Text → Prop where
  | done : Matches .done []
  | char {p : Char → Bool} {c : Char} : p c = true → Matches (.char p) [c]
  | seq {r s : Regex} {v w : Text} : Matches r v → Matches s w → Matches (.seq r s) (v ++ w)
  | left {r s : Regex} {w : Text} : Matches r w → Matches (.alt r s) w
  | right {r s : Regex} {w : Text} : Matches s w → Matches (.alt r s) w
  | stop {r : Regex} : Matches (.star r) []
  | step {r : Regex} {v w : Text} : Matches r v → Matches (.star r) w → Matches (.star r) (v ++ w)

/-- The matches in a text from the place on that is `n` characters ahead. -/
def findallFrom (r : Regex) : Nat → Text → List Text
  | _, [] => if r.first [] = none then [] else [[]]
  | n + 1, _ :: t => findallFrom r n t
  | 0, c :: t =>
      match r.first (c :: t) with
      | none => findallFrom r 0 t
      | some u =>
          (c :: t).take ((c :: t).length - u.length) ::
            findallFrom r ((c :: t).length - u.length - 1) t

/-- The matches in a text, from left to right. -/
def findall (r : Regex) (t : Text) : List Text := r.findallFrom 0 t

/-! ## Soundness -/

theorem matches_of_mem_iterate {r : Regex}
    (hr : ∀ t u, u ∈ r.rests t → ∃ w, r.Matches w ∧ t = w ++ u) :
    ∀ n t u, u ∈ iterate r.rests n t → ∃ w, (star r).Matches w ∧ t = w ++ u := by
  intro n
  induction n with
  | zero =>
      intro t u hu
      rw [List.mem_singleton.mp hu]
      exact ⟨[], .stop, rfl⟩
  | succ n ih =>
      intro t u hu
      cases List.mem_append.mp hu with
      | inl hmore =>
          obtain ⟨t', ht', hu'⟩ := List.mem_flatMap.mp hmore
          obtain ⟨v, hv, rfl⟩ := hr t t' (List.mem_filter.mp ht').1
          obtain ⟨w, hw, rfl⟩ := ih t' u hu'
          exact ⟨v ++ w, .step hv hw, (List.append_assoc v w u).symm⟩
      | inr hstop =>
          rw [List.mem_singleton.mp hstop]
          exact ⟨[], .stop, rfl⟩

/-- What is left of a text is left by a match. -/
theorem matches_of_mem_rests : ∀ (r : Regex) (t u : Text), u ∈ r.rests t →
    ∃ w, r.Matches w ∧ t = w ++ u
  | .done, t, u, h => by
      rw [List.mem_singleton.mp h]
      exact ⟨[], .done, rfl⟩
  | .char p, t, u, h => by
      cases t with
      | nil => cases h
      | cons c t =>
          rw [rests] at h
          split at h
          · rename_i hc
            rw [List.mem_singleton.mp h]
            exact ⟨[c], .char hc, rfl⟩
          · cases h
  | .seq r s, t, u, h => by
      obtain ⟨t', ht', hu⟩ := List.mem_flatMap.mp h
      obtain ⟨v, hv, rfl⟩ := matches_of_mem_rests r t t' ht'
      obtain ⟨w, hw, rfl⟩ := matches_of_mem_rests s t' u hu
      exact ⟨v ++ w, .seq hv hw, (List.append_assoc v w u).symm⟩
  | .alt r s, t, u, h => by
      cases List.mem_append.mp h with
      | inl hl =>
          obtain ⟨w, hw, ht⟩ := matches_of_mem_rests r t u hl
          exact ⟨w, .left hw, ht⟩
      | inr hr =>
          obtain ⟨w, hw, ht⟩ := matches_of_mem_rests s t u hr
          exact ⟨w, .right hw, ht⟩
  | .star r, t, u, h => matches_of_mem_iterate (matches_of_mem_rests r) t.length t u h

theorem matches_of_first {r : Regex} {t u : Text} (h : r.first t = some u) :
    ∃ w, r.Matches w ∧ t = w ++ u := matches_of_mem_rests r t u (List.mem_of_head? h)

theorem take_sub_length (w u : Text) : (w ++ u).take ((w ++ u).length - u.length) = w := by
  rw [List.length_append, Nat.add_sub_cancel, List.take_left]

theorem matches_of_mem_findallFrom {r : Regex} {w : Text} : ∀ (n : Nat) (t : Text),
    w ∈ r.findallFrom n t → r.Matches w
  | n, [], h => by
      rw [findallFrom] at h
      split at h
      · cases h
      · rename_i hne
        obtain ⟨u, hu⟩ := Option.ne_none_iff_exists'.mp hne
        obtain ⟨v, hv, hnil⟩ := matches_of_first hu
        rw [List.mem_singleton.mp h]
        rwa [(List.append_eq_nil_iff.mp hnil.symm).1] at hv
  | n + 1, _ :: t, h => matches_of_mem_findallFrom n t h
  | 0, c :: t, h => by
      rw [findallFrom] at h
      cases hf : r.first (c :: t) with
      | none =>
          rw [hf] at h
          exact matches_of_mem_findallFrom 0 t h
      | some u =>
          rw [hf] at h
          cases List.mem_cons.mp h with
          | inr hlater => exact matches_of_mem_findallFrom _ t hlater
          | inl heq =>
              obtain ⟨v, hv, ht⟩ := matches_of_first hf
              rw [heq, ht, take_sub_length]
              exact hv

/-- What is found is matched. -/
theorem matches_of_mem_findall {r : Regex} {w t : Text} (h : w ∈ r.findall t) : r.Matches w :=
  matches_of_mem_findallFrom 0 t h

/-! ## Languages -/

theorem matches_char {p : Char → Bool} {w : Text} :
    (char p).Matches w ↔ ∃ c, p c = true ∧ w = [c] := by
  constructor
  · intro h
    cases h with
    | char hc => exact ⟨_, hc, rfl⟩
  · rintro ⟨c, hc, rfl⟩
    exact .char hc

theorem matches_seq {r s : Regex} {w : Text} :
    (seq r s).Matches w ↔ ∃ u v, r.Matches u ∧ s.Matches v ∧ w = u ++ v := by
  constructor
  · intro h
    cases h with
    | seq hu hv => exact ⟨_, _, hu, hv, rfl⟩
  · rintro ⟨u, v, hu, hv, rfl⟩
    exact .seq hu hv

theorem matches_alt {r s : Regex} {w : Text} :
    (alt r s).Matches w ↔ r.Matches w ∨ s.Matches w := by
  constructor
  · intro h
    cases h with
    | left hr => exact Or.inl hr
    | right hs => exact Or.inr hs
  · intro h
    cases h with
    | inl hr => exact .left hr
    | inr hs => exact .right hs

theorem matches_done {w : Text} : done.Matches w ↔ w = [] := by
  constructor
  · intro h
    cases h
    rfl
  · rintro rfl
    exact .done

theorem matches_opt {r : Regex} {w : Text} : (opt r).Matches w ↔ r.Matches w ∨ w = [] := by
  rw [opt, matches_alt, matches_done]

theorem matches_lit {t w : Text} : (lit t).Matches w ↔ w = t := by
  induction t generalizing w with
  | nil => exact matches_done
  | cons c t ih =>
      rw [lit, matches_seq]
      constructor
      · rintro ⟨u, v, hu, hv, rfl⟩
        obtain ⟨d, hd, rfl⟩ := matches_char.mp hu
        rw [ih.mp hv, beq_iff_eq.mp hd]
        rfl
      · rintro rfl
        exact ⟨[c], t, .char (beq_self_eq_true c), ih.mpr rfl, rfl⟩

/-- A property of all texts of an iterated pattern. -/
theorem matches_star_induct {r : Regex} {P : Text → Prop} (hnil : P [])
    (hstep : ∀ v w, r.Matches v → P w → P (v ++ w)) {w : Text} (h : (star r).Matches w) : P w := by
  generalize hs : star r = s at h
  induction h with
  | stop => exact hnil
  | step hv _ _ ih =>
      cases hs
      exact hstep _ _ hv (ih rfl)
  | _ => cases hs

theorem matches_star_char {p : Char → Bool} {w : Text} (h : (star (char p)).Matches w) :
    ∀ c ∈ w, p c = true := by
  refine matches_star_induct (P := fun w => ∀ c ∈ w, p c = true) ?_ ?_ h
  · exact fun c hc => absurd hc List.not_mem_nil
  · intro v w hv hw
    obtain ⟨c, hc, rfl⟩ := matches_char.mp hv
    exact List.forall_mem_cons.mpr ⟨hc, hw⟩

/-! ## Computing the first match -/

theorem rests_eq_nil {r : Regex} {t : Text} (h : r.first t = none) : r.rests t = [] :=
  List.head?_eq_none_iff.mp h

theorem exists_rests_eq_cons {r : Regex} {t u : Text} (h : r.first t = some u) :
    ∃ us, r.rests t = u :: us := List.head?_eq_some_iff.mp h

theorem first_char_cons (p : Char → Bool) (c : Char) (t : Text) :
    (char p).first (c :: t) = if p c then some t else none := by
  rw [first, rests]
  split <;> rfl

theorem first_seq {r s : Regex} {t u v : Text} (hr : r.first t = some u) (hs : s.first u = some v) :
    (seq r s).first t = some v := by
  obtain ⟨us, hus⟩ := exists_rests_eq_cons hr
  obtain ⟨vs, hvs⟩ := exists_rests_eq_cons hs
  rw [first, rests, hus, List.flatMap_cons, hvs]
  rfl

theorem first_seq_none {r s : Regex} {t : Text} (hr : r.first t = none) :
    (seq r s).first t = none := by
  rw [first, rests, rests_eq_nil hr]
  rfl

theorem first_alt_left {r s : Regex} {t u : Text} (hr : r.first t = some u) :
    (alt r s).first t = some u := by
  obtain ⟨us, hus⟩ := exists_rests_eq_cons hr
  rw [first, rests, hus]
  rfl

theorem first_alt_right {r s : Regex} {t : Text} (hr : r.first t = none) :
    (alt r s).first t = s.first t := by
  rw [first, rests, rests_eq_nil hr]
  rfl

theorem first_alt_char (p : Char → Bool) (r : Regex) (c : Char) (t : Text) :
    (alt (char p) r).first (c :: t) = if p c then some t else r.first (c :: t) := by
  have hchar := first_char_cons p c t
  split
  · rename_i hc
    rw [if_pos hc] at hchar
    exact first_alt_left hchar
  · rename_i hc
    rw [if_neg hc] at hchar
    exact first_alt_right hchar

/-- An optional character that is there is taken, if what follows it cannot begin with
it. -/
theorem first_seq_opt_char {p : Char → Bool} {r : Regex} {c : Char} {t : Text} (hc : p c = true)
    (hr : r.first (c :: t) = none) : (seq (opt (char p)) r).first (c :: t) = r.first t := by
  have hchar : (char p).rests (c :: t) = [t] := by rw [rests, if_pos hc]
  have hopt : (opt (char p)).rests (c :: t) = [t, c :: t] := by
    rw [opt, rests, hchar]
    rfl
  rw [first, rests, hopt, List.flatMap_cons, List.flatMap_cons, rests_eq_nil hr, List.flatMap_nil,
    List.append_nil, List.append_nil]
  rfl

/-- An optional character that is not there is left out. -/
theorem first_seq_opt_char_none {p : Char → Bool} {r : Regex} {t : Text}
    (hp : (char p).first t = none) : (seq (opt (char p)) r).first t = r.first t := by
  rw [first, rests, opt, rests, rests_eq_nil hp]
  change ([t].flatMap r.rests).head? = _
  rw [List.flatMap_cons, List.flatMap_nil, List.append_nil]
  rfl

/-- A literal is found where the text begins with it. -/
theorem first_lit_append (w t : Text) : (lit w).first (w ++ t) = some t := by
  induction w with
  | nil => rfl
  | cons c w ih =>
      refine first_seq ?_ ih
      rw [List.cons_append, first_char_cons, beq_self_eq_true]
      rfl

/-- A literal is not found where another character stands. -/
theorem first_lit_ne {c d : Char} (h : d ≠ c) (w t : Text) :
    (lit (c :: w)).first (d :: t) = none := by
  refine first_seq_none ?_
  rw [first_char_cons, if_neg (mt beq_iff_eq.mp h)]

/-- More iterations than there are characters make no difference. -/
theorem iterate_of_le (f : Text → List Text) : ∀ {n : Nat} {t : Text}, t.length ≤ n →
    iterate f (n + 1) t = iterate f n t := by
  intro n
  induction n with
  | zero =>
      intro t ht
      have hnil : ((f t).filter fun u => u.length < t.length) = [] := by
        refine List.filter_eq_nil_iff.mpr fun u _ hu => ?_
        have hlt := of_decide_eq_true hu
        omega
      change ((f t).filter fun u => u.length < t.length).flatMap (iterate f 0) ++ [t] = [t]
      rw [hnil]
      rfl
  | succ n ih =>
      intro t ht
      rw [iterate, iterate]
      congr 1
      refine List.flatMap_congr fun u hu => ih ?_
      have hlt := of_decide_eq_true (List.mem_filter.mp hu).2
      omega

theorem iterate_eq (f : Text → List Text) {t : Text} : ∀ {n : Nat}, t.length ≤ n →
    iterate f n t = iterate f t.length t := by
  intro n h
  induction n, h using Nat.le_induction with
  | base => rfl
  | succ n hn ih => rw [iterate_of_le f hn, ih]

/-- An iteration goes on with what is shorter, or stops. -/
theorem rests_star (r : Regex) (t : Text) :
    (star r).rests t =
      ((r.rests t).filter fun u => u.length < t.length).flatMap (star r).rests ++ [t] := by
  rw [rests, ← iterate_eq r.rests (Nat.le_succ t.length), iterate]
  congr 1
  refine List.flatMap_congr fun u hu => ?_
  have hlt := of_decide_eq_true (List.mem_filter.mp hu).2
  exact iterate_eq r.rests (Nat.le_of_lt hlt)

theorem first_star_stop {r : Regex} {t : Text} (hr : r.first t = none) :
    (star r).first t = some t := by
  rw [first, rests_star, rests_eq_nil hr]
  rfl

theorem first_star_step {r : Regex} {t u v : Text} (hr : r.first t = some u)
    (hlt : u.length < t.length) (hs : (star r).first u = some v) : (star r).first t = some v := by
  obtain ⟨us, hus⟩ := exists_rests_eq_cons hr
  obtain ⟨vs, hvs⟩ := exists_rests_eq_cons hs
  have hkept : decide (u.length < t.length) = true := decide_eq_true hlt
  rw [first, rests_star, hus, List.filter_cons, if_pos hkept, List.flatMap_cons, hvs]
  rfl

/-- A pattern that is first matched by one character of a class takes all that follow
when it is iterated. -/
theorem first_star_of_char {r : Regex} {p : Char → Bool}
    (h : ∀ t, r.first t = (char p).first t) (t : Text) :
    (star r).first t = some (t.dropWhile p) := by
  induction t with
  | nil => exact first_star_stop (h [])
  | cons c t ih =>
      have hc := h (c :: t)
      rw [first_char_cons] at hc
      by_cases hp : p c = true
      · rw [if_pos hp] at hc
        rw [List.dropWhile_cons_of_pos hp]
        exact first_star_step hc (Nat.lt_succ_self _) ih
      · rw [if_neg hp] at hc
        rw [List.dropWhile_cons_of_neg hp]
        exact first_star_stop hc

theorem first_star_char (p : Char → Bool) (t : Text) :
    (star (char p)).first t = some (t.dropWhile p) := first_star_of_char (fun _ => rfl) t

/-! ## An iteration that ends in a certain character -/

section

variable (p q : Char → Bool)

/-- Characters of a class, the last of them of a smaller class. -/
def upTo : Regex := .seq (.star (.char p)) (.char q)

/-- What is left after the last character of the smaller class in the characters of the
larger one at the beginning of a text. -/
def lastRest : Text → Option Text
  | [] => none
  | c :: t =>
      if p c then
        match lastRest t with
        | some u => some u
        | none => if q c then some t else none
      else none

variable {p q}

theorem rests_star_char_cons (c : Char) (t : Text) :
    (star (char p)).rests (c :: t) =
      if p c then (star (char p)).rests t ++ [c :: t] else [c :: t] := by
  rw [rests_star, rests]
  split
  · have hkept : decide (t.length < (c :: t).length) = true := decide_eq_true (Nat.lt_succ_self _)
    rw [List.filter_cons, if_pos hkept, List.filter_nil, List.flatMap_cons, List.flatMap_nil,
      List.append_nil]
  · rfl

/-- Backtracking finds the last character of the smaller class. -/
theorem first_upTo (hpq : ∀ c, q c = true → p c = true) (t : Text) :
    (upTo p q).first t = lastRest p q t := by
  induction t with
  | nil => rfl
  | cons c t ih =>
      rw [first, upTo, rests, rests_star_char_cons, lastRest]
      by_cases hp : p c = true
      · rw [if_pos hp, if_pos hp, List.flatMap_append, List.head?_append, ← ih, List.flatMap_cons,
          List.flatMap_nil, List.append_nil]
        have hlast : ((char q).rests (c :: t)).head? = if q c then some t else none :=
          first_char_cons q c t
        rw [hlast]
        have hfirst : (((star (char p)).rests t).flatMap (char q).rests).head? =
            (upTo p q).first t := rfl
        rw [hfirst]
        cases (upTo p q).first t with
        | none => rfl
        | some u => rfl
      · have hq : ¬q c = true := fun hc => hp (hpq c hc)
        rw [if_neg hp, if_neg hp, List.flatMap_cons, List.flatMap_nil, List.append_nil]
        exact (first_char_cons q c t).trans (if_neg hq)

theorem length_lastRest {t u : Text} (h : lastRest p q t = some u) : u.length < t.length := by
  induction t with
  | nil => cases h
  | cons c t ih =>
      rw [lastRest] at h
      split at h
      · split at h
        · rename_i u' hu'
          cases h
          exact Nat.lt_succ_of_lt (ih hu')
        · obtain ⟨_, hu⟩ := Option.ite_none_right_eq_some.mp h
          cases hu
          exact Nat.lt_succ_self _
      · cases h

/-- After the last one there is none. -/
theorem lastRest_lastRest {t u : Text} (h : lastRest p q t = some u) : lastRest p q u = none := by
  induction t with
  | nil => cases h
  | cons c t ih =>
      rw [lastRest] at h
      split at h
      · split at h
        · rename_i u' hu'
          cases h
          exact ih hu'
        · rename_i hnone
          obtain ⟨_, hu⟩ := Option.ite_none_right_eq_some.mp h
          cases hu
          exact hnone
      · cases h

/-- The iteration takes all up to the last character of the smaller class at once. -/
theorem first_star_upTo (hpq : ∀ c, q c = true → p c = true) (t : Text) :
    (star (upTo p q)).first t = some ((lastRest p q t).getD t) := by
  cases h : lastRest p q t with
  | none => exact first_star_stop ((first_upTo hpq t).trans h)
  | some u =>
      have hstop := first_star_stop ((first_upTo hpq u).trans (lastRest_lastRest h))
      exact first_star_step ((first_upTo hpq t).trans h) (length_lastRest h) hstop

/-- Of a run of characters of the larger class the iteration leaves an end without
characters of the smaller one. -/
theorem lastRest_append {w rest : Text} (hw : ∀ c ∈ w, p c = true)
    (hrest : ∀ c ∈ rest.head?, p c = false) :
    ∃ v d, w = v ++ d ∧ (∀ c ∈ d, q c = false) ∧
      (lastRest p q (w ++ rest)).getD (w ++ rest) = d ++ rest := by
  induction w with
  | nil =>
      refine ⟨[], [], rfl, fun c hc => absurd hc List.not_mem_nil, ?_⟩
      cases rest with
      | nil => rfl
      | cons c rest =>
          rw [List.nil_append, lastRest, if_neg (Bool.eq_false_iff.mp (hrest c rfl))]
          rfl
  | cons c w ih =>
      obtain ⟨hc, hw'⟩ := List.forall_mem_cons.mp hw
      obtain ⟨v, d, hvd, hd, hget⟩ := ih hw'
      rw [List.cons_append, lastRest, if_pos hc]
      cases hlast : lastRest p q (w ++ rest) with
      | some u =>
          rw [hlast] at hget
          exact ⟨c :: v, d, by rw [hvd]; rfl, hd, hget⟩
      | none =>
          rw [hlast, Option.getD_none] at hget
          have hwd : w = d := List.append_cancel_right hget
          cases hq : q c with
          | true => exact ⟨[c], w, rfl, hwd ▸ hd, rfl⟩
          | false => exact ⟨[], c :: w, rfl, List.forall_mem_cons.mpr ⟨hq, hwd ▸ hd⟩, rfl⟩

end

/-! ## Searching -/

theorem findallFrom_eq (r : Regex) : ∀ (n : Nat) {t : Text}, n ≤ t.length →
    r.findallFrom n t = r.findall (t.drop n)
  | 0, _, _ => rfl
  | n + 1, [], h => absurd h (Nat.not_succ_le_zero n)
  | n + 1, _ :: _, h => findallFrom_eq r n (Nat.le_of_succ_le_succ h)

theorem findall_nil {r : Regex} (h : r.first [] = none) : r.findall [] = [] := by
  rw [findall, findallFrom, if_pos h]

/-- Where no match begins the search goes on with the next character. -/
theorem findall_cons_none {r : Regex} {c : Char} {t : Text} (h : r.first (c :: t) = none) :
    r.findall (c :: t) = r.findall t := by
  rw [findall, findallFrom, h]
  rfl

/-- Characters with which no match begins are passed over. -/
theorem findall_skip {r : Regex} {skipped : Text}
    (h : ∀ c ∈ skipped, ∀ t, r.first (c :: t) = none) (t : Text) :
    r.findall (skipped ++ t) = r.findall t := by
  induction skipped with
  | nil => rfl
  | cons c skipped ih =>
      obtain ⟨hc, hskipped⟩ := List.forall_mem_cons.mp h
      rw [List.cons_append, findall_cons_none (hc _), ih hskipped]

/-- Where a match begins the search goes on after it. -/
theorem findall_append {r : Regex} {w u : Text} (hw : w ≠ []) (h : r.first (w ++ u) = some u) :
    r.findall (w ++ u) = w :: r.findall u := by
  cases w with
  | nil => exact absurd rfl hw
  | cons c w =>
      have htake := take_sub_length (c :: w) u
      have hlen : (c :: w ++ u).length - u.length - 1 = w.length := by
        rw [List.cons_append, List.length_cons, List.length_append]
        omega
      rw [List.cons_append] at h htake hlen
      rw [findall, List.cons_append, findallFrom, h]
      simp only
      have hle : w.length ≤ (w ++ u).length := by
        rw [List.length_append]
        omega
      rw [htake, hlen, findallFrom_eq r w.length hle, List.drop_left]

end Regex

end Base
