import FbTesting.Base.Run

/-!
# Simulations that stutter

A simulation relates the states of two systems.  Every step of the first system
is matched by a step of the second on the input that `input` makes of it, or,
where `input` makes nothing of it, by no step at all.  What is observed of the
two systems may differ; `seen` and `seen'` are what of it counts, and that is the
same on both sides.

A run of the first system is then matched by the run of the second on the inputs
that were made (`inputsOf`, `exec_matched`).

A part of a list is often simulated by the list of that part.  `placeIn` is the
place that an element has among those that satisfy a predicate, and the filter of
a list commutes with updates at such places.
-/

namespace Base

variable {σ τ ι κ ω ν β : Type}

/-- A simulation of the runs of `M` that meet `ok` by runs of `N` that meet `ok'`. -/
structure Simulation (M : System σ ι ω) (ok : σ → ι → Prop) (N : System τ κ ν) (ok' : τ → κ → Prop)
    (β : Type) where
  rel : σ → τ → Prop
  /-- The input that the second system is given, if it is given one. -/
  input : σ → ι → Option κ
  seen : ω → Option β
  seen' : ν → Option β
  init : rel M.init N.init
  /-- A step without an input is not seen, and the second system waits. -/
  stutter {s : σ} {t : τ} {i : ι} {r : σ × List ω} : rel s t → ok s i → M.step s i = some r →
    input s i = none → rel r.1 t ∧ r.2.filterMap seen = []
  move {s : σ} {t : τ} {i : ι} {k : κ} {r : σ × List ω} : rel s t → ok s i →
    M.step s i = some r → input s i = some k → ok' t k ∧
      ∃ q, N.step t k = some q ∧ rel r.1 q.1 ∧ q.2.filterMap seen' = r.2.filterMap seen

namespace Simulation

variable {M : System σ ι ω} {ok : σ → ι → Prop} {N : System τ κ ν} {ok' : τ → κ → Prop}
  (S : Simulation M ok N ok' β)

/-- The inputs that the second system is given along a run of the first. -/
def inputsOf : σ → List ι → List κ
  | _, [] => []
  | s, i :: is =>
      (S.input s i).toList ++
        match M.step s i with
        | some r => inputsOf r.1 is
        | none => []

theorem inputsOf_cons {s : σ} {i : ι} {r : σ × List ω} (h : M.step s i = some r) (is : List ι) :
    S.inputsOf s (i :: is) = (S.input s i).toList ++ S.inputsOf r.1 is := by
  simp only [inputsOf, h]

/-- Every input that the second system is given is made of one of the first. -/
theorem mem_inputsOf {k : κ} {is : List ι} : ∀ {s : σ}, k ∈ S.inputsOf s is →
    ∃ s', ∃ i ∈ is, S.input s' i = some k := by
  induction is with
  | nil => exact fun h => absurd h List.not_mem_nil
  | cons i is ih =>
      intro s h
      cases List.mem_append.mp h with
      | inl hfirst => exact ⟨s, i, List.mem_cons_self, Option.mem_toList.mp hfirst⟩
      | inr hlater =>
          cases hstep : M.step s i with
          | none =>
              rw [hstep] at hlater
              exact absurd hlater List.not_mem_nil
          | some r =>
              rw [hstep] at hlater
              obtain ⟨s', i', hi', hk⟩ := ih hlater
              exact ⟨s', i', List.mem_cons_of_mem i hi', hk⟩

/-- Every state reached is simulated by one. -/
theorem reach_matched {s : σ} (h : M.Reach ok s) : ∃ t, N.Reach ok' t ∧ S.rel s t := by
  induction h with
  | init => exact ⟨N.init, .init, S.init⟩
  | @step s s' i os _ hok hstep ih =>
      obtain ⟨t, ht, hrel⟩ := ih
      cases hin : S.input s i with
      | none => exact ⟨t, ht, (S.stutter hrel hok hstep hin).1⟩
      | some k =>
          obtain ⟨hok', q, hq, hrel', _⟩ := S.move hrel hok hstep hin
          exact ⟨q.1, .step ht hok' hq, hrel'⟩

variable {S} [∀ s i, Decidable (ok s i)]

/-- A run on inputs that are made of those of the second system is matched by its run on
these. -/
theorem inputsOf_map {back : κ → ι} (hback : ∀ s k, S.input s (back k) = some k) :
    ∀ {ks : List κ} {s : σ} {r : σ × List ω}, M.exec ok s (ks.map back) = some r →
      S.inputsOf s (ks.map back) = ks
  | [], _, _, _ => rfl
  | k :: ks, s, r, h => by
      obtain ⟨_, r', hstep, r'', hexec, _⟩ := System.exec_cons_eq_some.mp h
      rw [List.map_cons, S.inputsOf_cons hstep, hback, inputsOf_map hback hexec]
      rfl

variable [∀ t k, Decidable (ok' t k)]

/-- Every run of the first system is matched by a run of the second. -/
theorem exec_matched {is : List ι} : ∀ {s : σ} {t : τ} {r : σ × List ω}, S.rel s t →
    M.exec ok s is = some r →
    ∃ q, N.exec ok' t (S.inputsOf s is) = some q ∧ S.rel r.1 q.1 ∧
      q.2.filterMap S.seen' = r.2.filterMap S.seen := by
  induction is with
  | nil =>
      intro s t r hrel h
      cases h
      exact ⟨(t, []), rfl, hrel, rfl⟩
  | cons i is ih =>
      intro s t r hrel h
      obtain ⟨hok, r', hstep, r'', hexec, rfl⟩ := System.exec_cons_eq_some.mp h
      rw [S.inputsOf_cons hstep]
      cases hin : S.input s i with
      | none =>
          obtain ⟨hrel', hseen⟩ := S.stutter hrel hok hstep hin
          obtain ⟨q, hq, hqrel, hqseen⟩ := ih hrel' hexec
          refine ⟨q, hq, hqrel, ?_⟩
          rw [List.filterMap_append, hseen, List.nil_append, hqseen]
      | some k =>
          obtain ⟨hok', q', hq', hrel', hseen⟩ := S.move hrel hok hstep hin
          obtain ⟨q, hq, hqrel, hqseen⟩ := ih hrel' hexec
          refine ⟨(q.1, q'.2 ++ q.2), ?_, hqrel, ?_⟩
          · exact System.exec_cons_eq_some.mpr ⟨hok', q', hq', q, hq, rfl⟩
          · rw [List.filterMap_append, List.filterMap_append, hseen, hqseen]

/-- Runs of the second system whose steps the first can take, on the inputs that `back`
makes of theirs, are runs of the first. -/
theorem exec_lifted {ω : Type} {M : System σ ι ω} {N : System τ κ ω} {rel : σ → τ → Prop}
    (back : κ → ι) {P : κ → Prop}
    (hback : ∀ {s : σ} {t : τ} {k : κ} {q : τ × List ω}, rel s t → P k → ok' t k →
      N.step t k = some q → ok s (back k) ∧ ∃ s', M.step s (back k) = some (s', q.2) ∧ rel s' q.1) :
    ∀ {ks : List κ} {s : σ} {t : τ} {q : τ × List ω}, rel s t → (∀ k ∈ ks, P k) →
      N.exec ok' t ks = some q →
      ∃ s', M.exec ok s (ks.map back) = some (s', q.2) ∧ rel s' q.1
  | [], s, t, q, hrel, _, h => by
      cases h
      exact ⟨s, rfl, hrel⟩
  | k :: ks, s, t, q, hrel, hP, h => by
      obtain ⟨hok', q', hstep, q'', hexec, rfl⟩ := System.exec_cons_eq_some.mp h
      obtain ⟨hok, s', hstep', hrel'⟩ := hback hrel (hP k List.mem_cons_self) hok' hstep
      obtain ⟨s'', hexec', hrel''⟩ := exec_lifted back hback hrel'
        (fun k' hk' => hP k' (List.mem_cons_of_mem k hk')) hexec
      exact ⟨s'', System.exec_cons_eq_some.mpr ⟨hok, _, hstep', _, hexec', rfl⟩, hrel''⟩

end Simulation

/-! ## Places in a part of a list -/

section

variable {α : Type} {P : α → Bool}

/-- The place of the element among those that satisfy `P`, if it does. -/
def placeIn (P : α → Bool) : List α → Nat → Option Nat
  | [], _ => none
  | a :: _, 0 => if P a then some 0 else none
  | a :: l, i + 1 => (placeIn P l i).map fun n => if P a then n + 1 else n

/-- What does not satisfy `P` has no place. -/
theorem placeIn_eq_none_iff {l : List α} : ∀ {i : Nat} {a : α}, l[i]? = some a →
    (placeIn P l i = none ↔ P a = false) := by
  induction l with
  | nil => intro i a h; simp at h
  | cons x l ih =>
      intro i a h
      cases i with
      | zero => simp_all [placeIn]
      | succ i => simp_all [placeIn]

/-- The element is at its place. -/
theorem placeIn_eq_some {l : List α} : ∀ {i n : Nat} {a : α}, l[i]? = some a →
    placeIn P l i = some n → P a = true ∧ (l.filter P)[n]? = some a := by
  induction l with
  | nil => intro i n a h _; simp at h
  | cons x l ih =>
      intro i n a h hn
      cases i with
      | zero =>
          obtain ⟨hx, rfl⟩ : P x = true ∧ 0 = n := by simpa [placeIn] using hn
          simp_all
      | succ i =>
          obtain ⟨m, hm, rfl⟩ := Option.map_eq_some_iff.mp hn
          obtain ⟨ha, hget⟩ := ih (by simpa using h) hm
          cases hx : P x with
          | true => exact ⟨ha, by simpa [hx] using hget⟩
          | false => exact ⟨ha, by simpa [hx] using hget⟩

/-- An element that satisfies `P` is replaced by one that does. -/
theorem filter_set_of_pos {l : List α} : ∀ {i n : Nat} {b : α}, placeIn P l i = some n →
    P b = true → (l.set i b).filter P = (l.filter P).set n b := by
  induction l with
  | nil => intro i n b h _; simp [placeIn] at h
  | cons x l ih =>
      intro i n b h hb
      cases i with
      | zero =>
          obtain ⟨hx, rfl⟩ : P x = true ∧ 0 = n := by simpa [placeIn] using h
          simp [hx, hb]
      | succ i =>
          obtain ⟨m, hm, rfl⟩ := Option.map_eq_some_iff.mp h
          cases hx : P x with
          | true => simp [hx, ih hm hb]
          | false => simp [hx, ih hm hb]

/-- An element that does not is replaced by one that does not. -/
theorem filter_set_of_neg {l : List α} : ∀ {i : Nat} {a b : α}, l[i]? = some a → P a = false →
    P b = false → (l.set i b).filter P = l.filter P := by
  induction l with
  | nil => intro i a b h _ _; simp at h
  | cons x l ih =>
      intro i a b h ha hb
      cases i with
      | zero => simp_all
      | succ i =>
          have hl := ih (by simpa using h) ha hb
          cases hx : P x with
          | true => simp [hx, hl]
          | false => simp [hx, hl]

/-- An element that satisfies `P` is erased. -/
theorem filter_eraseIdx_of_pos {l : List α} : ∀ {i n : Nat}, placeIn P l i = some n →
    (l.eraseIdx i).filter P = (l.filter P).eraseIdx n := by
  induction l with
  | nil => intro i n h; simp [placeIn] at h
  | cons x l ih =>
      intro i n h
      cases i with
      | zero =>
          obtain ⟨hx, rfl⟩ : P x = true ∧ 0 = n := by simpa [placeIn] using h
          simp [hx]
      | succ i =>
          obtain ⟨m, hm, rfl⟩ := Option.map_eq_some_iff.mp h
          cases hx : P x with
          | true => simp [hx, ih hm]
          | false => simp [hx, ih hm]

end

end Base
