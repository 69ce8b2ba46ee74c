import Mathlib.Data.List.Induction
import Mathlib.Data.List.Nodup
import Mathlib.Algebra.BigOperators.Group.List.Basic
import Mathlib.Algebra.GroupWithZero.Nat
import Mathlib.Algebra.Order.Group.Multiset

/-!
# Dictionaries

A dictionary is a list of entries with pairwise distinct keys.  Storing under a
key that is there replaces the value in place; a new key goes to the end.

A dictionary of lists is a grouping.  `Dict.pooled` is the multiset of all the
elements of its lists.  Filling a dictionary from a list of pairs by plain
assignment keeps, for each key, only the value stored last: what the earlier
ones held is lost (`pooled_assignAll`).  Nothing is lost exactly when every pair
that a later one overwrites holds the empty list (`pooled_assignAll_iff`).
-/

namespace Base

/-- A dictionary: entries with distinct keys, in the order of first insertion. -/
structure Dict (κ ν : Type) where
  /-- The entries. -/
  entries : List (κ × ν)
  /-- No key occurs twice. -/
  nodup : (entries.map Prod.fst).Nodup

namespace Dict

variable {κ ν : Type} [DecidableEq κ]

/-- The dictionary without entries. -/
def empty : Dict κ ν := ⟨[], List.nodup_nil⟩

/-- The keys, in the order of the entries. -/
def keys (d : Dict κ ν) : List κ := d.entries.map Prod.fst

/-- Replace the value of a key in a list of entries, or append the entry. -/
def setEntry (k : κ) (v : ν) : List (κ × ν) → List (κ × ν)
  | [] => [(k, v)]
  | e :: es => if e.1 = k then (k, v) :: es else e :: setEntry k v es

/-- The value of a key in a list of entries. -/
def getEntry (k : κ) : List (κ × ν) → Option ν
  | [] => none
  | e :: es => if e.1 = k then some e.2 else getEntry k es

theorem mem_keys_setEntry {k : κ} {v : ν} {x : κ} : ∀ {es : List (κ × ν)},
    x ∈ (setEntry k v es).map Prod.fst → x = k ∨ x ∈ es.map Prod.fst
  | [], h => by simpa [setEntry] using h
  | e :: es, h => by
      by_cases he : e.1 = k
      · rw [setEntry, if_pos he] at h
        simp only [List.map_cons, List.mem_cons] at h ⊢
        exact h.imp_right Or.inr
      · rw [setEntry, if_neg he] at h
        simp only [List.map_cons, List.mem_cons] at h ⊢
        cases h with
        | inl h => exact Or.inr (Or.inl h)
        | inr h => exact (mem_keys_setEntry h).imp_right Or.inr

theorem nodup_setEntry {k : κ} {v : ν} : ∀ {es : List (κ × ν)},
    (es.map Prod.fst).Nodup → ((setEntry k v es).map Prod.fst).Nodup
  | [], _ => by simp [setEntry]
  | e :: es, h => by
      simp only [List.map_cons, List.nodup_cons] at h
      by_cases he : e.1 = k
      · rw [setEntry, if_pos he]
        subst he
        simpa using h
      · rw [setEntry, if_neg he]
        simp only [List.map_cons, List.nodup_cons]
        refine ⟨fun hm => ?_, nodup_setEntry h.2⟩
        cases mem_keys_setEntry hm with
        | inl hk => exact he hk
        | inr hk => exact h.1 hk

/-- `d[k] = v`. -/
def set (d : Dict κ ν) (k : κ) (v : ν) : Dict κ ν :=
  ⟨setEntry k v d.entries, nodup_setEntry d.nodup⟩

/-- `d[k]`, if the key is there. -/
def get? (d : Dict κ ν) (k : κ) : Option ν := getEntry k d.entries

@[simp] theorem get?_empty (k : κ) : (empty : Dict κ ν).get? k = none := rfl

theorem getEntry_setEntry_self (k : κ) (v : ν) : ∀ es : List (κ × ν),
    getEntry k (setEntry k v es) = some v
  | [] => by simp [setEntry, getEntry]
  | e :: es => by
      by_cases he : e.1 = k
      · simp [setEntry, getEntry, he]
      · simp [setEntry, getEntry, he, getEntry_setEntry_self k v es]

theorem getEntry_setEntry_ne {k x : κ} (hx : x ≠ k) (v : ν) : ∀ es : List (κ × ν),
    getEntry x (setEntry k v es) = getEntry x es
  | [] => by simp [setEntry, getEntry, Ne.symm hx]
  | e :: es => by
      by_cases he : e.1 = k
      · simp [setEntry, getEntry, he, Ne.symm hx]
      · simp [setEntry, getEntry, he, getEntry_setEntry_ne hx v es]

theorem get?_set (d : Dict κ ν) (k x : κ) (v : ν) :
    (d.set k v).get? x = if x = k then some v else d.get? x := by
  by_cases hx : x = k
  · subst hx
    rw [if_pos rfl]
    exact getEntry_setEntry_self x v d.entries
  · rw [if_neg hx]
    exact getEntry_setEntry_ne hx v d.entries

theorem getEntry_of_mem {k : κ} {v : ν} : ∀ {es : List (κ × ν)},
    (es.map Prod.fst).Nodup → (k, v) ∈ es → getEntry k es = some v
  | e :: es, hn, h => by
      simp only [List.map_cons, List.nodup_cons] at hn
      cases List.mem_cons.mp h with
      | inl he => subst he; simp [getEntry]
      | inr he =>
          have hne : e.1 ≠ k := by
            rintro rfl
            exact hn.1 (List.mem_map.mpr ⟨(e.1, v), he, rfl⟩)
          rw [getEntry, if_neg hne]
          exact getEntry_of_mem hn.2 he

theorem mem_of_getEntry {k : κ} {v : ν} : ∀ {es : List (κ × ν)},
    getEntry k es = some v → (k, v) ∈ es
  | e :: es, h => by
      by_cases he : e.1 = k
      · rw [getEntry, if_pos he, Option.some.injEq] at h
        subst he; subst h
        exact List.mem_cons_self
      · rw [getEntry, if_neg he] at h
        exact List.mem_cons_of_mem _ (mem_of_getEntry h)

/-- An entry is what the dictionary holds at its key. -/
theorem get?_eq_some_iff {d : Dict κ ν} {k : κ} {v : ν} :
    d.get? k = some v ↔ (k, v) ∈ d.entries :=
  ⟨mem_of_getEntry, getEntry_of_mem d.nodup⟩

theorem mem_keys_iff {d : Dict κ ν} {k : κ} : k ∈ d.keys ↔ ∃ v, d.get? k = some v := by
  constructor
  · intro h
    obtain ⟨e, he, rfl⟩ := List.mem_map.mp h
    exact ⟨e.2, get?_eq_some_iff.mpr he⟩
  · rintro ⟨v, hv⟩
    exact List.mem_map.mpr ⟨(k, v), get?_eq_some_iff.mp hv, rfl⟩

/-! ## Assignments in sequence -/

/-- Store the pairs of a list one after the other. -/
def assignAll (d : Dict κ ν) (ps : List (κ × ν)) : Dict κ ν :=
  ps.foldl (fun d p => d.set p.1 p.2) d

@[simp] theorem assignAll_nil (d : Dict κ ν) : d.assignAll [] = d := rfl

theorem assignAll_concat (d : Dict κ ν) (ps : List (κ × ν)) (p : κ × ν) :
    d.assignAll (ps ++ [p]) = (d.assignAll ps).set p.1 p.2 := by
  simp [assignAll]

/-- What is stored under a key was assigned to it. -/
theorem mem_of_get?_assignAll {k : κ} {v : ν} (ps : List (κ × ν))
    (h : (empty.assignAll ps).get? k = some v) : (k, v) ∈ ps := by
  induction ps using List.reverseRecOn with
  | nil => simp at h
  | append_singleton ps p ih =>
      rw [assignAll_concat, get?_set] at h
      by_cases hk : k = p.1
      · rw [if_pos hk, Option.some.injEq] at h
        subst hk; subst h
        simp
      · rw [if_neg hk] at h
        exact List.mem_append_left _ (ih h)

/-- A key that was assigned to is there. -/
theorem get?_assignAll_isSome {k : κ} {v : ν} (ps : List (κ × ν)) (h : (k, v) ∈ ps) :
    ∃ w, (empty.assignAll ps).get? k = some w := by
  induction ps using List.reverseRecOn with
  | nil => cases h
  | append_singleton ps p ih =>
      rw [assignAll_concat, get?_set]
      by_cases hk : k = p.1
      · exact ⟨p.2, if_pos hk⟩
      · rw [if_neg hk]
        refine ih ?_
        cases List.mem_append.mp h with
        | inl h => exact h
        | inr h => exact absurd (by rw [← List.mem_singleton.mp h]) hk

/-- When values are stored under new names of their keys, each is found under the name
of its key just if keys of one name have one value. -/
theorem get?_renamed_iff {α : Type} (name : α → κ) (f : α → ν) (ks : List α) :
    (∀ a ∈ ks, ((empty : Dict κ ν).assignAll (ks.map fun a => (name a, f a))).get? (name a) =
        some (f a)) ↔
      ∀ a ∈ ks, ∀ b ∈ ks, name a = name b → f a = f b := by
  constructor
  · intro h a ha b hb hname
    have hfound := h a ha
    rw [hname, h b hb, Option.some.injEq] at hfound
    exact hfound.symm
  · intro h a ha
    have hmem : (name a, f a) ∈ ks.map fun a => (name a, f a) := List.mem_map_of_mem ha
    obtain ⟨w, hw⟩ := get?_assignAll_isSome _ hmem
    obtain ⟨b, hb, hpair⟩ := List.mem_map.mp (mem_of_get?_assignAll _ hw)
    obtain ⟨hname, rfl⟩ := Prod.mk.inj hpair
    rw [hw, h a ha b hb hname.symm]

theorem setEntry_of_not_mem {k : κ} {v : ν} : ∀ {es : List (κ × ν)}, k ∉ es.map Prod.fst →
    setEntry k v es = es ++ [(k, v)]
  | [], _ => rfl
  | e :: es, h => by
      rw [List.map_cons, List.mem_cons, not_or] at h
      rw [setEntry, if_neg (Ne.symm h.1), setEntry_of_not_mem h.2, List.cons_append]

/-- Pairs with different keys become the entries, in order. -/
theorem entries_assignAll {ps : List (κ × ν)} (h : (ps.map Prod.fst).Nodup) :
    (empty.assignAll ps).entries = ps := by
  induction ps using List.reverseRecOn with
  | nil => rfl
  | append_singleton ps p ih =>
      rw [List.map_append, List.map_cons, List.map_nil, List.nodup_append] at h
      have hnew : p.1 ∉ ps.map Prod.fst := fun hmem => h.2.2 p.1 hmem p.1 List.mem_cons_self rfl
      rw [assignAll_concat]
      change setEntry p.1 p.2 (empty.assignAll ps).entries = _
      rw [ih h.1, setEntry_of_not_mem hnew]

/-- Dictionaries with the same entries in any order hold the same. -/
theorem get?_eq_of_perm {d e : Dict κ ν} (h : d.entries.Perm e.entries) (k : κ) :
    d.get? k = e.get? k :=
  Option.ext fun _ => get?_eq_some_iff.trans (h.mem_iff.trans get?_eq_some_iff.symm)

end Dict

/-! ## Updates -/

namespace Dict

variable {κ ν : Type} [DecidableEq κ]

/-- Change the value of a key, or store a first one. -/
def update (d : Dict κ ν) (k : κ) (first : ν) (f : ν → ν) : Dict κ ν :=
  match d.get? k with
  | none => d.set k first
  | some v => d.set k (f v)

theorem map_fst_setEntry (k : κ) (v : ν) : ∀ es : List (κ × ν),
    (setEntry k v es).map Prod.fst =
      if k ∈ es.map Prod.fst then es.map Prod.fst else es.map Prod.fst ++ [k]
  | [] => by rw [if_neg (by exact List.not_mem_nil)]; rfl
  | e :: es => by
      by_cases he : e.1 = k
      · rw [setEntry, if_pos he, if_pos (by rw [List.map_cons, he]; exact List.mem_cons_self),
          List.map_cons, List.map_cons, he]
      · have hmem : k ∈ (e :: es).map Prod.fst ↔ k ∈ es.map Prod.fst := by
          rw [List.map_cons, List.mem_cons, or_iff_right (Ne.symm he)]
        rw [setEntry, if_neg he, List.map_cons, map_fst_setEntry k v es]
        by_cases hk : k ∈ es.map Prod.fst
        · rw [if_pos hk, if_pos (hmem.mpr hk)]
          rfl
        · rw [if_neg hk, if_neg (mt hmem.mp hk)]
          rfl

/-- A new key goes to the end, whatever is stored. -/
theorem keys_update (d : Dict κ ν) (k : κ) (first : ν) (f : ν → ν) :
    (d.update k first f).keys = if k ∈ d.keys then d.keys else d.keys ++ [k] := by
  rw [update]
  cases d.get? k with
  | none => exact map_fst_setEntry k first d.entries
  | some v => exact map_fst_setEntry k (f v) d.entries

/-- If the first value is what the change makes of some neutral one, then an update
changes the value of its key, where neutral values stand for absent ones. -/
theorem getD_update (d : Dict κ ν) (k j : κ) (z : ν) (f : ν → ν) :
    ((d.update k (f z) f).get? j).getD z =
      if j = k then f ((d.get? k).getD z) else (d.get? j).getD z := by
  rw [update]
  cases d.get? k with
  | none =>
      rw [get?_set]
      split <;> rfl
  | some v =>
      rw [get?_set]
      split <;> rfl

theorem sum_setEntry (g : ν → Nat) (k : κ) (v : ν) : ∀ es : List (κ × ν),
    ((setEntry k v es).map fun e => g e.2).sum + ((getEntry k es).map g).getD 0 =
      (es.map fun e => g e.2).sum + g v
  | [] => by simp [setEntry, getEntry]
  | e :: es => by
      have ih := sum_setEntry g k v es
      by_cases he : e.1 = k
      · simp only [setEntry, getEntry, if_pos he, List.map_cons, List.sum_cons, Option.map_some,
          Option.getD_some]
        omega
      · simp only [setEntry, getEntry, if_neg he, List.map_cons, List.sum_cons]
        omega

/-- An update that adds to one value adds to the sum. -/
theorem sum_update {g : ν → Nat} {first : ν} {f : ν → ν} {n : Nat} (hfirst : g first = n)
    (hf : ∀ v, g (f v) = g v + n) (d : Dict κ ν) (k : κ) :
    ((d.update k first f).entries.map fun e => g e.2).sum =
      (d.entries.map fun e => g e.2).sum + n := by
  have hset := fun v => sum_setEntry g k v d.entries
  rw [update]
  cases hget : d.get? k with
  | none =>
      have hsum := hset first
      change getEntry k d.entries = none at hget
      rw [hget, hfirst] at hsum
      exact hsum
  | some v =>
      have hsum := hset (f v)
      change getEntry k d.entries = some v at hget
      rw [hget, hf v, Option.map_some, Option.getD_some, Nat.add_comm (g v), ← Nat.add_assoc] at hsum
      exact Nat.add_right_cancel hsum

end Dict

/-! ## Dictionaries of lists -/

namespace Dict

variable {κ β : Type}

/-- All the elements of all the lists of a dictionary. -/
def pooled (d : Dict κ (List β)) : Multiset β := (d.entries.flatMap Prod.snd : List β)

@[simp] theorem pooled_empty : (empty : Dict κ (List β)).pooled = 0 := rfl

/-- Every pair that a later one overwrites holds the empty list. -/
def OverwritesEmpty (ps : List (κ × List β)) : Prop :=
  ps.Pairwise fun p q => p.1 = q.1 → p.2 = []

theorem overwritesEmpty_concat {ps : List (κ × List β)} {p : κ × List β} :
    OverwritesEmpty (ps ++ [p]) ↔
      OverwritesEmpty ps ∧ ∀ q ∈ ps, q.1 = p.1 → q.2 = [] := by
  simp [OverwritesEmpty, List.pairwise_append]

variable [DecidableEq κ]

/-- The list under a key, empty if the key is not there. -/
def listAt (d : Dict κ (List β)) (k : κ) : List β := (d.get? k).getD []

theorem flatMap_setEntry (k : κ) (v : List β) : ∀ es : List (κ × List β),
    (((setEntry k v es).flatMap Prod.snd : List β) : Multiset β) +
        (((getEntry k es).getD [] : List β) : Multiset β) =
      ((es.flatMap Prod.snd : List β) : Multiset β) + (v : Multiset β)
  | [] => by simp [setEntry, getEntry]
  | e :: es => by
      have ih := flatMap_setEntry k v es
      by_cases he : e.1 = k
      · simp only [setEntry, getEntry, if_pos he, List.flatMap_cons, Option.getD_some,
          ← Multiset.coe_add]
        rw [add_comm (v : Multiset β), add_right_comm, add_comm _ (e.2 : Multiset β)]
      · simp only [setEntry, getEntry, if_neg he, List.flatMap_cons, ← Multiset.coe_add]
        rw [add_assoc, ih, add_assoc]

/-- A store trades the old list of its key for the new one. -/
theorem pooled_set (d : Dict κ (List β)) (k : κ) (v : List β) :
    (d.set k v).pooled + (d.listAt k : Multiset β) = d.pooled + (v : Multiset β) :=
  flatMap_setEntry k v d.entries

theorem listAt_assignAll_of_empty {ps : List (κ × List β)} {k : κ}
    (h : ∀ q ∈ ps, q.1 = k → q.2 = []) : (empty.assignAll ps).listAt k = [] := by
  cases hg : (empty.assignAll ps).get? k with
  | none => simp [listAt, hg]
  | some v => simpa [listAt, hg] using h (k, v) (mem_of_get?_assignAll ps hg) rfl

/-- If overwritten lists are empty so far, the list held now is empty only if
every list stored under its key was. -/
theorem empty_of_listAt_assignAll {k : κ} (ps : List (κ × List β)) (hps : OverwritesEmpty ps)
    (h : (empty.assignAll ps).listAt k = []) : ∀ q ∈ ps, q.1 = k → q.2 = [] := by
  induction ps using List.reverseRecOn with
  | nil => intro q hq; cases hq
  | append_singleton ps p ih =>
      obtain ⟨hps, hp⟩ := overwritesEmpty_concat.mp hps
      rw [listAt, assignAll_concat, get?_set] at h
      intro q hq hqk
      by_cases hk : k = p.1
      · rw [if_pos hk, Option.getD_some] at h
        cases List.mem_append.mp hq with
        | inl hq => exact hp q hq (hqk.trans hk)
        | inr hq => rw [List.mem_singleton.mp hq]; exact h
      · rw [if_neg hk] at h
        cases List.mem_append.mp hq with
        | inl hq => exact ih hps h q hq hqk
        | inr hq => exact absurd (by rw [← hqk, List.mem_singleton.mp hq]) hk

/-- What the dictionary holds at the end and what was lost on the way make up
everything that was stored.  The loss is empty exactly when the overwritten
lists are. -/
theorem pooled_assignAll (ps : List (κ × List β)) :
    ∃ lost : Multiset β,
      (empty.assignAll ps).pooled + lost = ((ps.flatMap Prod.snd : List β) : Multiset β) ∧
        (lost = 0 ↔ OverwritesEmpty ps) := by
  induction ps using List.reverseRecOn with
  | nil => exact ⟨0, by simp, by simp [OverwritesEmpty]⟩
  | append_singleton ps p ih =>
      obtain ⟨lost, hsum, hlost⟩ := ih
      refine ⟨lost + ((empty.assignAll ps).listAt p.1 : Multiset β), ?_, ?_⟩
      · have hset := pooled_set (empty.assignAll ps) p.1 p.2
        rw [assignAll_concat, List.flatMap_append, ← Multiset.coe_add, ← hsum, add_comm lost,
          ← add_assoc, hset, add_right_comm]
        simp
      · rw [← Multiset.card_eq_zero, Multiset.card_add, Nat.add_eq_zero_iff, Multiset.card_eq_zero,
          Multiset.card_eq_zero, Multiset.coe_eq_zero, hlost, overwritesEmpty_concat]
        constructor
        · rintro ⟨hps, hat⟩
          exact ⟨hps, empty_of_listAt_assignAll ps hps hat⟩
        · rintro ⟨hps, hall⟩
          exact ⟨hps, listAt_assignAll_of_empty hall⟩

/-- Assigning in sequence loses nothing exactly when every overwritten list is
empty. -/
theorem pooled_assignAll_iff (ps : List (κ × List β)) :
    (empty.assignAll ps).pooled = ((ps.flatMap Prod.snd : List β) : Multiset β) ↔
      OverwritesEmpty ps := by
  obtain ⟨lost, hsum, hlost⟩ := pooled_assignAll ps
  rw [← hsum, ← hlost]
  exact left_eq_add

/-! ## Grouping -/

/-- Append to the list of a key, or begin one. -/
def push (d : Dict κ (List β)) (k : κ) (x : β) : Dict κ (List β) :=
  match d.get? k with
  | some xs => d.set k (xs ++ [x])
  | none => d.set k [x]

theorem get?_push (d : Dict κ (List β)) (k j : κ) (x : β) :
    (d.push k x).get? j = if j = k then some (d.listAt k ++ [x]) else d.get? j := by
  rw [push, listAt]
  cases d.get? k with
  | none => exact get?_set d k j [x]
  | some xs => exact get?_set d k j (xs ++ [x])

/-- A dictionary holds the elements of a list by their keys: under each key those that
have it, in order, and nothing under a key that none has. -/
structure Groups (d : Dict κ (List β)) (key : β → κ) (xs : List β) : Prop where
  listAt_eq : ∀ k, d.listAt k = xs.filter fun x => key x = k
  get?_ne_nil : ∀ k, d.get? k ≠ some []

theorem groups_empty (key : β → κ) : (empty : Dict κ (List β)).Groups key [] where
  listAt_eq _ := rfl
  get?_ne_nil _ := Option.some_ne_none [] ∘ Eq.symm

/-- The order of the entries does not matter. -/
theorem Groups.of_perm {d e : Dict κ (List β)} {key : β → κ} {xs : List β}
    (h : d.Groups key xs) (hperm : e.entries.Perm d.entries) : e.Groups key xs where
  listAt_eq k := by
    rw [listAt, get?_eq_of_perm hperm]
    exact h.listAt_eq k
  get?_ne_nil k := by
    rw [get?_eq_of_perm hperm]
    exact h.get?_ne_nil k

/-- The keys are those of the elements. -/
theorem Groups.mem_keys_iff {d : Dict κ (List β)} {key : β → κ} {xs : List β}
    (h : d.Groups key xs) {k : κ} : k ∈ d.keys ↔ ∃ x ∈ xs, key x = k := by
  have hlist := h.listAt_eq k
  constructor
  · intro hk
    obtain ⟨v, hv⟩ := Dict.mem_keys_iff.mp hk
    rw [listAt, hv, Option.getD_some] at hlist
    obtain ⟨x, hx⟩ := List.exists_mem_of_ne_nil v fun hnil => h.get?_ne_nil k (hnil ▸ hv)
    rw [hlist, List.mem_filter] at hx
    exact ⟨x, hx.1, of_decide_eq_true hx.2⟩
  · rintro ⟨x, hx, hkey⟩
    have hmem : x ∈ d.listAt k := by
      rw [hlist, List.mem_filter]
      exact ⟨hx, decide_eq_true hkey⟩
    rw [listAt] at hmem
    cases hget : d.get? k with
    | some v => exact Dict.mem_keys_iff.mpr ⟨v, hget⟩
    | none =>
        rw [hget] at hmem
        cases hmem

/-- A push adds its element to all that is held. -/
theorem pooled_push (d : Dict κ (List β)) (k : κ) (x : β) : (d.push k x).pooled = d.pooled + {x} := by
  have hpush : d.push k x = d.set k (d.listAt k ++ [x]) := by
    rw [push, listAt]
    cases d.get? k with
    | none => rfl
    | some xs => rfl
  have hset := pooled_set d k (d.listAt k ++ [x])
  rw [← Multiset.coe_add, add_comm (d.listAt k : Multiset β), ← add_assoc] at hset
  rw [hpush]
  exact add_right_cancel hset

/-- One more element is pushed under its key. -/
theorem Groups.push {d : Dict κ (List β)} {key : β → κ} {xs : List β} (h : d.Groups key xs)
    (x : β) : (d.push (key x) x).Groups key (xs ++ [x]) where
  listAt_eq k := by
    rw [listAt, get?_push, List.filter_append, List.filter_singleton]
    by_cases hk : k = key x
    · rw [if_pos hk, Option.getD_some, h.listAt_eq, hk, decide_eq_true rfl]
      rfl
    · rw [if_neg hk, decide_eq_false (Ne.symm hk)]
      exact (h.listAt_eq k).trans (List.append_nil _).symm
  get?_ne_nil k := by
    rw [get?_push]
    by_cases hk : k = key x
    · rw [if_pos hk]
      intro heq
      exact List.append_ne_nil_of_right_ne_nil _ (List.cons_ne_nil x []) (Option.some.inj heq)
    · rw [if_neg hk]
      exact h.get?_ne_nil k

end Dict

end Base
