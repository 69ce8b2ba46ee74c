import Mathlib.Algebra.BigOperators.Group.List.Basic
import Mathlib.Algebra.GroupWithZero.Nat
import FbTesting.Base.Run

/-!
# Potentials

A potential is a number of a state that pays for steps: a step may take from it
what it costs and puts into it what it gains.  Over a run the costs are then
bounded by the potential at the start and the gains (`exec_potential`).

The potential of a list of parts is the sum of theirs, and the replacement of one
part or its loss changes it by the difference (`sum_map_set`, `sum_map_eraseIdx`).
-/

namespace Base

namespace System

variable {σ ι ω : Type} {M : System σ ι ω} {ok : σ → ι → Prop} [∀ s i, Decidable (ok s i)]

/-- The costs of a run are paid by the potential and the gains.  What is observed may
cost, too. -/
theorem exec_potential (φ : σ → Nat) (cost gain : ι → Nat) (shown : ω → Nat)
    (hstep : ∀ {s : σ} {i : ι} {r : σ × List ω}, M.step s i = some r →
      φ r.1 + cost i + (r.2.map shown).sum ≤ φ s + gain i) {is : List ι} :
    ∀ {s : σ} {r : σ × List ω}, M.exec ok s is = some r →
      φ r.1 + (is.map cost).sum + (r.2.map shown).sum ≤ φ s + (is.map gain).sum := by
  induction is with
  | nil =>
      intro s r h
      cases h
      simp
  | cons i is ih =>
      intro s r h
      rw [exec] at h
      split at h
      · obtain ⟨q, hq, hrest⟩ := Option.bind_eq_some_iff.mp h
        obtain ⟨q', hq', rfl⟩ := Option.map_eq_some_iff.mp hrest
        have hfirst := hstep hq
        have hlater := ih hq'
        simp only [List.map_cons, List.sum_cons, List.map_append, List.sum_append]
        omega
      · cases h

/-- The steps of a run that cost, when nothing else does. -/
theorem exec_cost_le (φ : σ → Nat) (cost gain : ι → Nat)
    (hstep : ∀ {s : σ} {i : ι} {r : σ × List ω}, M.step s i = some r →
      φ r.1 + cost i ≤ φ s + gain i) {is : List ι} {s : σ} {r : σ × List ω}
    (h : M.exec ok s is = some r) : φ r.1 + (is.map cost).sum ≤ φ s + (is.map gain).sum := by
  have hsilent : ∀ os : List ω, (os.map fun _ => 0).sum = 0 := by simp
  have hrun := exec_potential φ cost gain (fun _ => 0)
    (fun hs => by rw [hsilent]; exact hstep hs) h
  rwa [hsilent] at hrun

end System

/-- The replacement of one part. -/
theorem sum_map_set {α : Type} (f : α → Nat) {l : List α} : ∀ {i : Nat} {a : α} (b : α),
    l[i]? = some a → ((l.set i b).map f).sum + f a = (l.map f).sum + f b := by
  induction l with
  | nil => intro i a b h; simp at h
  | cons x l ih =>
      intro i a b h
      cases i with
      | zero =>
          obtain rfl : x = a := by simpa using h
          simp only [List.set_cons_zero, List.map_cons, List.sum_cons]
          omega
      | succ i =>
          have hl := ih b (by simpa using h)
          simp only [List.set_cons_succ, List.map_cons, List.sum_cons]
          omega

/-- The loss of one part. -/
theorem sum_map_eraseIdx {α : Type} (f : α → Nat) {l : List α} : ∀ {i : Nat} {a : α},
    l[i]? = some a → ((l.eraseIdx i).map f).sum + f a = (l.map f).sum := by
  induction l with
  | nil => intro i a h; simp at h
  | cons x l ih =>
      intro i a h
      cases i with
      | zero =>
          obtain rfl : x = a := by simpa using h
          simp only [List.eraseIdx_cons_zero, List.map_cons, List.sum_cons]
          omega
      | succ i =>
          have hl := ih (by simpa using h)
          simp only [List.eraseIdx_cons_succ, List.map_cons, List.sum_cons]
          omega

theorem length_eraseIdx_add_one {α : Type} {l : List α} {i : Nat} {a : α} (h : l[i]? = some a) :
    (l.eraseIdx i).length + 1 = l.length := by
  have hi := (List.getElem?_eq_some_iff.mp h).1
  rw [List.length_eraseIdx, if_pos hi]
  omega

end Base
