import Mathlib.Data.List.Basic

/-!
# Runs of a system

A system takes inputs one at a time; an input that is not possible in a state is
refused.  A guard restricts which inputs are considered in which state, and
`Reach` is the states of all runs whose inputs meet the guard.  An invariant is
what holds initially and is kept by every step that meets the guard
(`Reach.invariant`).  `exec` runs a list of inputs from any state
(`exec_rule`), and from a reached state it ends in one (`reach_of_exec`).
-/

namespace Base

/-- A system with states `σ`, inputs `ι` and observations `ω`. -/
structure System (σ ι ω : Type) where
  init : σ
  /-- The next state and what is observed, unless the input is refused. -/
  step : σ → ι → Option (σ × List ω)

namespace System

variable {σ ι ω : Type} (M : System σ ι ω)

/-- The states of the runs whose inputs meet the guard. -/
inductive Reach (ok : σ → ι → Prop) : σ → Prop where
  | init : Reach ok M.init
  | step {s s' : σ} {i : ι} {os : List ω} :
      Reach ok s → ok s i → M.step s i = some (s', os) → Reach ok s'

/-- The guard that every input meets. -/
def anyInput : σ → ι → Prop := fun _ _ => True

instance (s : σ) (i : ι) : Decidable (anyInput s i) := inferInstanceAs (Decidable True)

variable {M}

/-- What holds initially and is kept by every step holds in every state reached. -/
theorem Reach.invariant {ok : σ → ι → Prop} (I : σ → Prop) (hinit : I M.init)
    (hstep : ∀ {s : σ} {i : ι} {r : σ × List ω}, I s → ok s i → M.step s i = some r → I r.1)
    {s : σ} (h : M.Reach ok s) : I s := by
  induction h with
  | init => exact hinit
  | step _ hok hs ih => exact hstep ih hok hs

/-- An invariant that needs another one, which holds in the states before. -/
theorem Reach.invariant_of {ok : σ → ι → Prop} (J I : σ → Prop) (hJ : ∀ {s}, M.Reach ok s → J s)
    (hinit : I M.init)
    (hstep : ∀ {s : σ} {i : ι} {r : σ × List ω}, J s → I s → ok s i →
      M.step s i = some r → I r.1)
    {s : σ} (h : M.Reach ok s) : I s := by
  induction h with
  | init => exact hinit
  | step hr hok hs ih => exact hstep (hJ hr) ih hok hs

variable (M) (ok : σ → ι → Prop) [∀ s i, Decidable (ok s i)]

/-- The run of a list of inputs that meet the guard, with all that is observed. -/
def exec : σ → List ι → Option (σ × List ω)
  | s, [] => some (s, [])
  | s, i :: is =>
      if ok s i then
        (M.step s i).bind fun r => (exec r.1 is).map fun q => (q.1, r.2 ++ q.2)
      else none

variable {M ok}

/-- The run of an input and more. -/
theorem exec_cons_eq_some {s : σ} {i : ι} {is : List ι} {r : σ × List ω} :
    M.exec ok s (i :: is) = some r ↔ ok s i ∧ ∃ q, M.step s i = some q ∧
      ∃ q', M.exec ok q.1 is = some q' ∧ r = (q'.1, q.2 ++ q'.2) := by
  rw [exec, Option.ite_none_right_eq_some, Option.bind_eq_some_iff]
  simp only [Option.map_eq_some_iff, @eq_comm _ _ r]

/-- The run of one input. -/
theorem exec_singleton {s : σ} {i : ι} {r : σ × List ω} (hok : ok s i) (h : M.step s i = some r) :
    M.exec ok s [i] = some r := by
  rw [exec, if_pos hok, h]
  change some (r.1, r.2 ++ []) = _
  rw [List.append_nil]

/-- A run can be taken on from its end. -/
theorem exec_append : ∀ {is js : List ι} {s : σ} {r q : σ × List ω}, M.exec ok s is = some r →
    M.exec ok r.1 js = some q → M.exec ok s (is ++ js) = some (q.1, r.2 ++ q.2)
  | [], js, s, r, q, h, hq => by
      cases h
      exact hq
  | i :: is, js, s, r, q, h, hq => by
      obtain ⟨hok, x, hx, y, hy, rfl⟩ := exec_cons_eq_some.mp h
      rw [List.cons_append, exec, if_pos hok, hx, Option.bind_some, exec_append hy hq]
      simp

/-- What holds at the start of a run and is kept by its steps holds at its end, and
what the steps from such states show is all that is observed. -/
theorem exec_rule (I : σ → Prop) (P : ω → Prop)
    (hstep : ∀ {s : σ} {i : ι} {r : σ × List ω}, I s → ok s i → M.step s i = some r →
      I r.1 ∧ ∀ o ∈ r.2, P o) :
    ∀ {is : List ι} {s : σ} {r : σ × List ω}, I s → M.exec ok s is = some r →
      I r.1 ∧ ∀ o ∈ r.2, P o
  | [], s, r, hs, h => by
      cases h
      exact ⟨hs, fun o ho => absurd ho List.not_mem_nil⟩
  | i :: is, s, r, hs, h => by
      obtain ⟨hok, q, hq, q', hq', rfl⟩ := exec_cons_eq_some.mp h
      obtain ⟨hI, hP⟩ := hstep hs hok hq
      obtain ⟨hI', hP'⟩ := exec_rule I P hstep hI hq'
      refine ⟨hI', fun o ho => ?_⟩
      cases List.mem_append.mp ho with
      | inl hfirst => exact hP o hfirst
      | inr hlater => exact hP' o hlater

/-- What a step shows of a reached state has an explanation in the state after it, and
what is explained stays so.  Then all that a run shows is explained at its end. -/
theorem exec_explained (E : σ → ω → Prop)
    (hshow : ∀ {s : σ} {i : ι} {r : σ × List ω}, M.Reach ok s → ok s i → M.step s i = some r →
      ∀ o ∈ r.2, E r.1 o)
    (hkeep : ∀ {s : σ} {i : ι} {r : σ × List ω} {o : ω}, M.step s i = some r → E s o → E r.1 o) :
    ∀ {is : List ι} {s : σ} {r : σ × List ω}, M.Reach ok s → M.exec ok s is = some r →
      ∀ o ∈ r.2, E r.1 o
  | [], s, r, _, h => by
      cases h
      exact fun o ho => absurd ho List.not_mem_nil
  | i :: is, s, r, hs, h => by
      obtain ⟨hok, q, hq, q', hq', rfl⟩ := exec_cons_eq_some.mp h
      intro o ho
      cases List.mem_append.mp ho with
      | inl hfirst =>
          have hnow := hshow hs hok hq o hfirst
          exact (exec_rule (fun s => E s o) (fun _ => True)
            (fun hE _ hstep => ⟨hkeep hstep hE, fun _ _ => trivial⟩) hnow hq').1
      | inr hlater => exact exec_explained E hshow hkeep (.step hs hok hq) hq' o hlater

theorem exec_invariant (I : σ → Prop)
    (hstep : ∀ {s : σ} {i : ι} {r : σ × List ω}, I s → ok s i → M.step s i = some r → I r.1)
    {is : List ι} {s : σ} {r : σ × List ω} (hs : I s) (h : M.exec ok s is = some r) : I r.1 :=
  (exec_rule I (fun _ => True) (fun hs hok hq => ⟨hstep hs hok hq, fun _ _ => trivial⟩) hs h).1

/-- The last state of a run is reached. -/
theorem reach_of_exec {is : List ι} {s : σ} {r : σ × List ω} (hs : M.Reach ok s)
    (h : M.exec ok s is = some r) : M.Reach ok r.1 :=
  exec_invariant (M.Reach ok) (fun hs hok hq => .step hs hok hq) hs h

variable (M ok)

/-- The last state of the run of a list of inputs, if the run is possible. -/
def after (is : List ι) : σ := ((M.exec ok M.init is).map Prod.fst).getD M.init

variable {M ok}

theorem reach_after (is : List ι) : M.Reach ok (M.after ok is) := by
  unfold after
  cases h : M.exec ok M.init is with
  | none => exact .init
  | some r => exact reach_of_exec .init h

end System

end Base
