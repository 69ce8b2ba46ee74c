import Mathlib.Data.List.Basic

/-!
# Computations that act and may fail

A `Traced` computation performs actions one after the other and ends with a
value or with an error.  What was performed before an error stays performed.
The bind runs the second computation only after a value (`bind_ok`,
`bind_error`).
-/

namespace Base

/-- The actions of a run, and how it ends. -/
structure Traced (ε act α : Type) where
  /-- The actions performed, in order. -/
  acts : List act
  /-- The value, or the error that ended the run. -/
  result : Except ε α

namespace Traced

variable {ε act α β : Type}

/-- Run `f` on the value of `x`, if `x` ends with one. -/
def bind (x : Traced ε act α) (f : α → Traced ε act β) : Traced ε act β :=
  match x.result with
  | .ok a => ⟨x.acts ++ (f a).acts, (f a).result⟩
  | .error e => ⟨x.acts, .error e⟩

instance : Monad (Traced ε act) where
  pure a := ⟨[], .ok a⟩
  bind := bind

/-- Perform one action. -/
def perform (a : act) : Traced ε act Unit := ⟨[a], .ok ()⟩

/-- A computation that performs no action. -/
def lift (r : Except ε α) : Traced ε act α := ⟨[], r⟩

@[simp] theorem acts_pure (a : α) : (pure a : Traced ε act α).acts = [] := rfl

@[simp] theorem result_pure (a : α) : (pure a : Traced ε act α).result = .ok a := rfl

@[simp] theorem perform_bind (a : act) (f : Unit → Traced ε act β) :
    (perform a >>= f) = ⟨a :: (f ()).acts, (f ()).result⟩ := rfl

@[simp] theorem lift_ok_bind (a : α) (f : α → Traced ε act β) : (lift (.ok a) >>= f) = f a := rfl

@[simp] theorem lift_error_bind (e : ε) (f : α → Traced ε act β) :
    (lift (.error e) >>= f) = ⟨[], .error e⟩ := rfl

theorem bind_ok {x : Traced ε act α} {a : α} (h : x.result = .ok a) (f : α → Traced ε act β) :
    (x >>= f) = ⟨x.acts ++ (f a).acts, (f a).result⟩ := by
  change bind x f = _
  rw [bind, h]

theorem bind_error {x : Traced ε act α} {e : ε} (h : x.result = .error e)
    (f : α → Traced ε act β) : (x >>= f) = ⟨x.acts, .error e⟩ := by
  change bind x f = _
  rw [bind, h]

/-- A run that ends with a value went through both computations. -/
theorem bind_eq_ok {x : Traced ε act α} {f : α → Traced ε act β} {b : β}
    (h : (x >>= f).result = .ok b) :
    ∃ a, x.result = .ok a ∧ (f a).result = .ok b ∧ (x >>= f).acts = x.acts ++ (f a).acts := by
  cases hx : x.result with
  | error e => rw [bind_error hx] at h; cases h
  | ok a =>
      rw [bind_ok hx] at h ⊢
      exact ⟨a, rfl, h, rfl⟩

/-- An action of a sequence is an action of one of its parts. -/
theorem mem_acts_bind {x : Traced ε act α} {f : α → Traced ε act β} {a : act}
    (h : a ∈ (x >>= f).acts) : a ∈ x.acts ∨ ∃ b, x.result = .ok b ∧ a ∈ (f b).acts := by
  cases hx : x.result with
  | error e =>
      rw [bind_error hx] at h
      exact Or.inl h
  | ok b =>
      rw [bind_ok hx] at h
      cases List.mem_append.mp h with
      | inl hfirst => exact Or.inl hfirst
      | inr hsecond => exact Or.inr ⟨b, rfl, hsecond⟩

end Traced

end Base
