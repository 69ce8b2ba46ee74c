import FbTesting.Base.FileTree

/-!
# Dot segments

What a list of components does to any place it is walked from: it goes up some
levels and then down along some names (`relative`).  Empty components and `.` do
nothing, and `..` takes back the name before it, or goes up if there is none.

Going up ends at the root.  `walkEnd_eq` says where a walk ends, and from it
follows when it ends at or below its start (`isPrefix_walkEnd_iff`,
`below_walkEnd_iff`): when it does not go up, or comes back down the way it went
up.
-/

namespace Base

/-- Levels up, then names down. -/
structure Relative where
  ups : Nat
  names : List Text
deriving DecidableEq

namespace Relative

/-- No way at all. -/
def here : Relative := ⟨0, []⟩

/-- One more component. -/
def step (r : Relative) (c : Text) : Relative :=
  if c = [] ∨ c = ['.'] then r
  else if c = ['.', '.'] then
    if r.names = [] then { r with ups := r.ups + 1 } else { r with names := r.names.dropLast }
  else { r with names := r.names ++ [c] }

/-- The place it leads to. -/
def apply (r : Relative) (p : Path) : Path := p.take (p.length - r.ups) ++ r.names

/-- What it has to find again to come back. -/
def left (r : Relative) (p : Path) : Path := p.drop (p.length - r.ups)

theorem apply_here (p : Path) : here.apply p = p := by
  rw [apply, here, Nat.sub_zero, List.take_length, List.append_nil]

/-- A step further is a step from the place that was reached. -/
theorem apply_step (r : Relative) (p : Path) (c : Text) :
    (r.step c).apply p = walkStep (r.apply p) c := by
  unfold step walkStep
  split
  · rfl
  · split
    · split
      · rename_i hnames
        have hlevel : min ((p.take (p.length - r.ups)).length - 1) (p.length - r.ups) =
            p.length - (r.ups + 1) := by
          rw [List.length_take]
          omega
        rw [apply, apply, hnames, List.append_nil, List.append_nil, List.dropLast_eq_take,
          List.take_take, hlevel]
      · rename_i hnames
        rw [apply, apply, List.dropLast_append_of_ne_nil hnames]
    · exact (List.append_assoc _ _ _).symm

theorem apply_foldl_step (cs : List Text) : ∀ (r : Relative) (p : Path),
    (cs.foldl step r).apply p = walkEnd (r.apply p) cs := by
  induction cs with
  | nil => intro r p; rfl
  | cons c cs ih =>
      intro r p
      rw [List.foldl_cons, ih, apply_step]
      rfl

/-- The place is at or below the start if the names come back to it. -/
theorem isPrefix_apply_iff (r : Relative) (p : Path) : p <+: r.apply p ↔ r.left p <+: r.names := by
  have hp : p = p.take (p.length - r.ups) ++ r.left p := (List.take_append_drop _ p).symm
  nth_rewrite 1 [hp]
  exact List.prefix_append_right_inj _

theorem below_apply_iff (r : Relative) (p : Path) :
    Below p (r.apply p) ↔ Below (r.left p) r.names := by
  have hp : p = p.take (p.length - r.ups) ++ r.left p := (List.take_append_drop _ p).symm
  have hne : p ≠ r.apply p ↔ r.left p ≠ r.names := by
    nth_rewrite 1 [hp]
    exact not_congr (List.append_right_inj _)
  rw [Below, Below, isPrefix_apply_iff, hne]

end Relative

/-- What a list of components does. -/
def relative (cs : List Text) : Relative := cs.foldl Relative.step .here

/-- Where a walk ends. -/
theorem walkEnd_eq (p : Path) (cs : List Text) : walkEnd p cs = (relative cs).apply p := by
  rw [relative, Relative.apply_foldl_step, Relative.apply_here]

/-- A walk ends at or below its start. -/
theorem isPrefix_walkEnd_iff (p : Path) (cs : List Text) :
    p <+: walkEnd p cs ↔ (relative cs).left p <+: (relative cs).names := by
  rw [walkEnd_eq, Relative.isPrefix_apply_iff]

/-- A walk ends below its start. -/
theorem below_walkEnd_iff (p : Path) (cs : List Text) :
    Below p (walkEnd p cs) ↔ Below ((relative cs).left p) (relative cs).names := by
  rw [walkEnd_eq, Relative.below_apply_iff]

end Base
