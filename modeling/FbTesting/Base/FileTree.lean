import Mathlib.Data.List.Induction
import Mathlib.Logic.Function.Basic
import FbTesting.Base.Text

/-!
# File trees and the walk of a path

A tree says what is at an absolute path, given as the list of its names.  The
fields say that it is a tree: there is a directory at the root and at the parent
of everything.

A relative path is walked one component at a time from a starting directory.
Every place before the last has to be a directory, also where the walk goes back
by `..` afterwards, and the last has to be a file for the read to succeed.
`readFile_congr` says which places a read depends on.  `probe` is a tree on which
a given walk succeeds, if any has one (`readFile_probe`), and `prune` cuts off
what is below a place.  `mkdir` makes a directory where there is nothing.
-/

namespace Base

/-- An absolute path. -/
abbrev Path := List Text

/-- What can be at a path. -/
inductive FileEntry where
  | dir
  | file (content : Text)
deriving DecidableEq

/-- A file tree. -/
structure FileTree where
  entry : Path → Option FileEntry
  /-- The root is a directory. -/
  root : entry [] = some .dir
  /-- The parent of what is there is a directory. -/
  parent : ∀ {p : Path} {c : Text}, entry (p ++ [c]) ≠ none → entry p = some .dir

/-- A path that is further down. -/
def Below (b p : Path) : Prop := b <+: p ∧ b ≠ p

instance (b p : Path) : Decidable (Below b p) := inferInstanceAs (Decidable (_ ∧ _))

/-! ## Walks -/

/-- One component: the empty name and `.` stay, `..` goes up. -/
def walkStep (p : Path) (c : Text) : Path :=
  if c = [] ∨ c = ['.'] then p
  else if c = ['.', '.'] then p.dropLast
  else p ++ [c]

/-- The places a walk leaves, one for each component. -/
def trail : Path → List Text → List Path
  | _, [] => []
  | p, c :: cs => p :: trail (walkStep p c) cs

/-- The place a walk ends at. -/
def walkEnd (p : Path) (cs : List Text) : Path := cs.foldl walkStep p

/-- The content of the file a walk ends at. -/
def FileTree.readFile (fs : FileTree) (p : Path) (cs : List Text) : Option Text :=
  if ∀ q ∈ trail p cs, fs.entry q = some .dir then
    match fs.entry (walkEnd p cs) with
    | some (.file t) => some t
    | _ => none
  else none

/-- A walk ends where it could only find a directory. -/
def EndsOnTrail (p : Path) (cs : List Text) : Prop := ∃ q ∈ trail p cs, walkEnd p cs <+: q

instance (p : Path) (cs : List Text) : Decidable (EndsOnTrail p cs) :=
  inferInstanceAs (Decidable (∃ q ∈ _, _))

/-- A read depends on the places of the walk. -/
theorem FileTree.readFile_congr {fs gs : FileTree} {p : Path} {cs : List Text}
    (htrail : ∀ q ∈ trail p cs, fs.entry q = gs.entry q)
    (hend : fs.entry (walkEnd p cs) = gs.entry (walkEnd p cs)) :
    fs.readFile p cs = gs.readFile p cs := by
  unfold readFile
  rw [hend]
  have hiff : (∀ q ∈ trail p cs, fs.entry q = some .dir) ↔
      ∀ q ∈ trail p cs, gs.entry q = some .dir :=
    forall₂_congr fun q hq => by rw [htrail q hq]
  simp only [hiff]

/-- What is read is at the end of the walk. -/
theorem FileTree.entry_of_readFile {fs : FileTree} {p : Path} {cs : List Text} {t : Text}
    (h : fs.readFile p cs = some t) : fs.entry (walkEnd p cs) = some (.file t) := by
  obtain ⟨_, hmatch⟩ := Option.ite_none_right_eq_some.mp h
  cases hentry : fs.entry (walkEnd p cs) with
  | none =>
      rw [hentry] at hmatch
      cases hmatch
  | some e =>
      rw [hentry] at hmatch
      cases e with
      | dir => cases hmatch
      | file u =>
          cases hmatch
          rfl

/-- What is above something is a directory. -/
theorem FileTree.entry_of_prefix (fs : FileTree) {p : Path} : ∀ (r : Path),
    fs.entry (p ++ r) = some .dir → fs.entry p = some .dir := by
  intro r
  induction r using List.reverseRecOn with
  | nil => intro h; rwa [List.append_nil] at h
  | append_singleton r c ih =>
      intro h
      refine ih (fs.parent (c := c) ?_)
      rw [List.append_assoc, h]
      exact nofun

/-- A walk that ends on its own trail reads nothing. -/
theorem FileTree.readFile_of_endsOnTrail (fs : FileTree) {p : Path} {cs : List Text}
    (h : EndsOnTrail p cs) : fs.readFile p cs = none := by
  unfold readFile
  split
  · rename_i hdirs
    obtain ⟨q, hq, r, hr⟩ := h
    have hdir := hdirs q hq
    rw [← hr] at hdir
    rw [fs.entry_of_prefix r hdir]
  · rfl

/-- A read that meets nothing at one of its places fails. -/
theorem FileTree.readFile_of_missing (fs : FileTree) {p q : Path} {cs : List Text}
    (hq : q ∈ trail p cs ∨ q = walkEnd p cs) (hnone : fs.entry q = none) :
    fs.readFile p cs = none := by
  unfold readFile
  split
  · rename_i hdirs
    cases hq with
    | inl hmem =>
        have hdir := hdirs q hmem
        rw [hnone] at hdir
        cases hdir
    | inr heq => rw [← heq, hnone]
  · rfl

/-! ## Trees made for a walk -/

theorem trail_concat (p : Path) (cs : List Text) (c : Text) :
    trail p (cs ++ [c]) = trail p cs ++ [walkEnd p cs] := by
  induction cs generalizing p with
  | nil => rfl
  | cons d cs ih =>
      rw [List.cons_append, trail, ih]
      rfl

theorem walkEnd_concat (p : Path) (cs : List Text) (c : Text) :
    walkEnd p (cs ++ [c]) = walkStep (walkEnd p cs) c := by
  rw [walkEnd, List.foldl_append]
  rfl

/-- A walk that does not end on its trail ends right below a place of it. -/
theorem exists_parent_of_not_endsOnTrail {p : Path} {cs : List Text} (hne : cs ≠ [])
    (h : ¬EndsOnTrail p cs) : ∃ q ∈ trail p cs, ∃ c, walkEnd p cs = q ++ [c] := by
  induction cs using List.reverseRecOn with
  | nil => exact absurd rfl hne
  | append_singleton cs c _ =>
      have hlast : walkEnd p cs ∈ trail p (cs ++ [c]) := by
        rw [trail_concat]
        exact List.mem_append_right _ List.mem_cons_self
      refine ⟨walkEnd p cs, hlast, c, ?_⟩
      have hend : ¬walkEnd p (cs ++ [c]) <+: walkEnd p cs := fun hp => h ⟨_, hlast, hp⟩
      rw [walkEnd_concat] at hend ⊢
      unfold walkStep at hend ⊢
      split
      · rename_i hstay
        rw [if_pos hstay] at hend
        exact absurd (List.prefix_refl _) hend
      · rename_i hmove
        rw [if_neg hmove] at hend
        split
        · rename_i hup
          rw [if_pos hup] at hend
          exact absurd (List.dropLast_prefix _) hend
        · rfl

/-- What a tree has to hold for a walk to succeed: directories along the trail
and a file at the end. -/
def probeEntry (p : Path) (cs : List Text) (content : Text) (x : Path) : Option FileEntry :=
  if ∃ q ∈ trail p cs, x <+: q then some .dir
  else if x = walkEnd p cs then some (.file content)
  else none

/-- The tree that holds just that. -/
def probe (p : Path) (cs : List Text) (content : Text) (hne : cs ≠ []) (h : ¬EndsOnTrail p cs) :
    FileTree where
  entry := probeEntry p cs content
  root := by
    refine if_pos ?_
    cases cs with
    | nil => exact absurd rfl hne
    | cons c cs => exact ⟨p, List.mem_cons_self, List.nil_prefix⟩
  parent := by
    intro x c hx
    refine if_pos ?_
    unfold probeEntry at hx
    split at hx
    · rename_i hdir
      obtain ⟨q, hq, hpre⟩ := hdir
      exact ⟨q, hq, (List.prefix_append x [c]).trans hpre⟩
    · split at hx
      · rename_i hend
        obtain ⟨q, hq, d, hd⟩ := exists_parent_of_not_endsOnTrail hne h
        rw [hd] at hend
        exact ⟨q, hq, by rw [(List.append_inj_left' hend rfl)]⟩
      · exact absurd rfl hx

/-- The walk succeeds there. -/
theorem readFile_probe {p : Path} {cs : List Text} (content : Text) (hne : cs ≠ [])
    (h : ¬EndsOnTrail p cs) : (probe p cs content hne h).readFile p cs = some content := by
  have hdirs : ∀ q ∈ trail p cs, (probe p cs content hne h).entry q = some .dir :=
    fun q hq => if_pos ⟨q, hq, List.prefix_refl q⟩
  have hend : (probe p cs content hne h).entry (walkEnd p cs) = some (.file content) := by
    change probeEntry p cs content (walkEnd p cs) = _
    exact (if_neg h).trans (if_pos rfl)
  rw [FileTree.readFile, if_pos hdirs, hend]

/-- The tree without what is below `b`. -/
def FileTree.prune (fs : FileTree) (b : Path) : FileTree where
  entry x := if Below b x then none else fs.entry x
  root := by
    rw [if_neg, fs.root]
    intro h
    exact h.2 (List.prefix_nil.mp h.1)
  parent := by
    intro x c hx
    split at hx
    · exact absurd rfl hx
    · rename_i hc
      rw [if_neg, fs.parent hx]
      intro h
      refine hc ⟨h.1.trans (List.prefix_append x [c]), ?_⟩
      intro heq
      have hlen := congrArg List.length heq
      have hle := h.1.length_le
      rw [List.length_append, List.length_singleton] at hlen
      omega

theorem FileTree.entry_prune_below (fs : FileTree) {b x : Path} (h : Below b x) :
    (fs.prune b).entry x = none := if_pos h

theorem FileTree.entry_prune_of_not_below (fs : FileTree) {b x : Path} (h : ¬Below b x) :
    (fs.prune b).entry x = fs.entry x := if_neg h

/-- A child of what is not there is not there. -/
theorem FileTree.child_eq_none {fs : FileTree} {p : Path} (h : fs.entry p = none) (c : Text) :
    fs.entry (p ++ [c]) = none := by
  by_contra hne
  have hdir := fs.parent hne
  rw [h] at hdir
  cases hdir

/-! ## New directories -/

/-- The tree with one more directory. -/
def FileTree.addDir (fs : FileTree) (p : Path) (c : Text) (hp : fs.entry p = some .dir) :
    FileTree where
  entry := Function.update fs.entry (p ++ [c]) (some .dir)
  root := by
    rw [Function.update_of_ne (List.append_ne_nil_of_right_ne_nil p (List.cons_ne_nil c [])).symm,
      fs.root]
  parent := by
    intro q d hq
    by_cases hnew : q = p ++ [c]
    · rw [hnew, Function.update_self]
    · rw [Function.update_of_ne hnew]
      by_cases hsame : q ++ [d] = p ++ [c]
      · rw [List.append_inj_left' hsame rfl]
        exact hp
      · rw [Function.update_of_ne hsame] at hq
        exact fs.parent hq

/-- The creation of a directory: its parent has to be one, and nothing may be there. -/
def FileTree.mkdir (fs : FileTree) (p : Path) (c : Text) : Option FileTree :=
  if h : fs.entry p = some .dir ∧ fs.entry (p ++ [c]) = none then some (fs.addDir p c h.1) else none

theorem FileTree.mkdir_eq_some {fs gs : FileTree} {p : Path} {c : Text}
    (h : fs.mkdir p c = some gs) :
    fs.entry p = some .dir ∧ fs.entry (p ++ [c]) = none ∧
      gs.entry = Function.update fs.entry (p ++ [c]) (some .dir) := by
  unfold mkdir at h
  split at h
  · rename_i hfree
    cases h
    exact ⟨hfree.1, hfree.2, rfl⟩
  · cases h

theorem FileTree.mkdir_isSome_iff {fs : FileTree} {p : Path} {c : Text} :
    (fs.mkdir p c).isSome = true ↔ fs.entry p = some .dir ∧ fs.entry (p ++ [c]) = none := by
  unfold mkdir
  split
  · rename_i hfree
    exact iff_of_true rfl hfree
  · rename_i hfree
    exact iff_of_false Bool.false_ne_true hfree

end Base
