import FbTesting.Analyser.Outcome

/-!
# Orderly runs

What a run leaves to be done at any point of it.  In an orderly rest no traceback is
printed, and a file that is opened or written is closed later.  This is kept by
sequencing (`Orderly.append`), and so all parts of the analyser have it
(`orderly_main`): the only traceback is the one that the process prints at the end of
a run that fails.

A run with results opens each of its files (`open_mem_of_plan`).
-/

namespace Analyser

open Base Python

/-- No traceback is printed, and what is opened or written is closed later. -/
def Orderly : List Act → Prop
  | [] => True
  | .stderr _ :: _ => False
  | .open f :: rest => .close f ∈ rest ∧ Orderly rest
  | .write f _ :: rest => .close f ∈ rest ∧ Orderly rest
  | .stdout _ :: rest => Orderly rest
  | .flush :: rest => Orderly rest
  | .close _ :: rest => Orderly rest

theorem Orderly.append {as bs : List Act} (ha : Orderly as) (hb : Orderly bs) :
    Orderly (as ++ bs) := by
  induction as with
  | nil => exact hb
  | cons a as ih =>
      cases a with
      | stderr e => exact False.elim ha
      | «open» f => exact ⟨List.mem_append_left _ ha.1, ih ha.2⟩
      | write f t => exact ⟨List.mem_append_left _ ha.1, ih ha.2⟩
      | stdout t => exact ih ha
      | flush => exact ih ha
      | close f => exact ih ha

/-- What is to be opened is to be closed. -/
theorem Orderly.close_of_open {todo : List Act} {f : OutFile} (h : Orderly todo)
    (hopen : .open f ∈ todo) : .close f ∈ todo := by
  induction todo with
  | nil => cases hopen
  | cons a todo ih =>
      cases hopen with
      | head => exact List.mem_cons_of_mem _ h.1
      | tail _ hmem =>
          refine List.mem_cons_of_mem a (ih ?_ hmem)
          cases a with
          | stderr e => exact False.elim h
          | «open» g => exact h.2
          | write g t => exact h.2
          | stdout t => exact h
          | flush => exact h
          | close g => exact h

/-! ## The parts of the analyser -/

theorem orderly_bind {α β : Type} {x : Script α} {f : α → Script β} (hx : Orderly x.acts)
    (hf : ∀ a, Orderly (f a).acts) : Orderly (x >>= f).acts := by
  cases h : x.result with
  | ok a =>
      rw [Traced.bind_ok h]
      exact hx.append (hf a)
  | error e =>
      rw [Traced.bind_error h]
      exact hx

theorem orderly_lift {α : Type} (r : Except PyError α) :
    Orderly (Traced.lift r : Script α).acts := trivial

theorem orderly_say (t : Text) : Orderly (say t).acts := trivial

theorem orderly_dumpTo (f : OutFile) (v : Json) : Orderly (dumpTo f v).acts :=
  ⟨List.mem_cons_of_mem _ List.mem_cons_self, List.mem_cons_self, trivial⟩

theorem orderly_rounds (line : Nat → Text) (count j : Nat) : Orderly (rounds line count j) := by
  have hall : ∀ is : List Nat, Orderly (is.flatMap fun i => (say (line i)).acts) := by
    intro is
    induction is with
    | nil => trivial
    | cons i is ih => exact (orderly_say (line i)).append ih
  exact hall _

theorem orderly_of_makesRounds {α : Type} {x : Script α} {line : Nat → Text} {count n : Nat}
    (h : MakesRounds x line count n) : Orderly x.acts := by
  obtain ⟨j, _, hacts, _⟩ := h
  rw [hacts]
  exact orderly_rounds line count j

theorem orderly_extract (H : HashOrder) (user : Text) (doc : Document) :
    Orderly (extract H user doc).acts :=
  orderly_bind (orderly_of_makesRounds (threadLoop_rounds H _ doc 0 .empty)) fun _ =>
    orderly_bind (orderly_dumpTo _ _) fun _ => orderly_bind (orderly_say _) fun _ => trivial

theorem orderly_timeline (messages : List Message) : Orderly (timeline messages).acts := by
  have hentries : Orderly (timelineEntries messages).acts := by
    cases messages with
    | nil => trivial
    | cons m rest =>
        refine orderly_bind (orderly_lift _) fun date => ?_
        exact orderly_of_makesRounds (timelineLoop_rounds _ rest date _ 0 [])
  exact orderly_bind (orderly_say _) fun _ => orderly_bind hentries fun _ =>
    orderly_bind (orderly_say _) fun _ => orderly_bind (orderly_dumpTo _ _) fun _ => orderly_say _

theorem orderly_hour_histogram (messages : List Message) :
    Orderly (hour_histogram messages).acts :=
  orderly_bind (orderly_of_makesRounds (hourLoop_rounds _ messages 1 .empty)) fun _ =>
    orderly_bind (orderly_dumpTo _ _) fun _ => orderly_say _

theorem orderly_main (H : HashOrder) (user filepath : Text) (doc : Except PyError Document) :
    Orderly (main H user filepath doc).acts := by
  unfold main
  split
  · refine orderly_bind (orderly_lift _) fun d => ?_
    refine orderly_bind (orderly_extract H user d) fun fb => ?_
    refine orderly_bind (orderly_lift _) fun messages => ?_
    exact orderly_bind (orderly_timeline messages) fun _ =>
      orderly_bind (orderly_hour_histogram messages) fun _ => trivial
  · exact orderly_bind (orderly_say _) fun _ => trivial

/-! ## Runs with results -/

theorem open_mem_of_plan {r : Results} : ∀ {fs : List OutFile} {as : List Act}, Plan r fs as →
    ∀ f ∈ fs, .open f ∈ as
  | [], _, _, _, hf => absurd hf List.not_mem_nil
  | g :: fs, as, h, f, hf => by
      obtain ⟨before, after, _, rfl, hafter⟩ := h
      refine List.mem_append_right _ ?_
      cases List.mem_cons.mp hf with
      | inl heq =>
          rw [heq]
          exact List.mem_append_left _ List.mem_cons_self
      | inr hrest => exact List.mem_append_right _ (open_mem_of_plan hafter f hrest)

/-- A run with results is orderly, writes them, and ends normally. -/
theorem analyse_of_results {H : HashOrder} {user filepath : Text}
    {doc : Except PyError Document} {r : Results} (h : results H user filepath doc = some r) :
    Orderly (analyse H user filepath doc).acts ∧ (analyse H user filepath doc).code = 0 ∧
      ∀ f ∈ outFiles, .open f ∈ (analyse H user filepath doc).acts := by
  obtain ⟨d, fb, rfl, hne, hpath, hfb, _⟩ := extracted_of_results h
  obtain ⟨r', _, hmain, hplan⟩ := main_completes hpath hfb hne
  have hacts : analyse H user filepath (.ok d) =
      ⟨Act.stdout "yes\n".toList :: (main H user filepath (.ok d)).acts ++ [.flush], 0⟩ := by
    rw [analyse, hmain]
  rw [hacts]
  refine ⟨?_, rfl, fun f hf => ?_⟩
  · show Orderly (Act.stdout "yes\n".toList :: (main H user filepath (.ok d)).acts ++ [.flush])
    have hmain : Orderly (Act.stdout "yes\n".toList :: (main H user filepath (.ok d)).acts) :=
      orderly_main H user filepath (.ok d)
    exact hmain.append trivial
  · exact List.mem_append_left _ (List.mem_cons_of_mem _ (open_mem_of_plan hplan f hf))

end Analyser
