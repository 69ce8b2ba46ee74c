import Mathlib.Data.Finset.Lattice.Lemmas
import FbTesting.Analyser.Outcome
import FbTesting.Analyser.WordCount

/-!
# Chat keys

A chat is stored under the text of a list of its senders.  The text determines the
list (`strList_injective`), and the list determines the set, in whatever order Python
goes through it.  So threads whose senders differ are stored under keys that differ,
and what is found under the key of a thread, whichever thread has written it last, has
the senders of that thread (`extract_chats_senders`).

The converse does not hold: one set may be listed in two orders.
-/

namespace Analyser

open Base Python

/-! ## Sets of senders -/

/-- Python lists the members of a set, each once, in some order. -/
def Lists (l : List (Option PyString)) (S : Finset (Option PyString)) : Prop :=
  (l : Multiset (Option PyString)) = S.val

/-- The names in a list of senders.  Strings are equal when their characters are. -/
def nameSet (ids : List (Option PyString)) : Finset (Option Text) :=
  (ids.map (Option.map PyString.text)).toFinset

/-- The senders of some messages. -/
def senders (ms : List Message) : Finset (Option Text) := (ms.map Message.sender).toFinset

/-- The loops store a thread under the key, with the messages they keep of it. -/
def StoredAs (H : HashOrder) (thread : Thread) (key : Text) (messages : List Message) : Prop :=
  ∃ userIDs, messageLoop thread [] [] = .ok (userIDs, messages) ∧ key = chatKey H userIDs

theorem nameSet_perm {l m : List (Option PyString)} (h : l.Perm m) : nameSet l = nameSet m :=
  List.toFinset_eq_of_perm _ _ (h.map _)

theorem nameSet_addUser (ids : List (Option PyString)) (user : Option PyString) :
    nameSet (addUser ids user) = insert (user.map PyString.text) (nameSet ids) := by
  rw [addUser]
  split
  · rename_i hany
    obtain ⟨u, hu, hsame⟩ := List.any_eq_true.mp hany
    have hmem : user.map PyString.text ∈ nameSet ids := by
      rw [nameSet, List.mem_toFinset, List.mem_map]
      exact ⟨u, hu, (beq_iff_eq.mp hsame).symm⟩
    exact (Finset.insert_eq_self.mpr hmem).symm
  · rw [nameSet, List.map_append, List.toFinset_append, Finset.union_comm]
    rfl

theorem senders_concat (ms : List Message) (m : Message) :
    senders (ms ++ [m]) = insert m.sender (senders ms) := by
  rw [senders, List.map_append, List.toFinset_append, Finset.union_comm]
  rfl

/-- The set that the message loop collects is that of the senders of what it keeps. -/
theorem messageLoop_nameSet (t : Thread) {ids : List (Option PyString)} {ms : List Message}
    (h : messageLoop t [] [] = .ok (ids, ms)) : nameSet ids = senders ms := by
  refine messageLoop_invariant (I := fun ids ms => nameSet ids = senders ms) ?_ t h rfl
  intro ids ms user date text hset
  rw [nameSet_addUser, senders_concat, hset]
  rfl

/-! ## Keys -/

/-- Threads that are stored under one key have the same senders. -/
theorem senders_of_storedAs {H H' : HashOrder} {s t : Thread} {key : Text} {ms ns : List Message}
    (hs : StoredAs H s key ms) (ht : StoredAs H' t key ns) : senders ms = senders ns := by
  obtain ⟨ids, hloop, hkey⟩ := hs
  obtain ⟨ids', hloop', hkey'⟩ := ht
  have hlist : H.set ids = H'.set ids' := strList_injective (hkey.symm.trans hkey')
  calc senders ms = nameSet ids := (messageLoop_nameSet s hloop).symm
    _ = nameSet (H.set ids) := nameSet_perm (H.set_perm ids).symm
    _ = nameSet (H'.set ids') := by rw [hlist]
    _ = nameSet ids' := nameSet_perm (H'.set_perm ids')
    _ = senders ns := messageLoop_nameSet t hloop'

/-- What the structure has under the key of a thread has the senders of the thread. -/
theorem extract_chats_senders {H : HashOrder} {user : Text} {doc : Document} {fb : Fb}
    (hfb : (extract H user doc).result = .ok fb) {t : Thread} (ht : t ∈ doc) :
    ∃ key ms, StoredAs H t key ms ∧ key ∈ fb.chats.keys ∧
      senders (fb.chats.listAt key) = senders ms := by
  obtain ⟨ks, hks, rfl⟩ := extract_kept hfb
  obtain ⟨k, hk, hloop⟩ := exists_of_forall₂ hks ht
  have hentry : k.entry H ∈ ks.map (Kept.entry H) := List.mem_map_of_mem hk
  obtain ⟨ms, hget⟩ := Dict.get?_assignAll_isSome _ hentry
  -- the last thread that was stored under the key
  obtain ⟨k', hk', hlast⟩ := List.mem_map.mp (Dict.mem_of_get?_assignAll _ hget)
  obtain ⟨s, _, hloop'⟩ := thread_of_kept hks hk'
  have hmsgs : k'.messages = ms := congrArg Prod.snd hlast
  have hs : StoredAs H s (chatKey H k.users) ms :=
    ⟨k'.users, hmsgs ▸ hloop', (congrArg Prod.fst hlast).symm⟩
  have hstored : StoredAs H t (chatKey H k.users) k.messages := ⟨k.users, hloop, rfl⟩
  have hchat : (Dict.empty.assignAll (ks.map (Kept.entry H))).listAt (chatKey H k.users) = ms :=
    congrArg (Option.getD · []) hget
  refine ⟨_, _, hstored, Dict.mem_keys_iff.mpr ⟨ms, hget⟩, ?_⟩
  exact (congrArg senders hchat).trans (senders_of_storedAs hs hstored)

/-- A key tells the senders of its chat: sets that are listed to the same text are the
same, threads stored under one key have the same senders, and of each thread the
structure has the senders under its key. -/
theorem chat_keys_identify :
    (∀ (S T : Finset (Option PyString)) (l m : List (Option PyString)), Lists l S → Lists m T →
      strList l = strList m → S = T) ∧
    (∀ (H H' : HashOrder) (s t : Thread) (key : Text) (ms ns : List Message),
      StoredAs H s key ms → StoredAs H' t key ns → senders ms = senders ns) ∧
    ∀ (H : HashOrder) (user : Text) (doc : Document) (fb : Fb),
      (extract H user doc).result = .ok fb → ∀ t ∈ doc, ∃ key ms, StoredAs H t key ms ∧
        key ∈ fb.chats.keys ∧ senders (fb.chats.listAt key) = senders ms := by
  refine ⟨?_, ?_, ?_⟩
  · intro S T l m hl hm htext
    have hlist := strList_injective htext
    subst hlist
    exact Finset.val_injective (hl.symm.trans hm)
  · intro H H' s t key ms ns hs ht
    exact senders_of_storedAs hs ht
  · intro H user doc fb hfb t ht
    exact extract_chats_senders hfb ht

end Analyser
