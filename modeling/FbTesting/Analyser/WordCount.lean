import FbTesting.Analyser.Main

/-!
# The word counts of the users

`wordcount` goes once over the messages and keeps two dictionaries, each with a branch of
its own for a sender that is new.  `user_list` has the number of words and of messages of
each sender, and is returned; `user_texts` has the texts of each sender, a space after
each, and is dumped to a file that `word_histogram` reads later.

The two are kept in step.  `Tally` says what they hold after some messages; it is
kept by one more message (`Tally.step`), and so holds in the end (`tally_wordcount`).
The words are counted in the text of each message, and `length_splitOn_collected` compares
this with the words of the collected text: the spaces between the messages are counted
once, and the last one adds an empty word.
-/

namespace Analyser

open Base Python

/-! ## The function -/

/-- A sender as a key of a dictionary: strings are equal when their characters are. -/
def Message.sender (m : Message) : Option Text := m.user.map PyString.text

/-- What is counted for a sender. -/
structure UserCount where
  words : Nat
  messages : Nat
deriving DecidableEq

/-- The first branch: the text and a space are added to the texts of the sender. -/
def addText (user_texts : Dict (Option Text) Text) (m : Message) : Dict (Option Text) Text :=
  user_texts.update m.sender (m.text ++ [' ']) fun t => t ++ (m.text ++ [' '])

/-- The second branch: the words and the message are added to the counts of the sender. -/
def addCount (user_list : Dict (Option Text) UserCount) (m : Message) :
    Dict (Option Text) UserCount :=
  let num_words := wordCount m.text
  user_list.update m.sender ⟨num_words, 1⟩ fun c => ⟨c.words + num_words, c.messages + 1⟩

/-- The loop over the messages. -/
def wordcountLoop : List Message → Dict (Option Text) UserCount → Dict (Option Text) Text →
    Dict (Option Text) UserCount × Dict (Option Text) Text
  | [], user_list, user_texts => (user_list, user_texts)
  | m :: rest, user_list, user_texts =>
      let user_texts := addText user_texts m
      let user_list := addCount user_list m
      wordcountLoop rest user_list user_texts

/-- What `wordcount` returns and what it dumps to `wordDump.txt`. -/
structure WordCounts where
  user_list : Dict (Option Text) UserCount
  user_texts : Dict (Option Text) Text
  wordDump : Text

/-- The collected texts as `dump` sees them, with the keys in the order of the
dictionary. -/
def userTextsJson (order : List (Option Text) → List (Option Text))
    (user_texts : Dict (Option Text) Text) : Json :=
  .obj ((order user_texts.keys).map fun user =>
    (user.getD "null".toList, .str ((user_texts.get? user).getD [])))

/-- `wordcount`.  `order` is the order in which CPython lists the keys of a dictionary. -/
def wordcount (order : List (Option Text) → List (Option Text)) (messages : List Message) :
    WordCounts :=
  let (user_list, user_texts) := wordcountLoop messages .empty .empty
  ⟨user_list, user_texts, (userTextsJson order user_texts).dump⟩

/-! ## What a sender has written -/

/-- The messages of a sender. -/
def sentBy (user : Option Text) (ms : List Message) : List Message :=
  ms.filter fun m => m.sender = user

/-- The words of some messages. -/
def wordsIn (ms : List Message) : Nat := (ms.map fun m => wordCount m.text).sum

/-- The texts of some messages, a space after each. -/
def collected (ms : List Message) : Text := ms.flatMap fun m => m.text ++ [' ']

theorem sentBy_concat (user : Option Text) (ms : List Message) (m : Message) :
    sentBy user (ms ++ [m]) =
      if user = m.sender then sentBy user ms ++ [m] else sentBy user ms := by
  rw [sentBy, List.filter_append, List.filter_singleton]
  by_cases h : user = m.sender
  · rw [if_pos h, decide_eq_true h.symm]
    rfl
  · rw [if_neg h, decide_eq_false (Ne.symm h)]
    exact List.append_nil _

theorem wordsIn_concat (ms : List Message) (m : Message) :
    wordsIn (ms ++ [m]) = wordsIn ms + wordCount m.text := by
  rw [wordsIn, List.map_append, List.sum_append, List.map_singleton, List.sum_singleton]
  rfl

theorem collected_concat (ms : List Message) (m : Message) :
    collected (ms ++ [m]) = collected ms ++ (m.text ++ [' ']) := by
  rw [collected, List.flatMap_append, List.flatMap_singleton]
  rfl

/-- The collected text has one word more than the messages. -/
theorem length_splitOn_collected (ms : List Message) :
    ((collected ms).splitOn ' ').length = wordsIn ms + 1 := by
  induction ms with
  | nil => rfl
  | cons m ms ih =>
      have hcons : collected (m :: ms) = m.text ++ ' ' :: collected ms := by
        rw [collected, List.flatMap_cons, List.append_assoc]
        rfl
      have hwords : wordsIn (m :: ms) = wordCount m.text + wordsIn ms := by
        rw [wordsIn, List.map_cons, List.sum_cons]
        rfl
      rw [hcons, List.splitOn_append_cons_self, List.length_append, ih, hwords, wordCount,
        Nat.add_assoc]

/-! ## The loop -/

/-- What the dictionaries hold after some messages. -/
structure Tally (done : List Message) (user_list : Dict (Option Text) UserCount)
    (user_texts : Dict (Option Text) Text) : Prop where
  keys_eq : user_list.keys = user_texts.keys
  mem_keys : ∀ user, user ∈ user_list.keys ↔ ∃ m ∈ done, m.sender = user
  counts : ∀ user, (user_list.get? user).getD ⟨0, 0⟩ =
    ⟨wordsIn (sentBy user done), (sentBy user done).length⟩
  texts : ∀ user, (user_texts.get? user).getD [] = collected (sentBy user done)
  words_total : (user_list.entries.map fun e => e.2.words).sum = wordsIn done
  messages_total : (user_list.entries.map fun e => e.2.messages).sum = done.length

theorem tally_empty : Tally [] .empty .empty where
  keys_eq := rfl
  mem_keys _ := iff_of_false List.not_mem_nil fun ⟨_, hm, _⟩ => List.not_mem_nil hm
  counts _ := rfl
  texts _ := rfl
  words_total := rfl
  messages_total := rfl

/-- One more message is counted and collected under its sender. -/
theorem Tally.step {done : List Message} {user_list : Dict (Option Text) UserCount}
    {user_texts : Dict (Option Text) Text} (h : Tally done user_list user_texts) (m : Message) :
    Tally (done ++ [m]) (addCount user_list m) (addText user_texts m) where
  keys_eq := by rw [addCount, addText, Dict.keys_update, Dict.keys_update, h.keys_eq]
  mem_keys user := by
    have hdone : (∃ x ∈ done ++ [m], x.sender = user) ↔
        user ∈ user_list.keys ∨ m.sender = user := by
      simp only [List.mem_append, List.mem_singleton, or_and_right, exists_or, exists_eq_left,
        h.mem_keys]
    rw [hdone, addCount, Dict.keys_update]
    by_cases hm : m.sender ∈ user_list.keys
    · rw [if_pos hm]
      exact ⟨Or.inl, fun hor => hor.elim id fun heq => heq ▸ hm⟩
    · rw [if_neg hm, List.mem_append, List.mem_singleton, eq_comm]
  counts user := by
    have hupdate := Dict.getD_update user_list m.sender user ⟨0, 0⟩
      fun c => ⟨c.words + wordCount m.text, c.messages + 1⟩
    simp only [Nat.zero_add] at hupdate
    rw [addCount, hupdate, sentBy_concat]
    by_cases heq : user = m.sender
    · rw [if_pos heq, if_pos heq, ← heq, h.counts user, wordsIn_concat, List.length_append]
      rfl
    · rw [if_neg heq, if_neg heq, h.counts user]
  texts user := by
    rw [addText, sentBy_concat]
    refine (Dict.getD_update user_texts m.sender user [] fun t => t ++ (m.text ++ [' '])).trans ?_
    by_cases heq : user = m.sender
    · rw [if_pos heq, if_pos heq, ← heq, h.texts user, collected_concat]
    · rw [if_neg heq, if_neg heq, h.texts user]
  words_total := by
    rw [addCount, Dict.sum_update rfl fun _ => rfl, h.words_total, wordsIn_concat]
  messages_total := by
    rw [addCount, Dict.sum_update rfl fun _ => rfl, h.messages_total, List.length_append]
    rfl

theorem tally_wordcountLoop : ∀ (messages : List Message) {done : List Message}
    {user_list : Dict (Option Text) UserCount} {user_texts : Dict (Option Text) Text},
    Tally done user_list user_texts →
      Tally (done ++ messages) (wordcountLoop messages user_list user_texts).1
        (wordcountLoop messages user_list user_texts).2
  | [], done, user_list, user_texts, h => by
      rw [List.append_nil]
      exact h
  | m :: messages, done, user_list, user_texts, h => by
      have hrest := tally_wordcountLoop messages (h.step m)
      rwa [List.append_assoc] at hrest

theorem tally_wordcount (order : List (Option Text) → List (Option Text))
    (messages : List Message) :
    Tally messages (wordcount order messages).user_list (wordcount order messages).user_texts :=
  tally_wordcountLoop messages tally_empty

/-- `user_list` and `user_texts` have the senders as their keys.  For a sender the numbers
of messages and of words are those of the messages sent, the collected text is that of
these messages with a space after each, and it has one word more than was counted.  The
numbers of all senders add up to those of all messages. -/
theorem wordcount_agrees (order : List (Option Text) → List (Option Text))
    (messages : List Message) :
    ∃ user_list user_texts wordDump,
      wordcount order messages = ⟨user_list, user_texts, wordDump⟩ ∧
      user_list.keys = user_texts.keys ∧
      (∀ user, user ∈ user_list.keys ↔ ∃ m ∈ messages, m.sender = user) ∧
      (∀ user ∈ user_list.keys, ∃ count text,
        user_list.get? user = some count ∧ user_texts.get? user = some text ∧
        count.messages = (sentBy user messages).length ∧
        count.words = ((sentBy user messages).map fun m => (m.text.splitOn ' ').length).sum ∧
        text = (sentBy user messages).flatMap (fun m => m.text ++ [' ']) ∧
        (text.splitOn ' ').length = count.words + 1) ∧
      (user_list.entries.map fun e => e.2.messages).sum = messages.length ∧
      (user_list.entries.map fun e => e.2.words).sum =
        (messages.map fun m => (m.text.splitOn ' ').length).sum := by
  have h := tally_wordcount order messages
  refine ⟨(wordcount order messages).user_list, (wordcount order messages).user_texts,
    (wordcount order messages).wordDump, rfl, h.keys_eq, h.mem_keys, fun user hmem => ?_,
    h.messages_total, h.words_total⟩
  obtain ⟨count, hcount⟩ := Dict.mem_keys_iff.mp hmem
  obtain ⟨text, htext⟩ := Dict.mem_keys_iff.mp (h.keys_eq ▸ hmem)
  have hcounts := h.counts user
  rw [hcount, Option.getD_some] at hcounts
  have htexts := h.texts user
  rw [htext, Option.getD_some] at htexts
  refine ⟨count, text, hcount, htext, by rw [hcounts], by rw [hcounts]; rfl, htexts, ?_⟩
  rw [htexts, hcounts]
  exact length_splitOn_collected (sentBy user messages)

end Analyser
