import FbTesting.Analyser.Outcome
import FbTesting.Analyser.Vocabulary
import FbTesting.Analyser.WordCount

/-!
# The file between the two word functions

`wordcount` dumps the collected texts to `wordDump.txt`, and `word_histogram` loads
them from there.  Both are dictionaries by sender, but JSON has only texts as names
of members: the key `None` is written as `null`.  When there are messages without a
sender and also a sender with the name `null`, the object that is written has two
members of one name, and of these the reader keeps the last.

So the texts come back just if this is not the case, or does no harm
(`word_dump_restores_iff`).  When they do, the histograms are about the messages:
each sender has the tokens of what it has written, as far as they occur in the
dictionary.
-/

namespace Analyser

open Base Python

/-! ## Reading the file -/

/-- A file that is opened with the mode `rU`. -/
def universalNewlines : Text → Text
  | [] => []
  | '\r' :: '\n' :: t => '\n' :: universalNewlines t
  | '\r' :: t => '\n' :: universalNewlines t
  | c :: t => c :: universalNewlines t

/-- A member of an object of texts. -/
def textMember (m : Text × Json) : Option (Text × Text) :=
  match m.2 with
  | .str t => some (m.1, t)
  | _ => none

/-- `loads(f2.read())`, where the file holds an object of texts. -/
def loadTexts (file : Text) : Option (Dict Text Text) :=
  match Json.parse (universalNewlines file) with
  | some (.obj ms) => (ms.mapM textMember).map Dict.empty.assignAll
  | _ => none

/-- The name of the member for a sender. -/
def memberName (user : Option Text) : Text := user.getD "null".toList

/-! ## The file is read back -/

theorem universalNewlines_eq_self {t : Text} (h : '\r' ∉ t) : universalNewlines t = t := by
  fun_induction universalNewlines t with
  | case1 => rfl
  | case2 t ih => exact absurd List.mem_cons_self h
  | case3 t hne ih => exact absurd List.mem_cons_self h
  | case4 c t hne hne' ih => rw [ih fun hm => h (List.mem_cons_of_mem c hm)]

/-- The members of the object become the entries, as the reader keeps them. -/
theorem loadTexts_dump (order : List (Option Text) → List (Option Text))
    (user_texts : Dict (Option Text) Text) :
    loadTexts (userTextsJson order user_texts).dump =
      some (Dict.empty.assignAll ((order user_texts.keys).map fun user =>
        (memberName user, (user_texts.get? user).getD []))) := by
  have hexact : (userTextsJson order user_texts).Exact :=
    exactMembers_map (fun _ => by simp [Json.Exact]) _
  have hreturn : '\r' ∉ (userTextsJson order user_texts).dump := fun hm =>
    absurd (Json.plain_dump _ hexact _ hm) (by decide)
  rw [loadTexts, universalNewlines_eq_self hreturn, Json.parse_dump hexact]
  have hmembers : ∀ ks : List (Option Text), (ks.map fun user =>
      (user.getD "null".toList, Json.str ((user_texts.get? user).getD []))).mapM textMember =
        some (ks.map fun user => (memberName user, (user_texts.get? user).getD [])) := by
    intro ks
    induction ks with
    | nil => rfl
    | cons user ks ih =>
        rw [List.map_cons, List.mapM_cons, ih]
        rfl
  exact congrArg (Option.map _) (hmembers _)

/-- Two senders of one name: the same, or none and one with the name `null`. -/
theorem memberName_eq {u v : Option Text} (h : memberName u = memberName v) :
    u = v ∨ (u = none ∧ v = some "null".toList) ∨ (u = some "null".toList ∧ v = none) := by
  cases u with
  | none =>
      cases v with
      | none => exact Or.inl rfl
      | some b => exact Or.inr (Or.inl ⟨rfl, congrArg some h.symm⟩)
  | some a =>
      cases v with
      | none => exact Or.inr (Or.inr ⟨congrArg some h, rfl⟩)
      | some b => exact Or.inl (congrArg some h)

section

variable {order : List (Option Text) → List (Option Text)} {messages : List Message}

/-- The texts of these senders, under their names. -/
def textsOf (messages : List Message) (senders : List (Option Text)) : Dict Text Text :=
  Dict.empty.assignAll
    (senders.map fun user => (memberName user, collected (sentBy user messages)))

/-- The texts that are loaded are those of the senders. -/
theorem wordDump_loaded (horder : ∀ ks, (order ks).Perm ks) (messages : List Message) :
    ∃ senders : List (Option Text), (∀ user, user ∈ senders ↔ ∃ m ∈ messages, m.sender = user) ∧
      loadTexts (wordcount order messages).wordDump = some (textsOf messages senders) := by
  have htally := tally_wordcount order messages
  refine ⟨order (wordcount order messages).user_texts.keys, fun user => ?_, ?_⟩
  · rw [(horder _).mem_iff, ← htally.keys_eq]
    exact htally.mem_keys user
  · have hload := loadTexts_dump order (wordcount order messages).user_texts
    simp only [htally.texts] at hload
    exact hload

/-- Messages without a sender do no harm to the file, or there is no sender with the
name `null`, or both have the same text. -/
def NullApart (messages : List Message) : Prop :=
  (∃ m ∈ messages, m.sender = none) → (∃ m ∈ messages, m.sender = some "null".toList) →
    collected (sentBy none messages) = collected (sentBy (some "null".toList) messages)

section

variable {senders : List (Option Text)}
  (hsenders : ∀ user, user ∈ senders ↔ ∃ m ∈ messages, m.sender = user)

include hsenders

/-- They have the names of the senders. -/
theorem mem_keys_textsOf (name : Text) :
    name ∈ (textsOf messages senders).keys ↔ ∃ m ∈ messages, memberName m.sender = name := by
  rw [Dict.mem_keys_iff]
  constructor
  · rintro ⟨t, ht⟩
    obtain ⟨user, huser, hpair⟩ := List.mem_map.mp (Dict.mem_of_get?_assignAll _ ht)
    obtain ⟨m, hm, rfl⟩ := (hsenders user).mp huser
    exact ⟨m, hm, congrArg Prod.fst hpair⟩
  · rintro ⟨m, hm, rfl⟩
    have huser := (hsenders m.sender).mpr ⟨m, hm, rfl⟩
    exact Dict.get?_assignAll_isSome _ (List.mem_map.mpr ⟨m.sender, huser, rfl⟩)

/-- Each sender has its own just if no two of different texts share a name. -/
theorem get?_textsOf_iff :
    (∀ m ∈ messages, (textsOf messages senders).get? (memberName m.sender) =
      some (collected (sentBy m.sender messages))) ↔ NullApart messages := by
  have hrenamed := Dict.get?_renamed_iff memberName
    (fun user => collected (sentBy user messages)) senders
  have hall : (∀ user ∈ senders, (textsOf messages senders).get? (memberName user) =
        some (collected (sentBy user messages))) ↔
      ∀ m ∈ messages, (textsOf messages senders).get? (memberName m.sender) =
        some (collected (sentBy m.sender messages)) := by
    constructor
    · exact fun h m hm => h m.sender ((hsenders _).mpr ⟨m, hm, rfl⟩)
    · intro h user huser
      obtain ⟨m, hm, rfl⟩ := (hsenders user).mp huser
      exact h m hm
  rw [← hall, textsOf, hrenamed]
  constructor
  · intro h hnone hnull
    exact h none ((hsenders _).mpr hnone) _ ((hsenders _).mpr hnull) rfl
  · intro h u hu v hv hname
    cases memberName_eq hname with
    | inl heq => rw [heq]
    | inr hboth =>
        rw [hsenders] at hu hv
        cases hboth with
        | inl hnone =>
            obtain ⟨rfl, rfl⟩ := hnone
            exact h hu hv
        | inr hnull =>
            obtain ⟨rfl, rfl⟩ := hnull
            exact (h hv hu).symm

end

/-- The texts of the senders come back from the file just if no two of different
texts share a name. -/
theorem word_dump_restores_iff (horder : ∀ ks, (order ks).Perm ks) (messages : List Message) :
    ∃ user_texts, loadTexts (wordcount order messages).wordDump = some user_texts ∧
      (∀ name, name ∈ user_texts.keys ↔ ∃ m ∈ messages, memberName m.sender = name) ∧
      ((∀ m ∈ messages, user_texts.get? (memberName m.sender) =
          some (collected (sentBy m.sender messages))) ↔ NullApart messages) := by
  obtain ⟨senders, hsenders, hload⟩ := wordDump_loaded horder messages
  exact ⟨_, hload, mem_keys_textsOf hsenders, get?_textsOf_iff hsenders⟩

end

/-- A message without a sender, and one of a sender with the name `null`. -/
def nullMessages : List Message :=
  [⟨none, "2014-01-16 20:15:00".toList, "aal".toList⟩,
    ⟨some (.ofText "null".toList), "2014-01-16 20:16:00".toList, "aardvark".toList⟩]

/-- The identity is an order of the senders. -/
theorem perm_id (ks : List (Option Text)) : (id ks).Perm ks := .refl ks

/-- One of the two texts is lost. -/
theorem word_dump_restores_iff_null :
    ∃ user_texts, loadTexts (wordcount id nullMessages).wordDump = some user_texts ∧
      ¬∀ m ∈ nullMessages, user_texts.get? (memberName m.sender) =
        some (collected (sentBy m.sender nullMessages)) := by
  obtain ⟨user_texts, hload, _, hrestores⟩ := word_dump_restores_iff perm_id nullMessages
  refine ⟨user_texts, hload, fun h => ?_⟩
  have hsame := hrestores.mp h ⟨_, List.mem_cons_self, rfl⟩
    ⟨_, List.mem_cons_of_mem _ List.mem_cons_self, rfl⟩
  revert hsame
  decide

/-- `wordcount` on a chat, and `word_histogram` on the file it has dumped. -/
def wordPasses (order : List (Option Text) → List (Option Text)) (C : CharData) (N : Nltk)
    (dict : Text) (H : HashOrder) (messages : List Message) : Option (Dict Text UserHisto) := do
  let user_texts ← loadTexts (wordcount order messages).wordDump
  let result ← (word_histogram C N dict H user_texts).toOption
  pure result.1

/-- With a dictionary of ASCII both passes go through, and there is a list for each
name of a sender.  When no two senders of different texts share a name, the words
listed for a sender are the tokens of what it has written that occur in the dictionary,
with their counts. -/
theorem wordPasses_lists {order : List (Option Text) → List (Option Text)}
    (horder : ∀ ks, (order ks).Perm ks) (C : CharData) (N : Nltk) {dict : Text}
    (hdict : IsAscii dict) (H : HashOrder) (messages : List Message) :
    ∃ user_histo, wordPasses order C N dict H messages = some user_histo ∧
      (∀ name, name ∈ user_histo.keys ↔ ∃ m ∈ messages, memberName m.sender = name) ∧
      (NullApart messages → ∀ m ∈ messages, ∃ h, user_histo.get? (memberName m.sender) = some h ∧
        h.vocab_size = h.histo.keys.length ∧ ∀ word n, h.histo.get? word = some n ↔
          word ∈ cleanTokens C N (collected (sentBy m.sender messages)) ∧ word <:+: dict ∧
            n = (cleanTokens C N (collected (sentBy m.sender messages))).count word) := by
  obtain ⟨senders, hsenders, hload⟩ := wordDump_loaded horder messages
  have hnames := mem_keys_textsOf hsenders
  generalize htexts : textsOf messages senders = user_texts at hload hnames
  have hall : ∀ user ∈ H.dict user_texts.keys, ∃ h,
      userHisto C N dict ((user_texts.get? user).getD []) = .ok h := fun user _ =>
    (userHisto_ok hdict _).imp fun _ h => h.1
  obtain ⟨r, hr⟩ := userHistoLoop_ok hall .empty
  have hpasses : wordPasses order C N dict H messages = some r := by
    simp [wordPasses, hload, word_histogram, hr, bind, Except.bind, Except.toOption]
  have hstored : ∀ user, (user ∈ user_texts.keys → ∃ h,
      userHisto C N dict ((user_texts.get? user).getD []) = .ok h ∧ r.get? user = some h) ∧
        (user ∉ user_texts.keys → r.get? user = none) := by
    intro user
    have hloop := userHistoLoop_get? hr user
    simp only [(H.dict_perm user_texts.keys).mem_iff] at hloop
    exact hloop
  refine ⟨r, hpasses, fun name => ?_, fun hnull m hm => ?_⟩
  · rw [← hnames, Dict.mem_keys_iff]
    constructor
    · rintro ⟨h, hget⟩
      by_contra hnot
      rw [(hstored name).2 hnot] at hget
      cases hget
    · intro hmem
      obtain ⟨h, _, hget⟩ := (hstored name).1 hmem
      exact ⟨h, hget⟩
  · obtain ⟨h, hok, hget⟩ := (hstored _).1 ((hnames _).mpr ⟨m, hm, rfl⟩)
    rw [← htexts, (get?_textsOf_iff hsenders).mpr hnull m hm, Option.getD_some] at hok
    obtain ⟨h', hok', hsize, hwords⟩ :=
      userHisto_ok (C := C) (N := N) hdict (collected (sentBy m.sender messages))
    rw [hok, Except.ok.injEq] at hok'
    exact ⟨h, hget, hok' ▸ hsize, hok' ▸ hwords⟩

/-- A message with a word of the dictionary. -/
def oneWord : List Message := [⟨none, "2014-01-16 20:15:00".toList, "an aardvark".toList⟩]

/-- It is listed for the sender that is not known. -/
theorem wordPasses_lists_one_word :
    ∃ user_histo h, wordPasses id .ascii .blanks firstLines .insertion oneWord = some user_histo ∧
      user_histo.get? "null".toList = some h ∧ h.histo.get? "aardvark".toList = some 1 := by
  have hnull : NullApart oneWord := by
    rintro _ ⟨m, hm, hs⟩
    rw [List.mem_singleton.mp hm] at hs
    cases hs
  have hascii : IsAscii firstLines := by decide
  obtain ⟨user_histo, hpasses, _, hlists⟩ :=
    wordPasses_lists perm_id .ascii .blanks hascii .insertion oneWord
  obtain ⟨h, hget, _, hwords⟩ := hlists hnull _ List.mem_cons_self
  exact ⟨user_histo, h, hpasses, hget, (hwords _ _).mpr (by decide +kernel)⟩

end Analyser
