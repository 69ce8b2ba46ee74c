import FbTesting.Analyser.Extract

/-!
# The vocabulary of a user

`word_histogram` lower-cases the tokens of a user's text, keeps those of letters only,
counts them, and lists those that are `in dict`.  But `dict` is the text of the
dictionary file as a whole, so that the test asks whether a word occurs somewhere in
this text.  A line of the dictionary does; so does any part of a line.  The text is a
byte string, which is decoded as ASCII for the test, and a dictionary with other bytes
makes the test raise.

The tokens come from nltk, and what counts as a letter and how it is lower-cased from
the character database of Python.  Both are parameters here.
-/

namespace Analyser

open Base Python

/-! ## What the function uses -/

/-- The character database of Python. -/
structure CharData where
  lower : Char → Char
  isalpha : Char → Bool
  /-- What is lower-cased stays so. -/
  lower_lower : ∀ c, lower (lower c) = lower c

/-- `word.lower()`. -/
def CharData.lowerText (C : CharData) (word : Text) : Text := word.map C.lower

/-- `word.isalpha()`. -/
def CharData.isalphaText (C : CharData) (word : Text) : Bool := !word.isEmpty && word.all C.isalpha

/-- nltk. -/
structure Nltk where
  word_tokenize : Text → List Text
  /-- The keys of `FreqDist`, in its order. -/
  keys : List Text → List Text
  /-- They are the different tokens. -/
  keys_perm : ∀ tokens, (keys tokens).Perm tokens.dedup

/-- A byte string of ASCII characters. -/
def IsAscii (t : Text) : Prop := ∀ c ∈ t, c.toNat < 128

instance (t : Text) : Decidable (IsAscii t) := inferInstanceAs (Decidable (∀ c ∈ t, _))

/-- `word in dict` for a `unicode` and a byte string.  The error is a
`UnicodeDecodeError`. -/
def inString (word dict : Text) : Except PyError Bool :=
  if IsAscii dict then .ok (decide (word <:+: dict)) else .error .valueError

/-! ## The function -/

/-- What is written for a user. -/
structure UserHisto where
  vocab_size : Nat
  histo : Dict Text Nat

section

variable (C : CharData) (N : Nltk) (dict : Text)

/-- The list `clean_tokens`. -/
def cleanTokens (text : Text) : List Text :=
  ((N.word_tokenize text).map C.lowerText).filter C.isalphaText

/-- The loop over the keys of the frequency distribution of some tokens. -/
def actualWords (tokens : List Text) : List Text → Dict Text Nat → Except PyError (Dict Text Nat)
  | [], actual_words => .ok actual_words
  | word :: rest, actual_words => do
      let found ← inString (C.lowerText word) dict
      actualWords tokens rest
        (if found then actual_words.set word (tokens.count word) else actual_words)

/-- What is written for a user with this text. -/
def userHisto (text : Text) : Except PyError UserHisto := do
  let clean_tokens := cleanTokens C N text
  let actual_words ← actualWords C dict clean_tokens (N.keys clean_tokens) .empty
  .ok ⟨actual_words.entries.length, actual_words⟩

/-- The loop over the users. -/
def userHistoLoop (user_texts : Dict Text Text) :
    List Text → Dict Text UserHisto → Except PyError (Dict Text UserHisto)
  | [], user_histo => .ok user_histo
  | user :: rest, user_histo => do
      let h ← userHisto C N dict ((user_texts.get? user).getD [])
      userHistoLoop user_texts rest (user_histo.set user h)

/-- What is written for a user, as JSON. -/
def UserHisto.json (h : UserHisto) : Json :=
  .obj [("vocab_size".toList, .num h.vocab_size),
    ("histo".toList, .obj (h.histo.entries.map fun e => (e.1, .num e.2)))]

/-- The histograms as JSON. -/
def histoJson (H : HashOrder) (user_histo : Dict Text UserHisto) : Json :=
  .obj ((H.dict user_histo.keys).filterMap fun user =>
    (user_histo.get? user).map fun h => (user, h.json))

/-- `word_histogram`: the structure `user_histo`, and the text of the file that it is
dumped to. -/
def word_histogram (H : HashOrder) (user_texts : Dict Text Text) :
    Except PyError (Dict Text UserHisto × Text) := do
  let user_histo ← userHistoLoop C N dict user_texts (H.dict user_texts.keys) .empty
  .ok (user_histo, (histoJson H user_histo).dump)

/-- The histogram lists the tokens of the text that are lines of the dictionary, each
with its number of occurrences. -/
def ListsWords (text : Text) (h : UserHisto) : Prop :=
  (∀ word n, h.histo.get? word = some n ↔ word ∈ cleanTokens C N text ∧
    word ∈ dict.splitOn '\n' ∧ n = (cleanTokens C N text).count word) ∧
      h.vocab_size = h.histo.keys.length

end

/-! ## One user -/

section

variable {C : CharData} {N : Nltk} {dict : Text}

theorem lowerText_of_mem_cleanTokens {text word : Text} (h : word ∈ cleanTokens C N text) :
    C.lowerText word = word := by
  obtain ⟨token, _, rfl⟩ := List.mem_map.mp (List.mem_filter.mp h).1
  rw [CharData.lowerText, CharData.lowerText, List.map_map]
  exact List.map_congr_left fun c _ => C.lower_lower c

theorem mem_keys_nltk {tokens : List Text} {word : Text} : word ∈ N.keys tokens ↔ word ∈ tokens :=
  (N.keys_perm tokens).mem_iff.trans List.mem_dedup

/-- With an ASCII dictionary the loop lists the words that occur in its text. -/
theorem actualWords_ok (hdict : IsAscii dict) (tokens : List Text) :
    ∀ {keys : List Text}, (∀ w ∈ keys, C.lowerText w = w) → ∀ d : Dict Text Nat,
      ∃ d', actualWords C dict tokens keys d = .ok d' ∧
        ∀ w, d'.get? w = if w ∈ keys ∧ w <:+: dict then some (tokens.count w) else d.get? w
  | [], _, d => ⟨d, rfl, fun w => by rw [if_neg fun h => List.not_mem_nil h.1]⟩
  | word :: keys, hlower, d => by
      obtain ⟨hword, hkeys⟩ := List.forall_mem_cons.mp hlower
      obtain ⟨d', hd', hget⟩ := actualWords_ok hdict tokens hkeys
        (if decide (word <:+: dict) then d.set word (tokens.count word) else d)
      refine ⟨d', ?_, fun w => ?_⟩
      · rw [actualWords, hword, inString, if_pos hdict]
        exact hd'
      · rw [hget]
        by_cases hw : w = word
        · subst hw
          by_cases hin : w <:+: dict <;> simp [hin, Dict.get?_set]
        · by_cases hin : word <:+: dict <;> simp [hin, hw, Dict.get?_set]

/-- With any other dictionary the first word raises. -/
theorem actualWords_raises (hdict : ¬IsAscii dict) {tokens keys : List Text} (hne : keys ≠ [])
    (d : Dict Text Nat) : actualWords C dict tokens keys d = .error .valueError := by
  cases keys with
  | nil => exact absurd rfl hne
  | cons word keys =>
      rw [actualWords, inString, if_neg hdict]
      rfl

/-- With an ASCII dictionary the words that are listed for a user are the tokens that
occur in its text. -/
theorem userHisto_ok (hdict : IsAscii dict) (text : Text) :
    ∃ h, userHisto C N dict text = .ok h ∧ h.vocab_size = h.histo.keys.length ∧
      ∀ word n, h.histo.get? word = some n ↔ word ∈ cleanTokens C N text ∧ word <:+: dict ∧
        n = (cleanTokens C N text).count word := by
  obtain ⟨d, hd, hget⟩ := actualWords_ok (C := C) hdict (cleanTokens C N text)
    (fun w hw => lowerText_of_mem_cleanTokens (mem_keys_nltk.mp hw)) .empty
  refine ⟨⟨d.entries.length, d⟩, ?_, ?_, fun word n => ?_⟩
  · rw [userHisto, hd]
    rfl
  · exact (List.length_map _).symm
  · rw [hget, Dict.get?_empty]
    constructor
    · intro h
      obtain ⟨hword, hn⟩ := Option.ite_none_right_eq_some.mp h
      exact ⟨mem_keys_nltk.mp hword.1, hword.2, (Option.some.inj hn).symm⟩
    · rintro ⟨hword, hin, rfl⟩
      rw [if_pos ⟨mem_keys_nltk.mpr hword, hin⟩]

/-- The words of a user are listed as they should be exactly when the dictionary is
ASCII and no token is a part of a line only. -/
theorem userHisto_lists_iff (text : Text) :
    (∃ h, userHisto C N dict text = .ok h ∧ ListsWords C N dict text h) ↔
      ∀ word ∈ cleanTokens C N text,
        IsAscii dict ∧ (word <:+: dict → word ∈ dict.splitOn '\n') := by
  by_cases hdict : IsAscii dict
  · obtain ⟨h, hok, hsize, hget⟩ := userHisto_ok (C := C) (N := N) hdict text
    constructor
    · rintro ⟨h', hok', hlists⟩ word hword
      rw [hok, Except.ok.injEq] at hok'
      subst hok'
      refine ⟨hdict, fun hin => ?_⟩
      exact ((hlists.1 word _).mp ((hget word _).mpr ⟨hword, hin, rfl⟩)).2.1
    · intro hlines
      refine ⟨h, hok, fun word n => (hget word n).trans ?_, hsize⟩
      constructor
      · rintro ⟨hword, hin, hn⟩
        exact ⟨hword, (hlines word hword).2 hin, hn⟩
      · rintro ⟨hword, hline, hn⟩
        exact ⟨hword, infix_of_mem_splitOn hline, hn⟩
  · cases hclean : cleanTokens C N text with
    | nil =>
        have hkeys : N.keys [] = [] := (N.keys_perm []).eq_nil
        refine iff_of_true ⟨⟨0, .empty⟩, ?_, fun word n => ?_, rfl⟩
          fun _ h => absurd h List.not_mem_nil
        · rw [userHisto, hclean, hkeys]
          rfl
        · rw [hclean]
          exact iff_of_false nofun fun h => List.not_mem_nil h.1
    | cons word tokens =>
        have hne : N.keys (word :: tokens) ≠ [] :=
          List.ne_nil_of_mem (mem_keys_nltk.mpr List.mem_cons_self)
        refine iff_of_false ?_ fun h => hdict (h word List.mem_cons_self).1
        rintro ⟨h, hok, _⟩
        rw [userHisto, hclean, actualWords_raises hdict hne] at hok
        cases hok

/-! ## All users -/

variable {user_texts : Dict Text Text}

/-- The loop over users stores for each of them what is written for it. -/
theorem userHistoLoop_get? {users : List Text} : ∀ {acc r : Dict Text UserHisto},
    userHistoLoop C N dict user_texts users acc = .ok r → ∀ user,
      (user ∈ users → ∃ h, userHisto C N dict ((user_texts.get? user).getD []) = .ok h ∧
        r.get? user = some h) ∧ (user ∉ users → r.get? user = acc.get? user) := by
  induction users with
  | nil =>
      intro acc r hr user
      cases hr
      exact ⟨fun h => absurd h List.not_mem_nil, fun _ => rfl⟩
  | cons u users ih =>
      intro acc r hr user
      rw [userHistoLoop] at hr
      cases hu : userHisto C N dict ((user_texts.get? u).getD []) with
      | error e =>
          rw [hu] at hr
          cases hr
      | ok h =>
          rw [hu] at hr
          obtain ⟨hlater, hkept⟩ := ih hr user
          by_cases hmem : user ∈ users
          · exact ⟨fun _ => hlater hmem, fun hn => absurd (List.mem_cons_of_mem u hmem) hn⟩
          · rw [Dict.get?_set] at hkept
            constructor
            · intro hcons
              have heq : user = u := (List.mem_cons.mp hcons).resolve_right hmem
              refine ⟨h, heq ▸ hu, ?_⟩
              rw [hkept hmem, if_pos heq]
            · intro hn
              have hne : user ≠ u := fun heq => hn (heq ▸ List.mem_cons_self)
              rw [hkept hmem, if_neg hne]

theorem userHistoLoop_ok {users : List Text}
    (h : ∀ user ∈ users, ∃ h, userHisto C N dict ((user_texts.get? user).getD []) = .ok h) :
    ∀ acc, ∃ r, userHistoLoop C N dict user_texts users acc = .ok r := by
  induction users with
  | nil => exact fun acc => ⟨acc, rfl⟩
  | cons u users ih =>
      intro acc
      obtain ⟨⟨hu, hok⟩, hrest⟩ := List.forall_mem_cons.mp h
      rw [userHistoLoop, hok]
      exact ih hrest _

theorem mem_users {H : HashOrder} {user : Text} :
    user ∈ H.dict user_texts.keys ↔ ∃ text, user_texts.get? user = some text :=
  (H.dict_perm _).mem_iff.trans Dict.mem_keys_iff

/-- The vocabulary of every user has exactly the tokens that are lines of the
dictionary, with their counts, if and only if no token occurs in the text of the
dictionary without being a line of it; and if there is a token, the dictionary has to
be ASCII. -/
theorem word_histogram_lists_iff (C : CharData) (N : Nltk) (dict : Text) (H : HashOrder)
    (user_texts : Dict Text Text) :
    (∃ user_histo file, word_histogram C N dict H user_texts = .ok (user_histo, file) ∧
      ∀ user text, user_texts.get? user = some text →
        ∃ h, user_histo.get? user = some h ∧ ListsWords C N dict text h) ↔
      ∀ user text, user_texts.get? user = some text → ∀ word ∈ cleanTokens C N text,
        IsAscii dict ∧ (word <:+: dict → word ∈ dict.splitOn '\n') := by
  constructor
  · rintro ⟨user_histo, file, hok, hlists⟩ user text htext
    rw [← userHisto_lists_iff]
    obtain ⟨h, hget, hlist⟩ := hlists user text htext
    rw [word_histogram] at hok
    cases hloop : userHistoLoop C N dict user_texts (H.dict user_texts.keys) .empty with
    | error e =>
        rw [hloop] at hok
        cases hok
    | ok r =>
        rw [hloop] at hok
        cases hok
        obtain ⟨h', hh', hget'⟩ := (userHistoLoop_get? hloop user).1 (mem_users.mpr ⟨text, htext⟩)
        rw [htext, Option.getD_some] at hh'
        rw [hget, Option.some.injEq] at hget'
        exact ⟨h', hh', hget' ▸ hlist⟩
  · intro hlines
    have hall : ∀ user ∈ H.dict user_texts.keys, ∃ h,
        userHisto C N dict ((user_texts.get? user).getD []) = .ok h := by
      intro user hmem
      obtain ⟨text, htext⟩ := mem_users.mp hmem
      obtain ⟨h, hok, _⟩ := (userHisto_lists_iff text).mpr (hlines user text htext)
      exact ⟨h, by rw [htext, Option.getD_some, hok]⟩
    obtain ⟨r, hr⟩ := userHistoLoop_ok hall .empty
    refine ⟨r, (histoJson H r).dump, ?_, fun user text htext => ?_⟩
    · rw [word_histogram, hr]
      rfl
    · obtain ⟨h, hok, hlist⟩ := (userHisto_lists_iff text).mpr (hlines user text htext)
      obtain ⟨h', hh', hget⟩ := (userHistoLoop_get? hr user).1 (mem_users.mpr ⟨text, htext⟩)
      rw [htext, Option.getD_some, hok, Except.ok.injEq] at hh'
      exact ⟨h', hget, hh' ▸ hlist⟩

end

/-- Letters and lower case as they are in ASCII. -/
def CharData.ascii : CharData where
  lower := Char.toLower
  isalpha := Char.isAlpha
  lower_lower := toLower_toLower

/-- A tokenizer that splits at blanks. -/
def Nltk.blanks : Nltk := ⟨fun t => t.splitOn ' ', List.dedup, fun _ => .refl _⟩

/-- The first lines of the dictionary. -/
def firstLines : Text := "A\na\naa\naal\naalii\naam\nAani\naardvark\naardwolf".toList

/-- A user who has written a part of a word. -/
def partOfWord : Dict Text Text := Dict.empty.set "User".toList "vark".toList

/-- A part of a line is listed as a word. -/
theorem vocabulary_has_part_of_word :
    ¬∃ user_histo file,
      word_histogram .ascii .blanks firstLines .insertion partOfWord = .ok (user_histo, file) ∧
        ∀ user text, partOfWord.get? user = some text →
          ∃ h, user_histo.get? user = some h ∧ ListsWords .ascii .blanks firstLines text h := by
  rintro ⟨user_histo, file, hok, hlists⟩
  obtain ⟨h, hget, hwords, _⟩ := hlists "User".toList "vark".toList rfl
  have hlisted : h.histo.get? "vark".toList = some 1 := by
    cases hok
    cases hget
    decide +kernel
  have hline := ((hwords _ _).mp hlisted).2.1
  revert hline
  decide

end Analyser
