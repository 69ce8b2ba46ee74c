import FbTesting.Browser.Target
import FbTesting.Server.Search

/-!
# Searching for a participant

The text that is typed into the search box is put behind `livesearch.js?q=`
unescaped, and the server looks for what it reads of it in the keys of the chats.
A key has the names as `repr` writes them, between quotes that depend on the name.

A chat with a participant whose name contains the typed text should be found.  For
a typed text `q` this is so for every chat exactly when what the server reads
occurs in `q` as `repr` writes it, with either quote, or in every key anyhow
(`Findable`).  In one direction the name contains `q` and is written character by
character.  In the other direction there are names that have `q` between long runs
of one letter, so that what the server reads is found in the part of `q` or in the
frame around the name.
-/

namespace Browser

open Base Node Python Analyser Server

/-! ## The search -/

/-- The target that `showResult` asks for, given the typed text. -/
def searchTarget (str : Text) : Option Text :=
  if str = [] then none else some (target (reference "livesearch.js".toList str))

/-- What the server reads of the typed text. -/
def received (q : Text) : Text :=
  queryText (target (reference "livesearch.js".toList q)) "q".toList

/-- Every chat with a message of a sender whose name contains `q` is answered. -/
def Finds (q : Text) : Prop :=
  ∀ (H : HashOrder) (user : Text) (doc : Document) (fb : Fb) (userData : Text → Option Json)
    (A : SessionID), (extract H user doc).result = .ok fb → userData A.text = some (fb.json H) →
    ∀ key ∈ fb.chats.keys, ∀ m ∈ fb.chats.listAt key, ∀ s : PyString, m.user = some s →
      q <:+: s.text → ∃ url results, searchTarget q = some url ∧
        livesearch userData A url = .ok results ∧ key ∈ results

/-- What stands before a name that contains `q`. -/
def mark (q : Text) : Text := if ∀ c ∈ q, c.toNat < 128 then [] else ['u']

/-- The texts that every key has that has a name with `q` between the given quotes:
the brackets and the single quote, which stands around the name or in it.  A name
with `q` between single quotes has a double quote, too, if `q` has a single one. -/
def frame (quote : Char) (q : Text) : List Text :=
  [[], ['['], [']'], ['\'']] ++ (if quote = '"' ∨ '\'' ∈ q then [['"']] else []) ++
    (if mark q = [] then [] else [['u'], ['u', quote]])

/-- What the server reads is in every key that has a name with `q` between the
given quotes. -/
def FoundBetween (quote : Char) (q : Text) : Prop :=
  received q ∈ frame quote q ∨ received q <:+: reprBody quote q

/-- What the server reads is found with either quote.  A name with a double quote
stands between single ones. -/
def Findable (q : Text) : Prop :=
  FoundBetween '\'' q ∧ ('"' ∈ q ∨ FoundBetween '"' q)

instance (quote : Char) (q : Text) : Decidable (FoundBetween quote q) :=
  inferInstanceAs (Decidable (_ ∨ _))

instance (q : Text) : Decidable (Findable q) := inferInstanceAs (Decidable (_ ∧ _))

/-! ## Names in keys -/

theorem repr_infix_strTail {s : PyString} : ∀ {l : List (Option PyString)}, some s ∈ l →
    repr s <:+: strTail l
  | a :: l, h => by
      rcases List.mem_cons.mp h with rfl | h
      · exact ⟨[',', ' '], strTail l, rfl⟩
      · obtain ⟨x, y, hxy⟩ := repr_infix_strTail h
        exact ⟨',' :: ' ' :: (reprElem a ++ x), y, by simp [strTail, ← hxy]⟩

/-- A key has each of its names. -/
theorem repr_infix_strList {s : PyString} {l : List (Option PyString)} (h : some s ∈ l) :
    repr s <:+: strList l := by
  cases l with
  | nil => cases h
  | cons a l =>
      rcases List.mem_cons.mp h with rfl | h
      · exact ⟨['['], strTail l, rfl⟩
      · obtain ⟨x, y, hxy⟩ := repr_infix_strTail h
        exact ⟨'[' :: (reprElem a ++ x), y, by simp [strList, ← hxy]⟩

theorem reprBody_infix_repr (s : PyString) : reprBody (reprQuote s.text) s.text <:+: repr s :=
  ⟨(if s.unicode then ['u'] else []) ++ [reprQuote s.text], [reprQuote s.text], by simp [Python.repr]⟩

/-- A part of a name is written as a part of it. -/
theorem infix_reprBody {quote : Char} {t u : Text} (h : t <:+: u) :
    reprBody quote t <:+: reprBody quote u := by
  obtain ⟨x, y, rfl⟩ := h
  exact ⟨reprBody quote x, reprBody quote y, by simp⟩

theorem infix_of_mem {c : Char} {t : Text} (h : c ∈ t) : [c] <:+: t := by
  obtain ⟨x, y, rfl⟩ := List.append_of_mem h
  exact ⟨x, y, by simp⟩

theorem mem_reprBody {quote c : Char} {t : Text} (hc : reprChar quote c = [c]) (h : c ∈ t) :
    c ∈ reprBody quote t :=
  List.mem_flatMap.mpr ⟨c, h, by rw [hc]; exact List.mem_cons_self⟩

theorem reprQuote_mem_repr (s : PyString) : reprQuote s.text ∈ repr s := by simp [Python.repr]

/-- Every name is written with a single quote, around it or in it. -/
theorem singleQuote_mem_repr (s : PyString) : '\'' ∈ repr s := by
  cases hq : decide ('\'' ∈ s.text ∧ '"' ∉ s.text) with
  | true =>
      have h := of_decide_eq_true hq
      have hquote : reprQuote s.text = '"' := if_pos h
      refine (reprBody_infix_repr s).subset ?_
      rw [hquote]
      exact mem_reprBody (by decide) h.1
  | false =>
      have hquote : reprQuote s.text = '\'' := if_neg (of_decide_eq_false hq)
      exact hquote ▸ reprQuote_mem_repr s

/-- A name with a single quote is written with a double quote if it stands between
double quotes or has one. -/
theorem doubleQuote_mem_repr {s : PyString} (h : reprQuote s.text = '"' ∨ '\'' ∈ s.text) :
    '"' ∈ repr s := by
  by_cases hmem : '"' ∈ s.text
  · have hquote : reprQuote s.text = '\'' := if_neg fun hq => hq.2 hmem
    refine (reprBody_infix_repr s).subset ?_
    rw [hquote]
    exact mem_reprBody (by decide) hmem
  · have hquote : reprQuote s.text = '"' := by
      rcases h with h | h
      · exact h
      · exact if_pos ⟨h, hmem⟩
    exact hquote ▸ reprQuote_mem_repr s

theorem unicode_of_mark {s : PyString} {q : Text} (hq : q <:+: s.text) (h : mark q ≠ []) :
    s.unicode = true := by
  by_contra hu
  refine h (if_pos fun c hc => ?_)
  exact s.ascii (by simpa using hu) c (hq.subset hc)

/-! ## What is findable is found -/

theorem bracket_infix_strList (l : List (Option PyString)) :
    ['['] <:+: strList l ∧ [']'] <:+: strList l := by
  have hclose : ∀ l : List (Option PyString), ']' ∈ strTail l := by
    intro l
    induction l with
    | nil => exact List.mem_cons_self
    | cons a l ih => simp [strTail, ih]
  cases l with
  | nil => decide
  | cons a l =>
      refine ⟨infix_of_mem List.mem_cons_self, infix_of_mem ?_⟩
      exact List.mem_cons_of_mem _ (List.mem_append_right _ (hclose l))

/-- The texts of the frame are in every key. -/
theorem infix_of_mem_frame {q d : Text} {s : PyString} {l : List (Option PyString)}
    (hs : some s ∈ l) (hq : q <:+: s.text) (hd : d ∈ frame (reprQuote s.text) q) :
    d <:+: strList l := by
  have hrepr := repr_infix_strList hs
  rcases List.mem_append.mp hd with hd | hd
  · rcases List.mem_append.mp hd with hd | hd
    · simp only [List.mem_cons, List.not_mem_nil, or_false] at hd
      rcases hd with rfl | rfl | rfl | rfl
      · exact List.nil_infix
      · exact (bracket_infix_strList l).1
      · exact (bracket_infix_strList l).2
      · exact (infix_of_mem (singleQuote_mem_repr s)).trans hrepr
    · split at hd
      · rename_i hcond
        rw [List.mem_singleton.mp hd]
        exact (infix_of_mem (doubleQuote_mem_repr
          (hcond.imp_right fun h => hq.subset h))).trans hrepr
      · cases hd
  · split at hd
    · cases hd
    · rename_i hmark
      have hu := unicode_of_mark hq hmark
      simp only [List.mem_cons, List.not_mem_nil, or_false] at hd
      rcases hd with rfl | rfl
      · exact (infix_of_mem (by simp [Python.repr, hu])).trans hrepr
      · refine List.IsInfix.trans ?_ hrepr
        exact ⟨[], reprBody (reprQuote s.text) s.text ++ [reprQuote s.text], by simp [Python.repr, hu]⟩

theorem infix_of_foundBetween {q : Text} {s : PyString} {l : List (Option PyString)}
    (hs : some s ∈ l) (hq : q <:+: s.text) (h : FoundBetween (reprQuote s.text) q) :
    received q <:+: strList l := by
  rcases h with h | h
  · exact infix_of_mem_frame hs hq h
  · exact ((h.trans (infix_reprBody hq)).trans (reprBody_infix_repr s)).trans (repr_infix_strList hs)

theorem infix_of_findable {q : Text} {s : PyString} {l : List (Option PyString)}
    (hs : some s ∈ l) (hq : q <:+: s.text) (h : Findable q) : received q <:+: strList l := by
  refine infix_of_foundBetween hs hq ?_
  cases hquote : decide ('\'' ∈ s.text ∧ '"' ∉ s.text) with
  | false =>
      have hd : reprQuote s.text = '\'' := if_neg (of_decide_eq_false hquote)
      exact hd.symm ▸ h.1
  | true =>
      have hcond := of_decide_eq_true hquote
      have hd : reprQuote s.text = '"' := if_pos hcond
      exact hd.symm ▸ h.2.resolve_left fun hm => hcond.2 (hq.subset hm)

theorem fileName_livesearch : FileName "livesearch.js".toList := by decide

theorem finds_of_findable {q : Text} (hne : q ≠ []) (h : Findable q) : Finds q := by
  intro H user doc fb userData A hfb hdata key hkey m hm s hs hq
  obtain ⟨l, rfl, hsenders⟩ := key_of_extract hfb hkey
  obtain ⟨u, hu, hsame⟩ := hsenders m hm
  -- the list has a string with the characters of the sender's name
  obtain ⟨s', rfl, htext⟩ : ∃ s', u = some s' ∧ s'.text = s.text := by
    rw [hs] at hsame
    cases u with
    | none => simp [sameName] at hsame
    | some s' =>
        have heq : s.text = s'.text := by simpa [sameName] using hsame
        exact ⟨s', rfl, heq.symm⟩
  obtain ⟨results, hresults, hmem⟩ :=
    livesearch_stored hfb hdata (parse_target fileName_livesearch q)
  refine ⟨_, results, if_neg hne, hresults, (hmem _).mpr ⟨hkey, ?_⟩⟩
  exact decide_eq_true (infix_of_findable hu (htext ▸ hq) h)

/-! ## Chats with given senders -/

/-- A thread in which each of the senders says something. -/
def threadOf (l : List (Option PyString)) : SourceThread :=
  l.map fun u => ⟨u, sampleStamp, some []⟩

/-- No two senders have one name. -/
def Distinct (l : List (Option PyString)) : Prop := l.Pairwise fun a b => sameName b a = false

theorem foldl_addUser (l : List (Option PyString)) : ∀ ids, Distinct (ids ++ l) →
    l.foldl addUser ids = ids ++ l := by
  induction l with
  | nil => intro ids _; rw [List.append_nil]; rfl
  | cons u l ih =>
      intro ids h
      have hnew : ids.any (sameName u) = false := by
        rw [List.any_eq_false]
        intro a ha
        have hpair := (List.pairwise_append.mp h).2.2 a ha u List.mem_cons_self
        rw [hpair]
        exact Bool.false_ne_true
      have happend : ids ++ u :: l = ids ++ [u] ++ l := by simp
      rw [List.foldl_cons, addUser, if_neg (by rw [hnew]; decide), happend]
      exact ih (ids ++ [u]) (happend ▸ h)

theorem records_threadOf (l : List (Option PyString)) :
    records (threadOf l) = l.map fun u => ⟨u, sampleStamp.stored.str, []⟩ := by
  rw [records, threadOf, List.filterMap_map]
  exact List.filterMap_eq_map ▸ rfl

theorem senderSet_threadOf {l : List (Option PyString)} (h : Distinct l) :
    senderSet (records (threadOf l)) = l := by
  rw [records_threadOf, senderSet, List.foldl_map]
  exact foldl_addUser l [] h

/-- The data of the sessions, each of them with the same structure. -/
def dataOf (fb : Fb) : Text → Option Json := fun _ => some (fb.json .insertion)

/-- If every chat is found, what the server reads is in the key of a chat with
given senders. -/
theorem infix_of_finds {q : Text} (h : Finds q) {l : List (Option PyString)} (hl : Distinct l)
    {s : PyString} (hs : some s ∈ l) (hq : q <:+: s.text) : received q <:+: strList l := by
  have hfb := extract_result .insertion [] (forall₂_kept [threadOf l])
  have hentry : ([threadOf l].map SourceThread.kept).map (Kept.entry .insertion) =
      [(strList l, records (threadOf l))] := by
    simp only [List.map_cons, List.map_nil, SourceThread.kept, Kept.entry, senderSet_threadOf hl]
    rfl
  rw [hentry] at hfb
  have hget : (Dict.empty.assignAll [(strList l, records (threadOf l))]).get? (strList l) =
      some (records (threadOf l)) := by
    rw [← List.nil_append [(strList l, records (threadOf l))], Dict.assignAll_concat, Dict.get?_set,
      if_pos rfl]
  have hm : (⟨some s, sampleStamp.stored.str, []⟩ : Message) ∈
      (Dict.empty.assignAll [(strList l, records (threadOf l))]).listAt (strList l) := by
    rw [Dict.listAt, hget, Option.getD_some, records_threadOf]
    exact List.mem_map_of_mem hs
  have hdata : ∀ fb, dataOf fb sampleSession.text = some (fb.json .insertion) := fun _ => rfl
  obtain ⟨url, results, hurl, hresults, hmem⟩ := h .insertion [] _ _ _ sampleSession hfb (hdata _)
    (strList l) (Dict.mem_keys_iff.mpr ⟨_, hget⟩) _ hm s rfl hq
  obtain ⟨u, hparse⟩ := parse_of_livesearch hresults
  obtain ⟨results', hresults', hiff⟩ := livesearch_stored hfb (hdata _) hparse
  rw [hresults, Except.ok.injEq] at hresults'
  subst hresults'
  have hcontains := of_decide_eq_true ((hiff _).mp hmem).2
  unfold searchTarget at hurl
  split at hurl
  · cases hurl
  · cases hurl
    exact hcontains

/-! ## Names with the typed text between runs of a letter -/

/-- The infixes of a text. -/
def infixes (t : Text) : List Text := t.tails.flatMap List.inits

theorem mem_infixes {d t : Text} : d ∈ infixes t ↔ d <:+: t := by
  rw [infixes, List.mem_flatMap, List.infix_iff_prefix_suffix]
  constructor
  · rintro ⟨u, hu, hd⟩
    exact ⟨u, (List.mem_inits _ _).mp hd, (List.mem_tails _ _).mp hu⟩
  · rintro ⟨u, hd, hu⟩
    exact ⟨u, (List.mem_tails _ _).mpr hu, (List.mem_inits _ _).mpr hd⟩

/-- A letter that a text neither begins nor ends with. -/
theorem exists_letter (d : Text) :
    ∃ z ∈ ['a', 'b', 'c'], d.head? ≠ some z ∧ d.getLast? ≠ some z := by
  by_contra h
  push Not at h
  have ha := h 'a' (by decide)
  have hb := h 'b' (by decide)
  have hc := h 'c' (by decide)
  cases hhead : d.head? with
  | none =>
      have h1 := ha (by rw [hhead]; nofun)
      have h2 := hb (by rw [hhead]; nofun)
      rw [h1] at h2
      exact absurd h2 (by decide)
  | some x =>
      rw [hhead] at ha hb hc
      by_cases hxa : x = 'a'
      · subst hxa
        have h1 := hb (by decide)
        have h2 := hc (by decide)
        rw [h1] at h2
        exact absurd h2 (by decide)
      · have h1 := ha (by simpa using hxa)
        by_cases hxb : x = 'b'
        · subst hxb
          have h2 := hc (by decide)
          rw [h1] at h2
          exact absurd h2 (by decide)
        · have h2 := hb (by simpa using hxb)
          rw [h1] at h2
          exact absurd h2 (by decide)

/-- The typed text and a further text, between runs of a letter. -/
def spaced (n : Nat) (z : Char) (q c : Text) : Text :=
  List.replicate n z ++ (q ++ (List.replicate n z ++ (c ++ List.replicate n z)))

theorem infix_spaced (n : Nat) (z : Char) (q c : Text) : q <:+: spaced n z q c :=
  ⟨List.replicate n z, List.replicate n z ++ (c ++ List.replicate n z), by simp [spaced]⟩

theorem mem_spaced {n : Nat} {z x : Char} {q c : Text} (h : x ∈ spaced n z q c) :
    x = z ∨ x ∈ q ∨ x ∈ c := by
  simp only [spaced, List.mem_append, List.mem_replicate] at h
  tauto

theorem mem_spaced_of_mem {n : Nat} {z x : Char} {q c : Text} (h : x ∈ c) : x ∈ spaced n z q c := by
  simp [spaced, h]

theorem reprChar_letter {quote z : Char} (hquote : quote = '\'' ∨ quote = '"')
    (hz : z ∈ ['a', 'b', 'c']) : reprChar quote z = [z] := by
  rcases hquote with rfl | rfl
  · exact (by decide : ∀ z ∈ ['a', 'b', 'c'], reprChar '\'' z = [z]) z hz
  · exact (by decide : ∀ z ∈ ['a', 'b', 'c'], reprChar '"' z = [z]) z hz

theorem reprBody_replicate {quote z : Char} (h : reprChar quote z = [z]) (n : Nat) :
    reprBody quote (List.replicate n z) = List.replicate n z := by
  induction n with
  | zero => rfl
  | succ n ih => rw [List.replicate_succ, reprBody_cons, h, ih]; rfl

theorem repr_ofText (t : Text) :
    repr (PyString.ofText t) = mark t ++ reprQuote t :: (reprBody (reprQuote t) t ++ [reprQuote t]) := by
  unfold PyString.ofText
  split
  · rename_i h
    rw [mark, if_pos h]
    rfl
  · rename_i h
    rw [mark, if_neg h]
    rfl

section

variable {q d c : Text} {z quote : Char} (hz : z ∈ ['a', 'b', 'c'])

include hz

theorem mark_spaced (hc : ∀ x ∈ c, x.toNat < 128) (n : Nat) : mark (spaced n z q c) = mark q := by
  have hletter : z.toNat < 128 := (by decide : ∀ z ∈ ['a', 'b', 'c'], z.toNat < 128) z hz
  unfold mark
  refine if_congr ⟨fun h x hx => h x ((infix_spaced n z q c).subset hx), fun h x hx => ?_⟩ rfl rfl
  rcases mem_spaced hx with rfl | hx | hx
  · exact hletter
  · exact h x hx
  · exact hc x hx

/-- What is in a text around such a name is in the typed text as it is written, in
the further text, or in the frame. -/
theorem infix_parts (hhead : d.head? ≠ some z) (hlast : d.getLast? ≠ some z)
    (hquote : quote = '\'' ∨ quote = '"') (hc : reprBody quote c = c)
    (hname : reprQuote (spaced d.length z q c) = quote) (hascii : ∀ x ∈ c, x.toNat < 128)
    {front back : Text}
    (h : d <:+: front ++ (repr (PyString.ofText (spaced d.length z q c)) ++ back)) :
    d <:+: front ++ (mark q ++ [quote]) ∨ d <:+: reprBody quote q ∨ d <:+: c ∨
      d <:+: quote :: back := by
  have hrun := reprBody_replicate (reprChar_letter hquote hz) d.length
  rw [repr_ofText, hname, mark_spaced hz hascii, spaced] at h
  simp only [reprBody_append, hrun, hc] at h
  have hform : d <:+: (front ++ (mark q ++ [quote])) ++ (List.replicate d.length z ++
      (reprBody quote q ++ (List.replicate d.length z ++
        (c ++ (List.replicate d.length z ++ quote :: back))))) := by
    simpa using h
  rcases infix_of_padded (Nat.le_refl _) hhead hlast hform with h | h
  · exact Or.inl h
  · rcases infix_of_padded (Nat.le_refl _) hhead hlast h with h | h
    · exact Or.inr (Or.inl h)
    · rcases infix_of_padded (Nat.le_refl _) hhead hlast h with h | h
      · exact Or.inr (Or.inr (Or.inl h))
      · exact Or.inr (Or.inr (Or.inr h))

end

/-! ## What is found is findable -/

/-- A quote and the other one. -/
def quotePairs : List (Char × Char) := [('\'', '"'), ('"', '\'')]

/-- The texts that are in the frames of a chat with one sender and of two chats
with an unnamed one before or after it. -/
theorem frames_meet {quote other : Char} {m d : Text} (hpair : (quote, other) ∈ quotePairs)
    (hm : m ∈ [[], ['u']])
    (h1 : d <:+: '[' :: (m ++ [quote]) ∨ d <:+: [other] ∨ d <:+: [quote, ']'])
    (h2 : d <:+: "[None, ".toList ++ (m ++ [quote]) ∨ d <:+: [other] ∨ d <:+: [quote, ']'])
    (h3 : d <:+: '[' :: (m ++ [quote]) ∨ d <:+: [other] ∨ d <:+: quote :: ", None]".toList) :
    d ∈ [[], ['['], [']'], ['\''], ['"']] ++ (if m = [] then [] else [['u'], ['u', quote]]) := by
  have hall : ∀ p ∈ quotePairs, ∀ m ∈ [[], ['u']],
      ∀ d ∈ infixes ('[' :: (m ++ [p.1])) ++ (infixes [p.2] ++ infixes [p.1, ']']),
        (d <:+: "[None, ".toList ++ (m ++ [p.1]) ∨ d <:+: [p.2] ∨ d <:+: [p.1, ']']) →
        (d <:+: '[' :: (m ++ [p.1]) ∨ d <:+: [p.2] ∨ d <:+: p.1 :: ", None]".toList) →
          d ∈ [[], ['['], [']'], ['\''], ['"']] ++ (if m = [] then [] else [['u'], ['u', p.1]]) := by
    decide +kernel
  refine hall (quote, other) hpair m hm d ?_ h2 h3
  simp only [List.mem_append, mem_infixes]
  exact h1

theorem mark_mem (q : Text) : mark q ∈ [[], ['u']] := by
  unfold mark
  split <;> simp

theorem strList_one (s : PyString) : strList [some s] = ['['] ++ (repr s ++ [']']) := rfl

theorem strList_none_first (s : PyString) :
    strList [none, some s] = "[None, ".toList ++ (repr s ++ [']']) := rfl

theorem strList_none_last (s : PyString) :
    strList [some s, none] = ['['] ++ (repr s ++ ", None]".toList) := rfl

/-- In a chat with a name that has the typed text between runs of a letter, what is
found is in the typed text, in the further text or in the frame. -/
theorem parts_of_finds {q c : Text} (h : Finds q) {z quote : Char} (hz : z ∈ ['a', 'b', 'c'])
    (hhead : (received q).head? ≠ some z) (hlast : (received q).getLast? ≠ some z)
    (hquote : quote = '\'' ∨ quote = '"') (hc : reprBody quote c = c)
    (hascii : ∀ x ∈ c, x.toNat < 128)
    (hname : reprQuote (spaced (received q).length z q c) = quote)
    (hbody : ¬received q <:+: reprBody quote q) {s : PyString}
    (hs : s = PyString.ofText (spaced (received q).length z q c))
    {l : List (Option PyString)} (hl : Distinct l) (hmem : some s ∈ l) {front back : Text}
    (hkey : strList l = front ++ (repr s ++ back)) :
    received q <:+: front ++ (mark q ++ [quote]) ∨ received q <:+: c ∨
      received q <:+: quote :: back := by
  have hin : q <:+: s.text := by
    rw [hs, PyString.ofText_text]
    exact infix_spaced _ _ _ _
  have hfound := infix_of_finds h hl hmem hin
  rw [hkey, hs] at hfound
  rcases infix_parts hz hhead hlast hquote hc hname hascii hfound with h | h | h | h
  · exact Or.inl h
  · exact absurd h hbody
  · exact Or.inr (Or.inl h)
  · exact Or.inr (Or.inr h)

/-- What is found in every chat is in the typed text as it is written between one
kind of quotes, if there are names with it between these, or in their frame. -/
theorem written_of_finds {q : Text} (h : Finds q) {quote other : Char}
    (hpair : (quote, other) ∈ quotePairs)
    (hname : ∀ n, ∀ z ∈ ['a', 'b', 'c'], reprQuote (spaced n z q [other]) = quote) :
    received q <:+: reprBody quote q ∨ received q ∈
      [[], ['['], [']'], ['\''], ['"']] ++ (if mark q = [] then [] else [['u'], ['u', quote]]) := by
  obtain ⟨z, hz, hhead, hlast⟩ := exists_letter (received q)
  obtain ⟨hquote, hother, hascii⟩ : (quote = '\'' ∨ quote = '"') ∧
      reprBody quote [other] = [other] ∧ ∀ x ∈ [other], x.toNat < 128 :=
    (by decide : ∀ p ∈ quotePairs, (p.1 = '\'' ∨ p.1 = '"') ∧ reprBody p.1 [p.2] = [p.2] ∧
      ∀ x ∈ [p.2], x.toNat < 128) _ hpair
  obtain ⟨s, hs⟩ : ∃ s, s = PyString.ofText (spaced (received q).length z q [other]) := ⟨_, rfl⟩
  by_cases hbody : received q <:+: reprBody quote q
  · exact Or.inl hbody
  · have hparts {l : List (Option PyString)} (hl : Distinct l) (hmem : some s ∈ l)
        {front back : Text} (hkey : strList l = front ++ (repr s ++ back)) :=
      parts_of_finds h hz hhead hlast hquote hother hascii (hname _ z hz) hbody hs hl hmem hkey
    refine Or.inr (frames_meet hpair (mark_mem q) ?_ ?_ ?_)
    · exact hparts (List.pairwise_singleton _ _) (by simp) (strList_one s)
    · exact hparts (by simp [Distinct, sameName]) (by simp) (strList_none_first s)
    · exact hparts (by simp [Distinct, sameName]) (by simp) (strList_none_last s)

/-- A name with a double quote in it stands between single quotes. -/
theorem foundBetween_single {q : Text} (h : Finds q) : FoundBetween '\'' q := by
  have hname : ∀ n, ∀ z ∈ ['a', 'b', 'c'], reprQuote (spaced n z q ['"']) = '\'' := fun n z _ =>
    if_neg fun hcond => hcond.2 (mem_spaced_of_mem List.mem_cons_self)
  rcases written_of_finds h (by decide) hname with hbody | hmem
  · exact Or.inr hbody
  · by_cases hbody : received q <:+: reprBody '\'' q
    · exact Or.inr hbody
    · refine Or.inl ?_
      rw [frame]
      by_cases hdouble : received q = ['"']
      · -- without a quote in it, the typed text is in a name without quotes
        have hquote : '\'' ∈ q := by
          by_contra hno
          obtain ⟨z, hz, hhead, hlast⟩ := exists_letter (received q)
          have hz' : z ≠ '\'' := (by decide : ∀ z ∈ ['a', 'b', 'c'], z ≠ '\'') z hz
          have hplain : reprQuote (spaced (received q).length z q []) = '\'' := by
            refine if_neg fun hcond => ?_
            rcases mem_spaced hcond.1 with h | h | h
            · exact hz' h.symm
            · exact hno h
            · cases h
          have hparts := parts_of_finds h hz hhead hlast (Or.inl rfl) rfl
            (fun _ hx => absurd hx List.not_mem_nil) hplain hbody rfl
            (List.pairwise_singleton _ _) (List.mem_singleton.mpr rfl) (strList_one _)
          rw [hdouble] at hparts
          rcases List.mem_cons.mp (mark_mem q) with hm | hm
          · rw [hm] at hparts
            exact absurd hparts (by decide)
          · rw [List.mem_singleton.mp hm] at hparts
            exact absurd hparts (by decide)
        rw [if_pos (Or.inr hquote), hdouble]
        simp
      · rcases List.mem_append.mp hmem with hm | hm
        · refine List.mem_append_left _ (List.mem_append_left _ ?_)
          simpa [hdouble] using hm
        · exact List.mem_append_right _ hm

/-- A text without a double quote is in names between double quotes. -/
theorem foundBetween_double {q : Text} (h : Finds q) (hq : '"' ∉ q) : FoundBetween '"' q := by
  have hname : ∀ n, ∀ z ∈ ['a', 'b', 'c'], reprQuote (spaced n z q ['\'']) = '"' := by
    intro n z hz
    refine if_pos ⟨mem_spaced_of_mem List.mem_cons_self, fun hm => ?_⟩
    rcases mem_spaced hm with rfl | hm | hm
    · exact absurd hz (by decide)
    · exact hq hm
    · exact absurd hm (by decide)
  rcases written_of_finds h (by decide) hname with hbody | hmem
  · exact Or.inr hbody
  · refine Or.inl ?_
    rw [frame, if_pos (Or.inl rfl)]
    exact hmem

/-- A typed text finds every chat with a sender whose name contains it exactly when
what the server reads of it is found with either quote. -/
theorem search_finds_iff {q : Text} (hne : q ≠ []) : Finds q ↔ Findable q := by
  constructor
  · intro h
    refine ⟨foundBetween_single h, ?_⟩
    by_cases hq : '"' ∈ q
    · exact Or.inl hq
    · exact Or.inr (foundBetween_double h hq)
  · exact finds_of_findable hne

/-- A plain name finds its chats. -/
theorem search_finds_plain_name : Finds "Ann".toList :=
  (search_finds_iff (by decide)).mpr (by decide +kernel)

/-- A name with an accent does not find its chat. -/
theorem search_misses_accented_name : ¬Finds "é".toList := by
  intro h
  have hkey := infix_of_finds h (List.pairwise_singleton _ (some (PyString.ofText "é".toList)))
    List.mem_cons_self (List.infix_refl _)
  revert hkey
  decide +kernel

/-! ## Plain texts -/

/-- A printable text without `#`, `&`, `+` and `%` is read without the blanks at
its end. -/
theorem received_of_plain {q : Text} (h : ∀ c ∈ q, Printable c ∧ c ∉ ['#', '&', '+', '%']) :
    received q = q.rdropWhile isBlank := by
  have hsub : ∀ c ∈ q.rdropWhile isBlank, Printable c ∧ c ∉ ['#', '&', '+', '%'] := fun c hc =>
    h c ((List.rdropWhile_prefix _ _).subset hc)
  have hno : ∀ c ∈ ['#', '&', '+', '%'], c ∉ q.rdropWhile isBlank := fun c hc hm => (hsub c hm).2 hc
  have hfilter : (q.rdropWhile isBlank).filter (fun c => !isTabOrNewline c) =
      q.rdropWhile isBlank := by
    rw [List.filter_eq_self]
    intro c hc
    rw [isTabOrNewline_of_lt (hsub c hc).1.1]
    rfl
  have hsent : sent q = q.rdropWhile isBlank := by
    rw [sent, hfilter, withoutHash, takeWhile_of_not_mem (hno '#' (by decide))]
  rw [received, queryText_target fileName_livesearch, hsent]
  refine (valueText_q (hno '&' (by decide))).trans ?_
  rw [decoded, map_blankForPlus (hno '+' (by decide))]
  exact unescape_eq_self_iff.mpr (noEscape_of_not_mem (hno '%' (by decide)))

theorem reprChar_of_plain {quote c : Char} (hc : Printable c) (hquote : c ≠ quote) (hb : c ≠ '\\') :
    reprChar quote c = [c] := by
  obtain ⟨hlow, hhigh⟩ := hc
  have hcontrol : ∀ d ∈ ['\t', '\n', '\r'], c ≠ d := by
    intro d hd heq
    rw [heq] at hlow
    exact absurd hlow ((by decide : ∀ d ∈ ['\t', '\n', '\r'], ¬32 ≤ d.toNat) d hd)
  rw [reprChar, if_neg (not_or.mpr ⟨hquote, hb⟩), if_neg (hcontrol '\t' (by decide)),
    if_neg (hcontrol '\n' (by decide)), if_neg (hcontrol '\r' (by decide)), if_neg (by omega),
    if_pos hhigh]

theorem reprBody_of_plain {quote : Char} {t : Text}
    (h : ∀ c ∈ t, Printable c ∧ c ≠ quote ∧ c ≠ '\\') : reprBody quote t = t :=
  (List.flatMap_congr fun c hc => reprChar_of_plain (h c hc).1 (h c hc).2.1 (h c hc).2.2).trans
    (List.flatMap_singleton' _)

/-- A printable text without the characters that mean something in a query or to
`repr` is findable. -/
theorem findable_of_plain {q : Text}
    (h : ∀ c ∈ q, Printable c ∧ c ∉ ['#', '&', '+', '%', '\\', '\'']) : Findable q := by
  have hreceived : received q <:+: q := by
    rw [received_of_plain fun c hc => ⟨(h c hc).1, fun hm => (h c hc).2 ?_⟩]
    · exact (List.rdropWhile_prefix _ _).isInfix
    · simp only [List.mem_cons, List.not_mem_nil, or_false] at hm ⊢
      tauto
  have hbackslash : ∀ c ∈ q, c ≠ '\\' := fun c hc heq => (h c hc).2 (by rw [heq]; decide)
  have hsingle : reprBody '\'' q = q := reprBody_of_plain fun c hc =>
    ⟨(h c hc).1, fun heq => (h c hc).2 (by rw [heq]; decide), hbackslash c hc⟩
  refine ⟨Or.inr (hsingle.symm ▸ hreceived), ?_⟩
  by_cases hq : '"' ∈ q
  · exact Or.inl hq
  · have hdouble : reprBody '"' q = q := reprBody_of_plain fun c hc =>
      ⟨(h c hc).1, fun heq => hq (heq ▸ hc), hbackslash c hc⟩
    exact Or.inr (Or.inr (hdouble.symm ▸ hreceived))

/-- What the server reads of a findable text is printable: with a character outside
ASCII in it, the search misses chats. -/
theorem printable_of_findable {q : Text} (h : Findable q) : ∀ c ∈ received q, Printable c := by
  intro c hc
  rcases h.1 with hframe | hbody
  · have hall : ∀ m ∈ [[], [['u'], ['u', '\'']]], ∀ e ∈ [[], [['"']]],
        ∀ t ∈ [[], ['['], [']'], ['\'']] ++ e ++ m, ∀ c ∈ t, Printable c := by decide
    rw [frame] at hframe
    refine hall (if mark q = [] then [] else [['u'], ['u', '\'']]) ?_
      (if ('\'' : Char) = '"' ∨ '\'' ∈ q then [['"']] else []) ?_ _ hframe c hc
    · split <;> simp
    · split <;> simp
  · obtain ⟨d, -, hd⟩ := List.mem_flatMap.mp (hbody.subset hc)
    exact printable_of_mem_reprChar (Or.inl rfl) hd

end Browser
