import FbTesting.Analyser.ChatKeys
import FbTesting.Server.Routes

/-!
# Searching the stored chats

What the two search routes answer when the data of the session is the structure
that the analyser has written.  `/livesearch.js` answers the keys that contain the
query (`livesearch_stored`), and `/links.js` the messages under a key
(`links_stored`).

Each key is the text of the list of the senders of the messages under it
(`key_of_extract`).
-/

namespace Server

open Base Node Python Analyser

/-! ## Objects with one member for each key -/

/-- The value under a key, where the members are given by a function of the key. -/
theorem memberValue_map {ks : List Text} {f : Text → Json} {k : Text} (h : k ∈ ks) :
    memberValue (ks.map fun x => (x, f x)) k = some (f k) := by
  have hfind : ∃ m, ((ks.map fun x => (x, f x)).reverse.find? fun m => m.1 = k) = some m := by
    rw [← Option.isSome_iff_exists, List.find?_isSome]
    exact ⟨(k, f k), List.mem_reverse.mpr (List.mem_map_of_mem h), by simp⟩
  obtain ⟨m, hm⟩ := hfind
  have hname : m.1 = k := by simpa using List.find?_some hm
  obtain ⟨x, -, rfl⟩ := List.mem_map.mp (List.mem_reverse.mp (List.mem_of_find?_eq_some hm))
  rw [memberValue, hm, Option.map_some]
  exact congrArg (fun y => some (f y)) hname

theorem mem_memberNames {ms : List (Text × Json)} {k : Text} :
    k ∈ memberNames ms ↔ k ∈ ms.map Prod.fst := by
  induction ms with
  | nil => exact Iff.rfl
  | cons m ms ih =>
      obtain ⟨x, v⟩ := m
      rw [memberNames, List.mem_cons, List.mem_filter, ih, List.map_cons, List.mem_cons]
      constructor
      · rintro (h | ⟨h, -⟩)
        · exact Or.inl h
        · exact Or.inr h
      · rintro (h | h)
        · exact Or.inl h
        · by_cases hk : k = x
          · exact Or.inl hk
          · exact Or.inr ⟨h, by simpa using hk⟩

/-- The keys of an object without indices. -/
theorem mem_objectKeys {ms : List (Text × Json)} (hindex : ∀ m ∈ ms, indexName m.1 = none) :
    ∃ names, objectKeys (.json (.obj ms)) = .ok names ∧ ∀ k, k ∈ names ↔ k ∈ ms.map Prod.fst := by
  have hnone : ∀ k ∈ memberNames ms, indexName k = none := by
    intro k hk
    obtain ⟨m, hm, rfl⟩ := List.mem_map.mp (mem_memberNames.mp hk)
    exact hindex m hm
  have hindices : (memberNames ms).filterMap indexName = [] := List.filterMap_eq_nil_iff.mpr hnone
  refine ⟨_, rfl, fun k => ?_⟩
  simp only [hindices, List.insertionSort_nil, List.map_nil, List.nil_append, List.mem_filter,
    Option.isNone_iff_eq_none]
  rw [← mem_memberNames]
  exact ⟨fun h => h.1, fun h => ⟨h, hnone k h⟩⟩

/-! ## The keys of the chats -/

/-- A key is not an index: it begins with a bracket. -/
theorem indexName_strList (l : List (Option PyString)) : indexName (strList l) = none := by
  have hbracket : ∃ r, strList l = '[' :: r := by
    cases l with
    | nil => exact ⟨_, rfl⟩
    | cons a l => exact ⟨_, rfl⟩
  obtain ⟨r, hr⟩ := hbracket
  rw [hr, indexName, if_neg]
  rintro ⟨hdec, -⟩
  simp [isDecimal] at hdec

/-- The set that the message loop collects has the sender of each message it keeps. -/
theorem messageLoop_senders {t : Thread} {ids : List (Option PyString)} {ms : List Message}
    (h : messageLoop t [] [] = .ok (ids, ms)) : ∀ m ∈ ms, ∃ u ∈ ids, sameName m.user u = true := by
  intro m hm
  have hmem : m.sender ∈ nameSet ids := by
    rw [messageLoop_nameSet t h, senders, List.mem_toFinset]
    exact List.mem_map_of_mem hm
  rw [nameSet, List.mem_toFinset, List.mem_map] at hmem
  obtain ⟨u, hu, hname⟩ := hmem
  exact ⟨u, hu, beq_iff_eq.mpr hname.symm⟩

/-- The key of a chat is the text of a list that has the senders of its messages. -/
theorem key_of_extract {H : HashOrder} {user : Text} {doc : Document} {fb : Fb} {key : Text}
    (hfb : (extract H user doc).result = .ok fb) (hkey : key ∈ fb.chats.keys) :
    ∃ l, key = strList l ∧ ∀ m ∈ fb.chats.listAt key, ∃ u ∈ l, sameName m.user u = true := by
  obtain ⟨ks, hks, rfl⟩ := extract_kept hfb
  obtain ⟨ms, hms⟩ := Dict.mem_keys_iff.mp hkey
  obtain ⟨k, hk, hentry⟩ := List.mem_map.mp (Dict.mem_of_get?_assignAll _ hms)
  cases hentry
  refine ⟨H.set k.users, rfl, ?_⟩
  rw [Dict.listAt, hms, Option.getD_some]
  obtain ⟨t, _, ht⟩ := thread_of_kept hks hk
  intro m hm
  obtain ⟨u, hu, hsame⟩ := messageLoop_senders ht m hm
  exact ⟨u, (H.set_perm k.users).mem_iff.mpr hu, hsame⟩

/-! ## What the routes answer -/

section

variable {H : HashOrder} {user : Text} {doc : Document} {fb : Fb}
  {userData : Text → Option Json} {A : SessionID}

/-- The chats of a session, as the routes read them. -/
theorem chats_stored (hdata : userData A.text = some (fb.json H)) :
    property (sessionData userData A) "chats".toList =
      .ok (.json (.obj ((H.dict fb.chats.keys).map fun k => (k, chatJson (fb.chats.listAt k))))) := by
  rw [sessionData, hdata]
  rfl

theorem parse_of_livesearch {url : Text} {results : List Text}
    (h : livesearch userData A url = .ok results) : ∃ u, parse url = some u := by
  rw [livesearch, urlParse] at h
  cases hurl : parse url with
  | none =>
      rw [hurl] at h
      cases h
  | some u => exact ⟨u, rfl⟩

/-- The keys that contain the query are answered. -/
theorem livesearch_stored (hfb : (extract H user doc).result = .ok fb)
    (hdata : userData A.text = some (fb.json H)) {url : Text} {u : Url}
    (hurl : parse url = some u) :
    ∃ results, livesearch userData A url = .ok results ∧
      ∀ k, k ∈ results ↔ k ∈ fb.chats.keys ∧ contains k (queryText url "q".toList) = true := by
  have hmem : ∀ k, k ∈ H.dict fb.chats.keys ↔ k ∈ fb.chats.keys := fun k =>
    (H.dict_perm fb.chats.keys).mem_iff
  have hindex : ∀ m ∈ (H.dict fb.chats.keys).map fun k => (k, chatJson (fb.chats.listAt k)),
      indexName m.1 = none := by
    intro m hm
    obtain ⟨k, hk, rfl⟩ := List.mem_map.mp hm
    obtain ⟨l, rfl, -⟩ := key_of_extract hfb ((hmem k).mp hk)
    exact indexName_strList l
  obtain ⟨names, hnames, hiff⟩ := mem_objectKeys hindex
  refine ⟨names.filter fun k => contains k (queryText url "q".toList), ?_, fun k => ?_⟩
  · simp only [livesearch, urlParse_of_parse hurl, chats_stored hdata, bind, Except.bind, hnames,
      queryText_of_parse hurl]
    rfl
  · rw [List.mem_filter, hiff, List.map_map, ← hmem k]
    exact and_congr_left' ⟨fun h => by simpa using h, fun h => by simpa using h⟩

/-- The messages under a key are answered. -/
theorem links_stored (hdata : userData A.text = some (fb.json H)) {url key : Text} {u : Url}
    (hurl : parse url = some u) (hkey : key ∈ fb.chats.keys)
    (hquery : queryText url "q".toList = key) :
    links userData A url = .ok (.json (.arr ((fb.chats.listAt key).map Message.json))) := by
  have hmem : key ∈ H.dict fb.chats.keys := (H.dict_perm fb.chats.keys).mem_iff.mpr hkey
  have hchat : property (.json (.obj ((H.dict fb.chats.keys).map fun k =>
      (k, chatJson (fb.chats.listAt k))))) key = .ok (.json (chatJson (fb.chats.listAt key))) := by
    rw [property, memberValue_map hmem]
  rw [queryText_of_parse hurl] at hquery
  simp only [links, urlParse_of_parse hurl, chats_stored hdata, bind, Except.bind, hquery, hchat]
  rfl

end

end Server
