import FbTesting.Browser.ChatSearch
import FbTesting.Browser.Links
import FbTesting.Browser.Search
import FbTesting.Server.Results

/-!
# From the archive to the page

A chat is written four times before it is on the screen.  The analyser dumps it to
`messages.json`, the server parses the file and writes the chat into a response, the
browser parses the response and keeps the messages, and the search writes those that
match into elements.

Each of these texts is read back as what was written.  So what holds of the parts
holds of the whole: in any state of the server in which a session has data, the
suggestions are the chats of one of its archives, and the chat that a suggestion
opens is searched as it was extracted (`archive_reaches_page`).  The one thing that
is lost is which of the two kinds of strings of Python a name was, and no script
asks for it.
-/

namespace Browser

open Base Node Python Analyser Server

/-! ## Reading responses -/

/-- A property that is a text. -/
def textProperty (v : Json) (name : Text) : Option Text :=
  match property (.json v) name with
  | .ok (.json (.str t)) => some t
  | _ => none

/-- The sender of a message, a text or `null`. -/
def userProperty (v : Json) : Option (Option PyString) :=
  match property (.json v) "user".toList with
  | .ok (.json (.str t)) => some (some (.ofText t))
  | .ok (.json .null) => some none
  | _ => none

/-- A message as the scripts read it. -/
def readMessage (v : Json) : Option Message := do
  let user ← userProperty v
  let date ← textProperty v "date".toList
  let text ← textProperty v "text".toList
  pure ⟨user, date, text⟩

/-- `messages = JSON.parse(xmlhttp.responseText)`. -/
def readMessages (responseText : Text) : Option (List Message) :=
  match Json.parse responseText with
  | some (.arr vs) => vs.mapM readMessage
  | _ => none

/-- A suggestion, if the value is a text. -/
def readResult : Json → Option Text
  | .str t => some t
  | _ => none

/-- `var results = JSON.parse(xmlhttp.responseText)`. -/
def readResults (responseText : Text) : Option (List Text) :=
  match Json.parse responseText with
  | some (.arr vs) => vs.mapM readResult
  | _ => none

/-- What is left of a message. -/
def readBack (m : Message) : Message := { m with user := m.user.map fun u => .ofText u.text }

theorem mapM_map_some {α β γ : Type} {f : β → Option γ} {g : α → β} {k : α → γ}
    (h : ∀ a, f (g a) = some (k a)) (l : List α) : (l.map g).mapM f = some (l.map k) := by
  induction l with
  | nil => rfl
  | cons a l ih => simp [h, ih]

theorem readMessage_json (m : Message) : readMessage m.json = some (readBack m) := by
  obtain ⟨user, date, text⟩ := m
  cases user with
  | none => rfl
  | some u => rfl

/-- The messages of a chat are read back from the response. -/
theorem readMessages_stringify (ms : List Message) :
    readMessages (Json.arr (ms.map Message.json)).stringify = some (ms.map readBack) := by
  have hparse : Json.parse (Json.arr (ms.map Message.json)).stringify = _ :=
    Json.parse_stringify (exact_chatJson ms).1
  rw [readMessages, hparse]
  exact mapM_map_some readMessage_json ms

/-- The suggestions are read back from the response. -/
theorem readResults_stringify (rs : List Text) :
    readResults (Json.arr (rs.map .str)).stringify = some rs := by
  have hexact : (Json.arr (rs.map .str)).Exact := exactElems_map (fun _ => by simp [Json.Exact]) rs
  have hone : ∀ r, readResult (.str r) = some (id r) := fun _ => rfl
  rw [readResults, Json.parse_stringify hexact]
  exact (mapM_map_some hone rs).trans (congrArg some (List.map_id rs))

/-! ## Searching what was read back -/

/-- What shows what was read back shows the message. -/
theorem ShowsMessage.of_readBack {m : Message} {e : MesSage} (h : ShowsMessage (readBack m) e) :
    ShowsMessage m e where
  parts := h.parts
  date := h.date
  user := fun u hu => by
    have hread : (readBack m).user = some (.ofText u.text) := congrArg (Option.map _) hu
    exact (h.user _ hread).trans (congrArg (fun t => [t]) (PyString.ofText_text u.text))
  nobody := fun hu => h.nobody (congrArg (Option.map _) hu)
  text := h.text

/-- What is shown does not depend on the kind of the names. -/
theorem showsMatches_readBack {ms : List Message} {q : Text} {content : List MessageCont}
    (h : ShowsMatches (ms.map readBack) q content) : ShowsMatches ms q content := by
  have hmatching : matching (ms.map readBack) q = matching ms q := by
    simp only [matching, List.length_map, List.getElem?_map, Option.any_map]
    rfl
  have hshown : ∀ k e, ShowsAt (ms.map readBack) k e → ShowsAt ms k e := by
    rintro k e ⟨m', hm', hshows⟩
    rw [List.getElem?_map] at hm'
    obtain ⟨m, hm, rfl⟩ := Option.map_eq_some_iff.mp hm'
    exact ⟨m, hm, hshows.of_readBack⟩
  rw [ShowsMatches, hmatching] at h
  refine h.imp fun i b hb => ⟨hshown i _ hb.message, ?_⟩
  have hcontext := hb.context.imp hshown
  rwa [List.length_map] at hcontext

/-- Whatever was done on the page before, what is loaded is searched as `messages`. -/
def SearchedAs (loaded messages : List Message) : Prop :=
  ∀ (before : List ChatEvent) (keys : List KeyPress) (q : Text),
    ShowsMatches messages q (ChatPage.run (before ++ .load loaded ::
      (keys.map ChatEvent.keypress ++ [.keypress ⟨13, q⟩]))).chat_search

theorem searchedAs_readBack (ms : List Message) : SearchedAs (ms.map readBack) ms := by
  intro before keys q
  have hload := ChatPage.loaded_load (before.foldl ChatPage.step .initial) (ms.map readBack)
  have hkeys := hload.keypresses keys
  rw [ChatPage.run, List.foldl_append, List.foldl_cons, List.foldl_append]
  exact showsMatches_readBack (hkeys.enter q)

/-! ## The way of a chat -/

section

-- `mime.lookup`, the working directory of the server, the session and the state
variable (mime : Text → Text) (cwd : Path) (A : SessionID) (σ : WebState)

/-- The typed text gets these suggestions. -/
def Suggests (q : Text) (results : List Text) : Prop :=
  ∃ body, respond mime cwd A (target (reference "livesearch.js".toList q)) σ = .ended (some body) ∧
    readResults body = some results

/-- A click on a button with the given markup loads these messages. -/
def Loads (markup : Text) (messages : List Message) : Prop :=
  ∃ url body, getLinks markup = some url ∧ respond mime cwd A url σ = .ended (some body) ∧
    readMessages body = some messages

end

section

variable {H : HashOrder} {user : Text} {doc : Document} {fb : Fb} {A : SessionID} {σ : WebState}

/-- The suggestions are the keys with what the server reads of the typed text. -/
theorem suggests_stored (mime : Text → Text) (cwd : Path)
    (hfb : (extract H user doc).result = .ok fb) (hdata : σ.userData A.text = some (fb.json H))
    (q : Text) :
    ∃ results, Suggests mime cwd A σ q results ∧
      livesearch σ.userData A (target (reference "livesearch.js".toList q)) = .ok results ∧
      ∀ k, k ∈ results ↔ k ∈ fb.chats.keys ∧ contains k (received q) = true := by
  obtain ⟨results, hsearch, hmem⟩ :=
    livesearch_stored hfb hdata (parse_target fileName_livesearch q)
  have hroute : routeOf ('/' :: "livesearch.js".toList) = .livesearch := by decide
  refine ⟨results, ⟨_, ?_, readResults_stringify results⟩, hsearch, hmem⟩
  rw [respond, routePath_target fileName_livesearch]
  dsimp only
  rw [hroute, answer, hsearch]
  rfl

/-- The button of a key that passes loads its chat. -/
theorem loads_of_passes (mime : Text → Text) (cwd : Path)
    (hdata : σ.userData A.text = some (fb.json H)) {key : Text} (hkey : key ∈ fb.chats.keys)
    (htext : KeyText key) (hpasses : Passes key) :
    Loads mime cwd A σ (escape key) ((fb.chats.listAt key).map readBack) := by
  have hquery := queryText_of_passes htext hpasses
  have hne : escape key ≠ [] := by
    intro h
    have hesc : ∀ c ∈ key, isEscaped c = false := fun c hc =>
      isEscaped_of_printable (htext.printable c hc) (hpasses.chars c hc)
    have hlast := htext.last
    rw [← escape_eq_self hesc, h] at hlast
    cases hlast
  exact ⟨_, _, if_neg hne, respond_links mime cwd hdata hkey hquery, readMessages_stringify _⟩

/-- The button of a suggestion that passes loads its chat. -/
theorem button_loads (mime : Text → Text) (cwd : Path)
    (hfb : (extract H user doc).result = .ok fb) (hdata : σ.userData A.text = some (fb.json H))
    {E : Html} {R : References} (hrules : E.Rules R) {url : Text} {results : List Text}
    (hresults : livesearch σ.userData A url = .ok results)
    (htag : ∀ r ∈ results, ∀ c, opensTag c = true → ¬['<', c] <:+: r) {i : Nat} {key : Text}
    (hi : results[i]? = some key) (hpasses : Passes key) :
    ∃ markup, (E.buttons (showResult E results))[i]? = some markup ∧
      Loads mime cwd A σ markup ((fb.chats.listAt key).map readBack) := by
  have hshowable : ∀ r ∈ results, r ∈ fb.chats.keys ∧ KeyText r ∧ Showable r := fun r hr =>
    showable_of_livesearch hfb hdata hresults hr (htag r hr)
  obtain ⟨ds, hds, -, -, hbuttons⟩ :=
    showResult_buttons hrules results fun r hr => (hshowable r hr).2.2
  obtain ⟨d, hd, hshows⟩ := forall₂_getElem? hds hi
  obtain ⟨hkey, htext, -⟩ := hshowable key (List.mem_of_getElem? hi)
  have hsame : d = key := hshows.same fun hm => hpasses.chars _ hm (by decide)
  rw [hsame] at hd
  refine ⟨escape key, ?_, loads_of_passes mime cwd hdata hkey htext hpasses⟩
  rw [hbuttons, List.getElem?_map, hd]
  rfl

end

/-- In every state that a site reaches with uploads that do not overlap and are not
disturbed, if its server has data of a session, then one of the files that the session
has sent is all that the page shows of it.  Any typed text gets those of its chats as
suggestions whose key has what the server reads of the text.  The button of each
that passes, when none opens markup, loads the chat, and whatever was done on the
page before and whatever is pressed in between, Enter then shows the messages of the
chat that contain the text in the search box, with their context. -/
theorem archive_reaches_page {S : Host} {σ : Site}
    (hσ : (site S).Reach (Undisturbed S (Separate true)) σ) {s : SessionID}
    (hdata : (σ.core.userData s.text).isSome = true) {w : WebState}
    (hw : w.userData = σ.core.userData) (mime : Text → Text) (cwd : Path) {E : Html}
    {R : References} (hrules : E.Rules R) :
    ∃ f ∈ σ.forms, f.session = s ∧ ∃ doc fb, (f.upload S).doc = .ok doc ∧
      (extract S.order s.text doc).result = .ok fb ∧
      ∀ q, ∃ results, Suggests mime cwd s w q results ∧
        (∀ k, k ∈ results ↔ k ∈ fb.chats.keys ∧ contains k (received q) = true) ∧
        ((∀ r ∈ results, ∀ c, opensTag c = true → ¬['<', c] <:+: r) →
          ∀ (i : Nat) (key : Text), results[i]? = some key → Passes key →
            ∃ markup loaded, (E.buttons (showResult E results))[i]? = some markup ∧
              Loads mime cwd s w markup loaded ∧ SearchedAs loaded (fb.chats.listAt key)) := by
  obtain ⟨hcore, hplace⟩ := core_of_reach hσ
  obtain ⟨v, hv⟩ := Option.isSome_iff_exists.mp hdata
  obtain ⟨res, hhas, rfl⟩ := storesResults_of_reach hcore s v hv
  obtain ⟨f, hf, _, hs, hres⟩ := hplace.hasResults hhas
  obtain ⟨doc, fb, hdoc, _, _, hfb, hmessages⟩ := extracted_of_results hres
  have hstored : w.userData s.text = some (fb.json S.order) := by rw [hw, hv, hmessages]
  refine ⟨f, hf, hs, doc, fb, hdoc, hfb, fun q => ?_⟩
  obtain ⟨results, hsuggests, hsearch, hmem⟩ := suggests_stored mime cwd hfb hstored q
  refine ⟨results, hsuggests, hmem, fun htag i key hi hpasses => ?_⟩
  obtain ⟨markup, hmarkup, hloads⟩ :=
    button_loads mime cwd hfb hstored hrules hsearch htag hi hpasses
  exact ⟨markup, _, hmarkup, hloads, searchedAs_readBack _⟩

/-- The server after one upload, without files. -/
def oneUploadState : WebState :=
  { oneChatState "Friend2" with userData := (separateSite true).core.userData }

/-- The suggestions after one upload are chats of its document. -/
theorem archive_reaches_page_one_upload :
    ∃ doc fb, (extract .insertion firstSession.text doc).result = .ok fb ∧
      ∀ q, ∃ results, Suggests id [] firstSession oneUploadState q results ∧
        ∀ k, k ∈ results ↔ k ∈ fb.chats.keys ∧ contains k (received q) = true := by
  have hreach : (site sampleHost).Reach (Undisturbed sampleHost (Separate true))
      (separateSite true) := System.reach_after _
  have hdata : ((separateSite true).core.userData firstSession.text).isSome = true := by
    decide +kernel
  have hsame : oneUploadState.userData = (separateSite true).core.userData := by
    rw [oneUploadState]
  obtain ⟨f, _, _, doc, fb, _, hfb, hpage⟩ :=
    archive_reaches_page hreach hdata hsame id [] (rules_buttonPages writtenReferences)
  refine ⟨doc, fb, hfb, fun q => ?_⟩
  obtain ⟨results, hsuggests, hmem, _⟩ := hpage q
  exact ⟨results, hsuggests, hmem⟩

end Browser
