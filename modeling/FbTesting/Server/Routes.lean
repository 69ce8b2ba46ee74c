import FbTesting.Base.FileTree
import FbTesting.Node.Url
import FbTesting.Node.Value
import FbTesting.Server.Session

/-!
# The routes of `index.js`

Four routes answer a `GET`.  The two search routes read the data of the
requester's session, and the main route and the catch-all read files.  Express
matches a path name without regard to case and to one slash at its end, and it
decodes the path name that the catch-all matches, which may fail.  It takes the path
name of a target from `parseurl`, and the catch-all takes it from `url.parse`.  For
`//user@host/file` the first is the whole target and the second is `/file`, so that
the catch-all gets targets whose path name in its own terms is that of another route
(`uriRead`).

A request of session `A` should not depend on what other sessions have uploaded.
The search routes look their data up under the ID of the requester and do not.
The catch-all reads any file below the working directory, the files of other
sessions among them.  The requests that depend on them are those whose walk goes
below the directory of another session and can end on a file (`ReachesOther`).
-/

namespace Server

open Base Node

/-! ## Requests and responses -/

/-- The four routes. -/
inductive Route where
  | main
  | livesearch
  | links
  | catchAll
deriving DecidableEq

/-- A response. -/
inductive Response where
  /-- The content of a file. -/
  | file (contentType content : Text)
  /-- `res.send(404)`. -/
  | notFound
  /-- Express finds no path name to match. -/
  | unmatched
  /-- `res.end(body)`, where nothing may be given. -/
  | ended (body : Option Text)
  /-- An exception in a route, which Express answers. -/
  | failed (e : JsError)
  /-- The path name could not be decoded. -/
  | badRequest
  /-- An exception in a callback, which ends the server. -/
  | uncaught
deriving DecidableEq

/-- The part of the state of the server that responses depend on. -/
structure WebState where
  /-- `userData`, by property name. -/
  userData : Text → Option Json
  files : FileTree

/-- A path as Express matches it: in lower case and without a slash at the end. -/
def matched (path : Text) : Text :=
  let t := path.map Char.toLower
  if t.getLast? = some '/' then t.dropLast else t

/-- The characters at which `parseurl` leaves a target to `url.parse`. -/
def isUnusual (c : Char) : Bool :=
  c ∈ ['\t', '\n', '\x0c', '\r', ' ', '#', '\u00a0', '\ufeff']

/-- The path name that Express matches.  A target that begins with a slash is cut at
the question mark. -/
def routePath (url : Text) : Option Text :=
  if url.head? = some '/' ∧ ∀ c ∈ url, isUnusual c = false then some (url.takeWhile (· ≠ '?'))
  else (parse url).bind Url.pathname

theorem isUnusual_eq_false {c : Char} (hhash : c ≠ '#') (hspace : isWhiteSpace c = false) :
    isUnusual c = false := by
  rw [← Bool.not_eq_true] at hspace ⊢
  intro hu
  refine hspace (Bool.or_eq_true_iff.mpr (Or.inl (decide_eq_true ?_)))
  have hmem := of_decide_eq_true hu
  simp only [List.mem_cons, List.not_mem_nil, or_false] at hmem ⊢
  tauto

theorem routePath_plain {path query : Text} (h : Plain path query) :
    routePath (path ++ '?' :: query) = some path := by
  have hhead : (path ++ '?' :: query).head? = some '/' := by
    rw [List.head?_append, h.head]
    rfl
  have husual : ∀ c ∈ path ++ '?' :: query, isUnusual c = false := fun c hc =>
    isUnusual_eq_false (h.graphic hc).1 (h.graphic hc).2
  rw [routePath, if_pos ⟨hhead, husual⟩, h.takeWhile_eq]

/-- The route of a path name. -/
def routeOf (path : Text) : Route :=
  if matched path = [] then .main
  else if matched path = "/livesearch.js".toList then .livesearch
  else if matched path = "/links.js".toList then .links
  else .catchAll

/-! ## The routes -/

/-- The data of a session, as a value. -/
def sessionData (userData : Text → Option Json) (A : SessionID) : JsValue :=
  match userData A.text with
  | some v => .json v
  | none => .undefined

/-- `/livesearch.js`. -/
def livesearch (userData : Text → Option Json) (A : SessionID) (url : Text) :
    Except JsError (List Text) := do
  let urlParts ← urlParse url
  let chats ← property (sessionData userData A) "chats".toList
  let users ← objectKeys chats
  pure (users.filter fun user => contains user (valueText urlParts.query "q".toList))

/-- `/links.js`. -/
def links (userData : Text → Option Json) (A : SessionID) (url : Text) : Except JsError JsValue := do
  let urlParts ← urlParse url
  let chats ← property (sessionData userData A) "chats".toList
  let chat ← property chats (valueText urlParts.query "q".toList)
  property chat "messages".toList

/-- What Express makes of the outcome of a route. -/
def ended : Except JsError (Option Text) → Response
  | .ok body => .ended body
  | .error e => .failed e

/-- The components of the path `'./' + uri`. -/
def components (uri : Text) : List Text := ("./".toList ++ uri).splitOn '/'

section

-- `mime.lookup`, and the working directory of the server
variable (mime : Text → Text) (cwd : Path)

/-- `fs.readFile`, and the response with what was read. -/
def sendFile (files : FileTree) (uri contentType : Text) : Response :=
  match files.readFile cwd (components uri) with
  | some content => .file contentType content
  | none => .notFound

/-- The catch-all, for a path name that it may have none of: the file is that of
`'./' + uri`, and `mime.lookup(null)` raises an exception. -/
def sendUri (files : FileTree) (uri : Option Text) : Response :=
  match uri with
  | some uri => sendFile cwd files uri (mime uri)
  | none =>
      match files.readFile cwd (components "null".toList) with
      | some _ => .uncaught
      | none => .notFound

/-- What a route answers to session `A` for a path name that Express matched. -/
def answer (A : SessionID) (url : Text) (σ : WebState) (path : Text) : Route → Response
  | .main => sendFile cwd σ.files "index.html".toList "text/html".toList
  | .livesearch =>
      ended ((livesearch σ.userData A url).map fun results =>
        some (Json.arr (results.map .str)).stringify)
  | .links => ended ((links σ.userData A url).map jsonStringify)
  | .catchAll =>
      if decodeURIComponent path = none then .badRequest
      else
        match urlParse url with
        | .ok urlParts => sendUri mime cwd σ.files urlParts.pathname
        | .error e => .failed e

/-- The response of the server to a `GET` of session `A`. -/
def respond (A : SessionID) (url : Text) (σ : WebState) : Response :=
  match routePath url with
  | some path => answer mime cwd A url σ path (routeOf path)
  | none => .unmatched

/-! ## What a response depends on -/

/-- The directory of a session. -/
def userDir (s : SessionID) : Path := cwd ++ ["users".toList, s.text]

/-- Two states differ at most in what uploads of sessions other than `A` have
produced. -/
structure AgreeOutside (A : SessionID) (σ τ : WebState) : Prop where
  userData : ∀ key, (∀ B : SessionID, B ≠ A → key ≠ B.text) → σ.userData key = τ.userData key
  files : ∀ p, (∀ B : SessionID, B ≠ A → ¬Below (userDir cwd B) p) →
    σ.files.entry p = τ.files.entry p

/-- What the catch-all puts behind `'./'`, for a target that it gets. -/
def uriRead (url : Text) : Option Text :=
  (routePath url).bind fun path =>
    if routeOf path = .catchAll ∧ decodeURIComponent path ≠ none then
      (parse url).map fun u => u.pathname.getD "null".toList
    else none

/-- The request walks below the directory of another session, and can end on a
file. -/
def ReachesOther (A : SessionID) (url : Text) : Prop :=
  ∃ uri ∈ uriRead url, ¬EndsOnTrail cwd (components uri) ∧
    ∃ B : SessionID, B ≠ A ∧
      ((∃ q ∈ trail cwd (components uri), Below (userDir cwd B) q) ∨
        Below (userDir cwd B) (walkEnd cwd (components uri)))

/-! ## Requests that do not reach other sessions -/

variable {mime cwd} {A : SessionID} {url : Text} {σ τ : WebState}

theorem sessionData_eq (h : AgreeOutside cwd A σ τ) :
    sessionData σ.userData A = sessionData τ.userData A := by
  have hown : ∀ B : SessionID, B ≠ A → A.text ≠ B.text :=
    fun B hB heq => hB (SessionID.ext heq.symm)
  rw [sessionData, sessionData, h.userData A.text hown]

/-- The working directory and its files are above every session's directory. -/
theorem not_below_userDir (B : SessionID) {p : Path} (h : p.length ≤ cwd.length + 1) :
    ¬Below (userDir cwd B) p := by
  intro hb
  have hlen := hb.1.length_le
  rw [userDir, List.length_append] at hlen
  simp only [List.length_cons, List.length_nil] at hlen
  omega

theorem sendFile_index_eq (h : AgreeOutside cwd A σ τ) (contentType : Text) :
    sendFile cwd σ.files "index.html".toList contentType =
      sendFile cwd τ.files "index.html".toList contentType := by
  have hcomp : components "index.html".toList = [".".toList, "index.html".toList] := by decide
  have hread : σ.files.readFile cwd (components "index.html".toList) =
      τ.files.readFile cwd (components "index.html".toList) := by
    rw [hcomp]
    refine FileTree.readFile_congr (fun q hq => ?_) ?_
    · refine h.files q fun B _ => not_below_userDir B ?_
      have hq' : q = cwd := by
        change q ∈ [cwd, cwd] at hq
        simpa using hq
      rw [hq']
      omega
    · refine h.files _ fun B _ => not_below_userDir B ?_
      change (cwd ++ ["index.html".toList]).length ≤ _
      rw [List.length_append]
      exact Nat.le_refl _
  rw [sendFile, sendFile, hread]

variable (mime cwd) in
/-- A target of the catch-all is answered with the file it names, if there is one. -/
theorem respond_of_uriRead {uri : Text} (h : uriRead url = some uri) :
    ∃ found : Text → Response, (∀ content, found content ≠ .notFound) ∧
      ∀ (A : SessionID) (σ : WebState), respond mime cwd A url σ =
        (σ.files.readFile cwd (components uri)).elim .notFound found := by
  obtain ⟨path, hpath, hread⟩ := Option.bind_eq_some_iff.mp h
  split at hread
  case isFalse => cases hread
  case isTrue hcatch =>
    obtain ⟨u, hu, rfl⟩ := Option.map_eq_some_iff.mp hread
    have hanswer : ∀ (A : SessionID) (σ : WebState),
        respond mime cwd A url σ = sendUri mime cwd σ.files u.pathname := by
      intro A σ
      simp only [respond, hpath, answer, hcatch.1, if_neg hcatch.2, urlParse_of_parse hu]
    cases hname : u.pathname with
    | some uri =>
        refine ⟨.file (mime uri), fun _ => nofun, fun A σ => ?_⟩
        rw [hanswer, hname, sendUri, sendFile, Option.getD_some]
        cases σ.files.readFile cwd (components uri) <;> rfl
    | none =>
        refine ⟨fun _ => .uncaught, fun _ => nofun, fun A σ => ?_⟩
        rw [hanswer, hname, sendUri, Option.getD_none]
        cases σ.files.readFile cwd (components "null".toList) <;> rfl

/-- Every other target is answered without the files of the sessions. -/
theorem respond_of_uriRead_none (h : AgreeOutside cwd A σ τ) (hnone : uriRead url = none) :
    respond mime cwd A url σ = respond mime cwd A url τ := by
  unfold respond
  cases hpath : routePath url with
  | none => rfl
  | some path =>
      rw [uriRead, hpath, Option.bind_some] at hnone
      dsimp only
      cases hroute : routeOf path with
      | main => exact sendFile_index_eq h _
      | livesearch => simp only [answer, livesearch, sessionData_eq h]
      | links => simp only [answer, links, sessionData_eq h]
      | catchAll =>
          rw [answer, answer]
          by_cases hdec : decodeURIComponent path = none
          · rw [if_pos hdec, if_pos hdec]
          · rw [if_pos ⟨hroute, hdec⟩, Option.map_eq_none_iff] at hnone
            rw [if_neg hdec, if_neg hdec, urlParse, hnone]

/-- A request that does not reach another session gets one response in both
states. -/
theorem respond_eq_of_not_reachesOther (h : AgreeOutside cwd A σ τ)
    (hreach : ¬ReachesOther cwd A url) :
    respond mime cwd A url σ = respond mime cwd A url τ := by
  cases huri : uriRead url with
  | none => exact respond_of_uriRead_none h huri
  | some uri =>
      obtain ⟨found, -, hfound⟩ := respond_of_uriRead mime cwd huri
      rw [hfound, hfound]
      by_cases hend : EndsOnTrail cwd (components uri)
      · rw [FileTree.readFile_of_endsOnTrail _ hend, FileTree.readFile_of_endsOnTrail _ hend]
      · have hout : ∀ p, (p ∈ trail cwd (components uri) ∨ p = walkEnd cwd (components uri)) →
            σ.files.entry p = τ.files.entry p := by
          intro p hp
          refine h.files p fun B hB hbelow => hreach ⟨uri, huri, hend, B, hB, ?_⟩
          cases hp with
          | inl hmem => exact Or.inl ⟨p, hmem, hbelow⟩
          | inr heq => exact Or.inr (heq ▸ hbelow)
        rw [FileTree.readFile_congr (fun q hq => hout q (Or.inl hq)) (hout _ (Or.inr rfl))]

/-! ## Requests that do -/

theorem components_ne_nil (uri : Text) : components uri ≠ [] := List.splitOn_ne_nil _ _

/-- For a request that reaches another session there are two states that differ
in the files of that session only and are answered differently. -/
theorem exists_respond_ne_of_reachesOther (mime : Text → Text) (hreach : ReachesOther cwd A url) :
    ∃ σ τ, AgreeOutside cwd A σ τ ∧ respond mime cwd A url σ ≠ respond mime cwd A url τ := by
  obtain ⟨uri, huri, hend, B, hB, hbelow⟩ := hreach
  have hne := components_ne_nil uri
  let full := probe cwd (components uri) [] hne hend
  refine ⟨⟨fun _ => none, full⟩, ⟨fun _ => none, full.prune (userDir cwd B)⟩,
    ⟨fun _ _ => rfl, fun p hp => ?_⟩, ?_⟩
  · exact (full.entry_prune_of_not_below (hp B hB)).symm
  · have hfull : full.readFile cwd (components uri) = some [] := readFile_probe [] hne hend
    have hpruned : (full.prune (userDir cwd B)).readFile cwd (components uri) = none := by
      cases hbelow with
      | inl h =>
          obtain ⟨q, hq, hb⟩ := h
          exact FileTree.readFile_of_missing _ (Or.inl hq) (full.entry_prune_below hb)
      | inr h => exact FileTree.readFile_of_missing _ (Or.inr rfl) (full.entry_prune_below h)
    obtain ⟨found, hne, hfound⟩ := respond_of_uriRead mime cwd huri
    rw [hfound, hfound, hfull, hpruned]
    exact hne []

/-- The response to a request of session `A` is the same in any two states that
differ only in what other sessions have uploaded, exactly when the request does
not walk below the directory of another session to a place where a file can be. -/
theorem response_isolated_iff (mime : Text → Text) (cwd : Path) (A : SessionID) (url : Text) :
    (∀ σ τ : WebState, AgreeOutside cwd A σ τ →
        respond mime cwd A url σ = respond mime cwd A url τ) ↔ ¬ReachesOther cwd A url := by
  constructor
  · intro h hreach
    obtain ⟨σ, τ, hagree, hne⟩ := exists_respond_ne_of_reachesOther mime hreach
    exact hne (h σ τ hagree)
  · intro hreach σ τ hagree
    exact respond_eq_of_not_reachesOther hagree hreach

end

/-- Two sessions. -/
def sampleSession : SessionID := ⟨"0a1b".toList, rfl, by decide⟩

def otherSession : SessionID := ⟨"2c3d".toList, rfl, by decide⟩

/-- A session reads the messages of another one by asking for the file. -/
theorem messages_of_other_session_sent :
    ¬∀ σ τ : WebState, AgreeOutside ["srv".toList] sampleSession σ τ →
      respond (fun _ => "application/json".toList) ["srv".toList] sampleSession
          "/users/2c3d/messages.json".toList σ =
        respond (fun _ => "application/json".toList) ["srv".toList] sampleSession
          "/users/2c3d/messages.json".toList τ := by
  intro h
  have hreach : ReachesOther ["srv".toList] sampleSession "/users/2c3d/messages.json".toList := by
    exact ⟨_, rfl, by decide, otherSession, by decide, Or.inr (by decide)⟩
  obtain ⟨σ, τ, hagree, hne⟩ := exists_respond_ne_of_reachesOther
    (fun _ => "application/json".toList) hreach
  exact hne (h σ τ hagree)

end Server
