import Mathlib.Data.List.DropRight
import FbTesting.Base.Encode
import FbTesting.Node.Value

/-!
# Request targets

`url.parse` on the target of a request, and what `querystring.parse` makes of the
query.

Most targets are simple: a path, and possibly a query behind the first `?`.  They
are cut there, and the path name is neither decoded nor normalised
(`parse_of_simple`).  For the others the parser looks for a protocol and a host.
`//user@host` and `scheme://host` at the front are not part of the path name.
Backslashes before the query are slashes before anything else is looked at.  The
user info is decoded, which may fail, and then the parser raises an exception.

The query is split at `&`, at most a thousand pieces are looked at, each is split
at its first `=`, and a `+` is a blank.  A parameter that occurs several times has
the list of its values.
-/

namespace Node

open Base

/-! ## `url.parse` -/

/-- What the parser makes of a target. -/
structure Url where
  /-- `null` if there is none. -/
  pathname : Option Text
  /-- The query string, without the question mark. -/
  query : Text
deriving DecidableEq

/-- The target without its fragment. -/
def withoutHash (url : Text) : Text := url.takeWhile (· ≠ '#')

/-- The path name and the query of a text without protocol and host. -/
def cut (rest : Text) : Url where
  pathname :=
    let path := (withoutHash rest).takeWhile (· ≠ '?')
    if path = [] then none else some path
  query := ((withoutHash rest).dropWhile (· ≠ '?')).drop 1

/-- The characters that are trimmed at both ends. -/
def isTrimmed (c : Char) : Bool :=
  c ∈ [' ', '\t', '\r', '\n', '\x0c', '\u00a0', '\ufeff']

/-- The characters that are before the query and the fragment. -/
def beforeSplit (c : Char) : Bool := c ≠ '?' && c ≠ '#'

def slashed (c : Char) : Char := if c = '\\' then '/' else c

/-- The target without blanks at its ends, and with slashes for the backslashes
before the query. -/
def withSlashes (url : Text) : Text :=
  let t := (url.dropWhile isTrimmed).rdropWhile isTrimmed
  (t.takeWhile beforeSplit).map slashed ++ t.dropWhile beforeSplit

/-- No fragment, no `@` before the query, and `/^(\/\/?(?!\/)[^?\s]*)(\?[^\s]*)?$/`
matches. -/
def IsSimple (rest : Text) : Prop :=
  '#' ∉ rest ∧ '@' ∉ rest.takeWhile (· ≠ '?') ∧ rest.head? = some '/' ∧
    ¬['/', '/', '/'] <+: rest ∧ ∀ c ∈ rest, isWhiteSpace c = false

instance (rest : Text) : Decidable (IsSimple rest) := inferInstanceAs (Decidable (_ ∧ _ ∧ _ ∧ _ ∧ _))

def isProtocolChar (c : Char) : Bool :=
  c.isAlphanum || c = '.' || c = '+' || c = '-'

/-- `/^[a-z0-9.+-]+:/i`. -/
def protocolOf (rest : Text) : Option Text :=
  let name := rest.takeWhile isProtocolChar
  if name ≠ [] ∧ (rest.drop name.length).head? = some ':' then some (name ++ [':']) else none

/-- `/^\/\/[^@/]+@[^@/]+/`. -/
def hasUserAtHost (rest : Text) : Bool :=
  let user := (rest.drop 2).takeWhile fun c => c ≠ '@' && c ≠ '/'
  let after := (rest.drop 2).drop user.length
  ['/', '/'].isPrefixOf rest && user ≠ [] && after.head? = some '@' &&
    ((after.drop 1).head?.any fun c => c ≠ '@' && c ≠ '/')

def slashedProtocols : List Text :=
  ["http:", "https:", "ftp:", "gopher:", "file:", "ws:", "wss:"].map String.toList

/-- The protocol `javascript:` has no host, and nothing is escaped behind it. -/
def isJavascript (protocol : Option Text) : Bool :=
  protocol.map (·.map Char.toLower) = some "javascript:".toList

/-- The characters that end a host and begin the rest. -/
def endsHost (c : Char) : Bool := c ∈ ['#', '/', '?']

/-- Characters that a host does not have. -/
def isNonHost (c : Char) : Bool :=
  c ∈ ['\t', '\n', '\r', ' ', '"', '%', '\'', ';', '<', '>', '\\', '^', '`', '{', '|', '}']

/-- Characters that a host name may have. -/
def isHostname (c : Char) : Bool :=
  c.isAlphanum || c ∈ ['.', '-', '+', '_'] || 127 < c.toNat

/-- `/:[0-9]*$/` is taken off. -/
def withoutPort (host : Text) : Text :=
  let h := host.rdropWhile Char.isDigit
  if h.getLast? = some ':' then h.dropLast else host

def isIpv6Hostname (hostname : Text) : Bool :=
  hostname.head? = some '[' && hostname.getLast? = some ']'

/-- The host name and what follows the host, for a text that begins with user info
and host.  The user info ends at the last `@`.  Of a host name that is not one, the
part from the first wrong character on goes to the path. -/
def takeHost (rest : Text) : Option (Text × Text) :=
  let zone := rest.takeWhile fun c => !endsHost c
  let authority := zone.rtakeWhile (· ≠ '@')
  let auth := (zone.rdropWhile (· ≠ '@')).dropLast
  let host := authority.takeWhile fun c => !isNonHost c
  let after := authority.drop host.length ++ rest.drop zone.length
  let hostname := withoutPort host
  if decodeURIComponent auth = none then none
  else if isIpv6Hostname hostname || hostname.all isHostname then some (hostname, after)
  else
    some (hostname.takeWhile isHostname, '/' :: hostname.dropWhile isHostname ++ after)

/-- The characters that are escaped wherever they are. -/
def isAutoEscaped (c : Char) : Bool :=
  c ∈ ['\t', '\n', '\r', ' ', '"', '\'', '<', '>', '\\', '^', '`', '{', '|', '}']

/-- `autoEscapeStr`. -/
def autoEscape (rest : Text) : Text := encode (fun c => !isAutoEscaped c) rest

/-- The end of `url.parse`: a protocol that has slashes gives a host the path name
`/` at least. -/
def finish (protocol : Option Text) (hostname rest : Text) : Url :=
  let u := cut (if isJavascript protocol then rest else autoEscape rest)
  let slash := protocol.any fun p =>
    slashedProtocols.contains (p.map Char.toLower) && hostname ≠ [] && hostname.length ≤ 255
  { u with pathname := u.pathname.or (if slash then some ['/'] else none) }

/-- `url.parse`, or nothing if it raises `URIError`. -/
def parse (url : Text) : Option Url :=
  let rest := withSlashes url
  if IsSimple rest then some (cut rest)
  else
    let protocol := protocolOf rest
    let rest := rest.drop (protocol.getD []).length
    let slashes := (protocol.isSome || hasUserAtHost rest) && ['/', '/'].isPrefixOf rest
    if isJavascript protocol then some (finish protocol [] rest)
    else if slashes || protocol.any (fun p => !slashedProtocols.contains p) then
      (takeHost (if slashes then rest.drop 2 else rest)).map fun r => finish protocol r.1 r.2
    else some (finish protocol [] rest)

/-- `url.parse`, as a statement of a handler. -/
def urlParse (url : Text) : Except JsError Url :=
  match parse url with
  | some u => .ok u
  | none => .error .uriError

/-! ## `querystring.parse` -/

/-- `x.replace(/\+/g, '%20')`. -/
def plusToBlank (t : Text) : Text := t.flatMap fun c => if c = '+' then ['%', '2', '0'] else [c]

/-- A piece of the query: its name and its value. -/
def parameter (piece : Text) : Text × Text :=
  let x := plusToBlank piece
  (unescape (x.takeWhile (· ≠ '=')), unescape ((x.dropWhile (· ≠ '=')).drop 1))

/-- The values of a parameter, in order. -/
def queryValues (query name : Text) : List Text :=
  (((query.splitOn '&').take 1000).map parameter).filterMap fun p =>
    if p.1 = name then some p.2 else none

/-- The text that the value of a parameter is turned into where a text is
needed: `undefined` without a value, and several values joined by commas. -/
def valueText (query name : Text) : Text :=
  match queryValues query name with
  | [] => "undefined".toList
  | vs => List.intercalate [','] vs

/-- The text of a parameter of a target. -/
def queryText (url name : Text) : Text := valueText ((parse url).elim [] Url.query) name

theorem queryText_of_parse {url : Text} {u : Url} (h : parse url = some u) (name : Text) :
    queryText url name = valueText u.query name := by
  rw [queryText, h, Option.elim_some]

theorem urlParse_of_parse {url : Text} {u : Url} (h : parse url = some u) :
    urlParse url = .ok u := by
  rw [urlParse, h]

/-! ## Plain targets -/

/-- A path and a query that are cut apart as they are. -/
structure Plain (path query : Text) : Prop where
  head : path.head? = some '/'
  slashes : ¬['/', '/', '/'] <+: path
  /-- Nothing in the path makes it more than a path. -/
  path_ne : ∀ c ∈ path, c ≠ '?' ∧ c ≠ '#' ∧ c ≠ '@' ∧ c ≠ '\\' ∧ isWhiteSpace c = false
  query_ne : ∀ c ∈ query, c ≠ '#' ∧ isWhiteSpace c = false

theorem isTrimmed_eq_false {c : Char} (h : isWhiteSpace c = false) : isTrimmed c = false := by
  rw [← Bool.not_eq_true] at h ⊢
  intro ht
  refine h (Bool.or_eq_true_iff.mpr (Or.inl (decide_eq_true ?_)))
  have hmem := of_decide_eq_true ht
  simp only [List.mem_cons, List.not_mem_nil, or_false] at hmem ⊢
  tauto

section

variable {path query : Text} (h : Plain path query)

include h

theorem Plain.graphic {c : Char} (hc : c ∈ path ++ '?' :: query) :
    c ≠ '#' ∧ isWhiteSpace c = false := by
  rcases List.mem_append.mp hc with hp | hq
  · exact ⟨(h.path_ne c hp).2.1, (h.path_ne c hp).2.2.2.2⟩
  · rcases List.mem_cons.mp hq with rfl | hq
    · decide
    · exact h.query_ne c hq

theorem Plain.takeWhile_eq : (path ++ '?' :: query).takeWhile (· ≠ '?') = path :=
  takeWhile_append_cons (fun hm => (h.path_ne _ hm).1 rfl) query

/-- Nothing is trimmed and no slash replaces anything. -/
theorem Plain.withSlashes_eq : withSlashes (path ++ '?' :: query) = path ++ '?' :: query := by
  have htrim : ∀ c ∈ path ++ '?' :: query, isTrimmed c = false := fun c hc =>
    isTrimmed_eq_false (h.graphic hc).2
  have hleft : (path ++ '?' :: query).dropWhile isTrimmed = path ++ '?' :: query := by
    rw [List.dropWhile_eq_self_iff]
    intro hlen
    rw [htrim _ (List.getElem_mem hlen)]
    exact Bool.false_ne_true
  have hright : (path ++ '?' :: query).rdropWhile isTrimmed = path ++ '?' :: query := by
    rw [List.rdropWhile_eq_self_iff]
    intro hne
    rw [htrim _ (List.getLast_mem hne)]
    exact Bool.false_ne_true
  have hbefore : ∀ c ∈ path, beforeSplit c = true := fun c hc => by
    rw [beforeSplit, decide_eq_true (h.path_ne c hc).1, decide_eq_true (h.path_ne c hc).2.1]
    rfl
  have hsplit : beforeSplit '?' = false := by decide
  have hmap : path.map slashed = path := by
    refine (List.map_congr_left fun c hc => ?_).trans (List.map_id path)
    exact if_neg (h.path_ne c hc).2.2.2.1
  rw [withSlashes, hleft, hright, List.takeWhile_append_of_pos hbefore,
    List.dropWhile_append_of_pos hbefore, List.takeWhile_cons_of_neg (by rw [hsplit]; decide),
    List.dropWhile_cons_of_neg (by rw [hsplit]; decide), List.append_nil, hmap]

theorem Plain.isSimple : IsSimple (path ++ '?' :: query) := by
  refine ⟨fun hm => (h.graphic hm).1 rfl, ?_, ?_, ?_, fun c hc => (h.graphic hc).2⟩
  · rw [h.takeWhile_eq]
    exact fun hm => (h.path_ne _ hm).2.2.1 rfl
  · rw [List.head?_append, h.head]
    rfl
  · -- the three slashes would be those of the path
    intro hprefix
    obtain ⟨t, ht⟩ := hprefix
    have htake := h.takeWhile_eq
    rw [← ht, List.takeWhile_append_of_pos (by decide)] at htake
    exact h.slashes ⟨_, htake⟩

theorem Plain.cut_eq : cut (path ++ '?' :: query) = ⟨some path, query⟩ := by
  have hno : withoutHash (path ++ '?' :: query) = path ++ '?' :: query :=
    takeWhile_of_not_mem fun hm => (h.graphic hm).1 rfl
  have hne : path ≠ [] := by
    rintro rfl
    cases h.head
  have hdrop := dropWhile_append_cons (fun hm => (h.path_ne _ hm).1 rfl) query
  rw [cut, hno, h.takeWhile_eq, hdrop]
  exact congrArg (Url.mk · query) (if_neg hne)

/-- A plain target is cut at the question mark. -/
theorem parse_plain : parse (path ++ '?' :: query) = some ⟨some path, query⟩ := by
  have hsimple : IsSimple (withSlashes (path ++ '?' :: query)) := by
    rw [h.withSlashes_eq]
    exact h.isSimple
  rw [parse, if_pos hsimple, h.withSlashes_eq, h.cut_eq]

end

-- what is before the path, and backslashes in it
example : (parse "//a@b/users/2c3d/messages.json".toList).map Url.pathname =
    some (some "/users/2c3d/messages.json".toList) := by decide
example : (parse "http://x:80/../secret?q=1".toList).map Url.pathname =
    some (some "/../secret".toList) := by decide
example : (parse "/..\\x\\y?a\\b".toList) = some ⟨some "/../x/y".toList, "a\\b".toList⟩ := by
  decide
example : parse "//%@b/x".toList = none := by decide

end Node
