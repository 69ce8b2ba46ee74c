import FbTesting.Base.Dict
import FbTesting.Base.Regex
import FbTesting.Node.Value
import FbTesting.Analyser.Extract

/-!
# The link list of the browser

When the messages of a chat have arrived, `getLinks` matches the text of each with a
pattern, reads the host of each match off an anchor element, and collects the matches in
a plain object, by host.  Whether there is already a list for a host is asked with `in`,
and `in` also finds what the object inherits.  So for a host with the name of such a
member there is no list, and the `push` to it throws.

Hosts are in lower case, and the pattern has a letter or a digit at their beginning.  The
only inherited member with such a name is `constructor` (`inherited_hostname_iff`).
-/

namespace Browser

open Base Node Analyser

/-! ## The pattern -/

/-- `[-.\w]`. -/
def isHostChar (c : Char) : Bool := c.isAlphanum || "-._".toList.contains c

/-- `[a-zA-Z0-9\-\.\?\,\'\/\\\+&amp;%\$#_]`. -/
def isTailChar (c : Char) : Bool := c.isAlphanum || "-.?,'/\\+&;%$#_".toList.contains c

/-- `(:(0-9)*)*`, where the digits stand for themselves. -/
def portPart : Regex := .star (.seq (.char (· == ':')) (.star (.lit "0-9".toList)))

/-- `(\/?)([...]*)?`. -/
def tailPart : Regex := .seq (.opt (.char (· == '/'))) (.opt (.star (.char isTailChar)))

/-- The pattern from the host on. -/
def hostPart : Regex :=
  .seq (.char Char.isAlphanum) <| .seq (.star (.upTo isHostChar Char.isAlphanum)) <|
    .seq portPart tailPart

/-- The pattern `re` of `getLinks`. -/
def re : Regex :=
  .seq (.alt (.lit "ht".toList) (.lit "f".toList)) <| .seq (.lit "tp".toList) <|
    .seq (.opt (.char (· == 's'))) <| .seq (.lit "://".toList) hostPart

/-! ## The loops -/

/-- What follows the scheme of a link and the slashes. -/
def afterScheme (link : Text) : Text := (link.dropWhile (· != ':')).drop 3

/-- The `hostname` of the anchor element: the host of the link in lower case. -/
def hostname (link : Text) : Text :=
  ((afterScheme link).takeWhile fun c => !"/?#:\\".toList.contains c).map Char.toLower

/-- The lists of links by host. -/
abbrev LinkLists := Dict Text (List Text)

/-- The body of the inner loop.  An inherited member is not a list. -/
def collect (link_dict : LinkLists) (link : Text) : Except JsError LinkLists :=
  if (link_dict.get? (hostname link)).isSome || objectPrototype.contains (hostname link) then
    match link_dict.get? (hostname link) with
    | some links => .ok (link_dict.set (hostname link) (links ++ [link]))
    | none => .error .typeError
  else .ok (link_dict.set (hostname link) [link])

/-- The loop over the matches in a message. -/
def collectAll : List Text → LinkLists → Except JsError LinkLists
  | [], link_dict => .ok link_dict
  | link :: results, link_dict => do
      let link_dict ← collect link_dict link
      collectAll results link_dict

/-- The loop over the messages. -/
def linkLists : List Message → LinkLists → Except JsError LinkLists
  | [], link_dict => .ok link_dict
  | msg :: messages, link_dict => do
      let link_dict ← collectAll (re.findall msg.text) link_dict
      linkLists messages link_dict

/-- All matches, in order. -/
def allLinks (messages : List Message) : List Text := messages.flatMap fun m => re.findall m.text

theorem collectAll_append (xs ys : List Text) : ∀ link_dict : LinkLists,
    collectAll (xs ++ ys) link_dict = collectAll xs link_dict >>= collectAll ys := by
  induction xs with
  | nil => intro link_dict; rfl
  | cons link xs ih =>
      intro link_dict
      rw [List.cons_append, collectAll, collectAll]
      cases collect link_dict link with
      | ok d => exact ih d
      | error e => rfl

/-- The nested loops are one loop over all matches. -/
theorem linkLists_eq_collectAll : ∀ (messages : List Message) (link_dict : LinkLists),
    linkLists messages link_dict = collectAll (allLinks messages) link_dict
  | [], _ => rfl
  | msg :: messages, link_dict => by
      rw [linkLists, allLinks, List.flatMap_cons, collectAll_append]
      cases collectAll (re.findall msg.text) link_dict with
      | ok d => exact linkLists_eq_collectAll messages d
      | error e => rfl

/-! ## Hosts that are collected -/

/-- A host that the object does not inherit gets the link into its list. -/
theorem collect_ok {link_dict : LinkLists} {link : Text} (h : hostname link ∉ objectPrototype) :
    collect link_dict link = .ok (link_dict.push (hostname link) link) := by
  have hnot : objectPrototype.contains (hostname link) = false :=
    Bool.eq_false_iff.mpr (mt List.contains_iff_mem.mp h)
  rw [collect, Dict.push, hnot]
  cases link_dict.get? (hostname link) with
  | some links => rfl
  | none => rfl

theorem collect_error {link_dict : LinkLists} {link : Text} (h : hostname link ∈ objectPrototype)
    (hnone : link_dict.get? (hostname link) = none) :
    collect link_dict link = .error .typeError := by
  rw [collect, List.contains_iff_mem.mpr h, hnone]
  rfl

/-- There is no list for a host that no link so far has. -/
theorem get?_eq_none_of_groups {link_dict : LinkLists} {links : List Text} {name : Text}
    (h : link_dict.Groups hostname links) (hno : ∀ link ∈ links, hostname link ≠ name) :
    link_dict.get? name = none := by
  have hlist := h.listAt_eq name
  rw [List.filter_eq_nil_iff.mpr fun link hlink => by simpa using hno link hlink] at hlist
  cases hget : link_dict.get? name with
  | none => rfl
  | some xs =>
      rw [Dict.listAt, hget, Option.getD_some] at hlist
      exact absurd (hlist ▸ hget) (h.get?_ne_nil name)

/-- The loop groups the links by host as long as no host is inherited. -/
theorem collectAll_groups_iff : ∀ (links done : List Text) {link_dict : LinkLists},
    link_dict.Groups hostname done → (∀ link ∈ done, hostname link ∉ objectPrototype) →
      ((∃ d, collectAll links link_dict = .ok d ∧ d.Groups hostname (done ++ links)) ↔
        ∀ link ∈ links, hostname link ∉ objectPrototype)
  | [], done, link_dict, hgroups, _ => by
      rw [List.append_nil]
      refine iff_of_true ⟨link_dict, rfl, hgroups⟩ ?_
      exact fun link hlink => absurd hlink List.not_mem_nil
  | link :: links, done, link_dict, hgroups, hdone => by
      rw [List.forall_mem_cons, collectAll]
      by_cases hhost : hostname link ∈ objectPrototype
      · have hnone := get?_eq_none_of_groups hgroups fun x hx heq => hdone x hx (heq ▸ hhost)
        rw [collect_error hhost hnone]
        refine iff_of_false ?_ fun h => h.1 hhost
        rintro ⟨d, hd, -⟩
        cases hd
      · have hall : ∀ x ∈ done ++ [link], hostname x ∉ objectPrototype :=
          List.forall_mem_append.mpr ⟨hdone, List.forall_mem_singleton.mpr hhost⟩
        rw [collect_ok hhost, and_iff_right hhost]
        have ih := collectAll_groups_iff links (done ++ [link]) (hgroups.push link) hall
        rw [List.append_assoc] at ih
        exact ih

/-! ## What the pattern matches -/

/-- The schemes that the pattern knows. -/
def reSchemes : List Text :=
  ["http://".toList, "https://".toList, "ftp://".toList, "ftps://".toList]

theorem matches_re {w : Text} (h : re.Matches w) :
    ∃ scheme ∈ reSchemes, ∃ v, hostPart.Matches v ∧ w = scheme ++ v := by
  simp only [re, Regex.matches_seq, Regex.matches_alt, Regex.matches_lit, Regex.matches_opt,
    Regex.matches_char] at h
  obtain ⟨a, _, ha, ⟨_, _, rfl, ⟨s, _, hs, ⟨_, v, rfl, hv, rfl⟩, rfl⟩, rfl⟩, rfl⟩ := h
  rcases ha with rfl | rfl <;> rcases hs with ⟨d, hd, rfl⟩ | rfl
  · rw [beq_iff_eq.mp hd]
    exact ⟨"https://".toList, by decide, v, hv, rfl⟩
  · exact ⟨"http://".toList, by decide, v, hv, rfl⟩
  · rw [beq_iff_eq.mp hd]
    exact ⟨"ftps://".toList, by decide, v, hv, rfl⟩
  · exact ⟨"ftp://".toList, by decide, v, hv, rfl⟩

theorem afterScheme_append {scheme : Text} (h : scheme ∈ reSchemes) (v : Text) :
    afterScheme (scheme ++ v) = v := by
  simp only [reSchemes, List.mem_cons, List.not_mem_nil, or_false] at h
  rcases h with rfl | rfl | rfl | rfl <;> rfl

/-- The host of a match begins with a letter or a digit. -/
theorem head_hostname {link : Text} (h : re.Matches link) :
    ∃ c t, c.isAlphanum = true ∧ hostname link = c :: t := by
  obtain ⟨scheme, hscheme, v, hv, rfl⟩ := matches_re h
  obtain ⟨_, w, hfirst, -, rfl⟩ := Regex.matches_seq.mp hv
  obtain ⟨c, hc, rfl⟩ := Regex.matches_char.mp hfirst
  have hdelim : (!"/?#:\\".toList.contains c) = true := by
    rw [Bool.not_eq_true', ← Bool.not_eq_true, List.contains_iff_mem]
    exact not_mem_of_isAlphanum hc (by decide)
  rw [hostname, afterScheme_append hscheme, List.singleton_append,
    List.takeWhile_cons_of_pos (p := fun c => !"/?#:\\".toList.contains c) hdelim, List.map_cons]
  exact ⟨c.toLower, _, isAlphanum_toLower hc, rfl⟩

/-- Of the inherited members only one has the name of a host. -/
theorem inherited_hostname_iff {link : Text} (h : re.Matches link) :
    hostname link ∈ objectPrototype ↔ hostname link = "constructor".toList := by
  constructor
  · intro hmem
    have hlower : ∀ c ∈ hostname link, c.toLower = c := by
      intro c hc
      obtain ⟨d, -, rfl⟩ := List.mem_map.mp hc
      exact toLower_toLower d
    obtain ⟨c, t, hc, heq⟩ := head_hostname h
    have hhead : (hostname link).head?.any Char.isAlphanum = true := by
      rw [heq]
      exact hc
    have honly : ∀ name ∈ objectPrototype, (∀ c ∈ name, c.toLower = c) →
        name.head?.any Char.isAlphanum = true → name = "constructor".toList := by decide
    exact honly _ hmem hlower hhead
  · intro heq
    rw [heq]
    decide

/-- The loops of `getLinks` group the matches by host exactly when no match has the host
`constructor`. -/
theorem linkLists_groups_iff (messages : List Message) :
    (∃ link_dict, linkLists messages .empty = .ok link_dict ∧
        link_dict.Groups hostname (allLinks messages)) ↔
      ∀ m ∈ messages, ∀ link ∈ re.findall m.text, hostname link ≠ "constructor".toList := by
  have hgroups := collectAll_groups_iff (allLinks messages) [] (Dict.groups_empty hostname)
    fun link hlink => absurd hlink List.not_mem_nil
  rw [List.nil_append] at hgroups
  rw [linkLists_eq_collectAll, hgroups, allLinks, List.forall_mem_flatMap]
  refine forall₂_congr fun m _ => forall₂_congr fun link hlink => ?_
  exact not_congr (inherited_hostname_iff (Regex.matches_of_mem_findall hlink))

/-- One link to a host of that name is enough. -/
theorem constructor_host_throws :
    linkLists [⟨none, "2014-05-01 12:00:00".toList, "see http://constructor/ now".toList⟩] .empty =
      .error .typeError := by
  rfl

end Browser
