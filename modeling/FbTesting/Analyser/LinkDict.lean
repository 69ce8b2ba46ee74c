import FbTesting.Analyser.Links

/-!
# The links by host

`find_links` collects the links of all messages in a dictionary, by host, and then copies
it into an ordered one, along the sorted keys.  Two facts carry this.

*Grouping.*  The loops push the links one after the other, so at each point the dictionary
holds the links so far by their hosts (`linkMessages_groups`).

*Order.*  Python compares texts by their first difference, and `None` is below every
text.  This is a total order (`keyLe_total`, `keyLe_trans`, `keyLe_antisymm`), the keys of a
dictionary are different, and so the sorted keys are strictly increasing.  The copy has the
same entries in this order (`orderLinks_entries`), and holds what the first dictionary holds.
-/

namespace Analyser

open Base Python

/-! ## The order of the keys -/

theorem textLe_total : ∀ t u : Text, textLe t u = true ∨ textLe u t = true
  | [], _ => Or.inl rfl
  | _ :: _, [] => Or.inr rfl
  | c :: t, d :: u => by
      simp only [textLe, Bool.or_eq_true, Bool.and_eq_true, beq_iff_eq, decide_eq_true_eq]
      by_cases hlt : c < d
      · exact Or.inl (Or.inl hlt)
      · by_cases hgt : d < c
        · exact Or.inr (Or.inl hgt)
        · have heq : c = d := Char.le_antisymm (Char.not_lt.mp hgt) (Char.not_lt.mp hlt)
          exact (textLe_total t u).imp (fun h => Or.inr ⟨heq, h⟩) fun h => Or.inr ⟨heq.symm, h⟩

theorem textLe_trans : ∀ {t u v : Text}, textLe t u = true → textLe u v = true →
    textLe t v = true
  | [], _, _, _, _ => rfl
  | _ :: _, [], _, h, _ => by cases h
  | _ :: _, _ :: _, [], _, h => by cases h
  | c :: t, d :: u, e :: v, htu, huv => by
      simp only [textLe, Bool.or_eq_true, Bool.and_eq_true, beq_iff_eq, decide_eq_true_eq]
        at htu huv ⊢
      rcases htu with hcd | ⟨rfl, htu⟩
      · rcases huv with hde | ⟨rfl, -⟩
        · exact Or.inl (Char.lt_trans hcd hde)
        · exact Or.inl hcd
      · exact huv.imp_right fun h => ⟨h.1, textLe_trans htu h.2⟩

theorem textLe_antisymm : ∀ {t u : Text}, textLe t u = true → textLe u t = true → t = u
  | [], [], _, _ => rfl
  | [], _ :: _, _, h => by cases h
  | _ :: _, [], h, _ => by cases h
  | c :: t, d :: u, htu, hut => by
      simp only [textLe, Bool.or_eq_true, Bool.and_eq_true, beq_iff_eq, decide_eq_true_eq]
        at htu hut
      rcases htu with hcd | ⟨rfl, htu⟩
      · rcases hut with hdc | ⟨rfl, -⟩
        · exact absurd hdc (Char.lt_asymm hcd)
        · exact absurd hcd (Char.lt_irrefl _)
      · rcases hut with hcc | ⟨-, hut⟩
        · exact absurd hcc (Char.lt_irrefl _)
        · rw [textLe_antisymm htu hut]

theorem keyLe_total (a b : Option Text) : (keyLe a b || keyLe b a) = true := by
  rw [Bool.or_eq_true]
  cases a with
  | none => exact Or.inl rfl
  | some t =>
      cases b with
      | none => exact Or.inr rfl
      | some u => exact textLe_total t u

theorem keyLe_trans (a b c : Option Text) (hab : keyLe a b = true) (hbc : keyLe b c = true) :
    keyLe a c = true := by
  cases a with
  | none => rfl
  | some t =>
      cases b with
      | none => cases hab
      | some u =>
          cases c with
          | none => cases hbc
          | some v => exact textLe_trans hab hbc

theorem keyLe_antisymm {a b : Option Text} (hab : keyLe a b = true) (hba : keyLe b a = true) :
    a = b := by
  cases a with
  | none =>
      cases b with
      | none => rfl
      | some u => cases hba
  | some t =>
      cases b with
      | none => cases hab
      | some u => rw [textLe_antisymm hab hba]

/-! ## The ordered dictionary -/

/-- `a < b` for keys. -/
def KeyLt (a b : Option Text) : Prop := keyLe b a = false

theorem sortedKeys_pairwise (link_dict : LinkDict) :
    (link_dict.keys.mergeSort keyLe).Pairwise KeyLt := by
  have hsorted := List.pairwise_mergeSort keyLe_trans keyLe_total link_dict.keys
  have hnodup : (link_dict.keys.mergeSort keyLe).Nodup :=
    (List.mergeSort_perm link_dict.keys keyLe).nodup_iff.mpr link_dict.nodup
  refine (hsorted.and hnodup).imp fun {a b} hab => Bool.eq_false_iff.mpr fun hba => ?_
  exact hab.2 (keyLe_antisymm hab.1 hba)

/-- The copy has the entries of the dictionary, along the sorted keys. -/
theorem orderLinks_entries (link_dict : LinkDict) :
    (orderLinks link_dict).entries =
      (link_dict.keys.mergeSort keyLe).map fun key => (key, link_dict.listAt key) := by
  have hassign : orderLinks link_dict = Dict.empty.assignAll
      ((link_dict.keys.mergeSort keyLe).map fun key => (key, link_dict.listAt key)) := by
    rw [orderLinks, Dict.assignAll, List.foldl_map]
  rw [hassign]
  refine Dict.entries_assignAll ?_
  rw [List.map_map]
  change ((link_dict.keys.mergeSort keyLe).map id).Nodup
  rw [List.map_id]
  exact (List.mergeSort_perm link_dict.keys keyLe).nodup_iff.mpr link_dict.nodup

theorem orderLinks_keys (link_dict : LinkDict) :
    (orderLinks link_dict).keys = link_dict.keys.mergeSort keyLe := by
  rw [Dict.keys, orderLinks_entries, List.map_map]
  exact List.map_id _

theorem orderLinks_perm (link_dict : LinkDict) :
    (orderLinks link_dict).entries.Perm link_dict.entries := by
  have hsame : link_dict.keys.map (fun key => (key, link_dict.listAt key)) = link_dict.entries := by
    rw [Dict.keys, List.map_map]
    refine (List.map_congr_left fun e he => ?_).trans (List.map_id _)
    rw [Function.comp_apply, Dict.listAt, Dict.get?_eq_some_iff.mpr he, Option.getD_some]
    rfl
  rw [orderLinks_entries, ← hsame]
  exact (List.mergeSort_perm link_dict.keys keyLe).map _

/-! ## The loops -/

/-- The host of a link, where `urlparse` does not raise. -/
def linkHost (link : Text) : Option Text := hostname (netloc link)

theorem bracketed_of_isOk {link : Text} (h : (urlHostname link).isOk = true) :
    Bracketed (netloc link) := by
  by_contra hnot
  rw [urlHostname, if_neg hnot] at h
  cases h

/-- All matches, in the order of the messages and of their places in the texts. -/
def linksOf (messages : List Message) : List Text :=
  messages.flatMap fun m => linkPattern.findall m.text

theorem linkLoop_groups : ∀ {links done : List Text} {link_dict : LinkDict},
    (∀ link ∈ links, Bracketed (netloc link)) → link_dict.Groups linkHost done →
      ∃ d, linkLoop links link_dict = .ok d ∧ d.Groups linkHost (done ++ links) ∧
        d.pooled = link_dict.pooled + (links : Multiset Text)
  | [], done, link_dict, _, hgroups => by
      refine ⟨link_dict, rfl, ?_, (add_zero _).symm⟩
      rwa [List.append_nil]
  | link :: links, done, link_dict, hparse, hgroups => by
      obtain ⟨hlink, hlinks⟩ := List.forall_mem_cons.mp hparse
      obtain ⟨d, hd, hg, hpool⟩ := linkLoop_groups hlinks (hgroups.push link)
      refine ⟨d, ?_, ?_, ?_⟩
      · rw [linkLoop, urlHostname, if_pos hlink]
        exact hd
      · rwa [List.append_assoc] at hg
      · rw [hpool, Dict.pooled_push, add_assoc]
        rfl

theorem linkMessages_groups : ∀ {messages : List Message} {done : List Text} {link_dict : LinkDict},
    (∀ link ∈ linksOf messages, Bracketed (netloc link)) → link_dict.Groups linkHost done →
      ∃ d, linkMessages messages link_dict = .ok d ∧ d.Groups linkHost (done ++ linksOf messages) ∧
        d.pooled = link_dict.pooled + (linksOf messages : Multiset Text)
  | [], done, link_dict, _, hgroups => by
      refine ⟨link_dict, rfl, ?_, (add_zero _).symm⟩
      rwa [linksOf, List.flatMap_nil, List.append_nil]
  | m :: messages, done, link_dict, hparse, hgroups => by
      rw [linksOf, List.flatMap_cons, List.forall_mem_append] at hparse
      obtain ⟨d, hd, hg, hpool⟩ := linkLoop_groups hparse.1 hgroups
      obtain ⟨d', hd', hg', hpool'⟩ := linkMessages_groups hparse.2 hg
      refine ⟨d', ?_, ?_, ?_⟩
      · rw [linkMessages, hd]
        exact hd'
      · rwa [List.append_assoc] at hg'
      · rw [hpool', hpool, add_assoc, Multiset.coe_add]
        rfl

/-- On messages whose links can be parsed the ordered dictionary of `find_links` has
strictly increasing keys, which are the hosts of the links.  Together its lists hold each
link as often as it was found, and the list of a host has the links of this host, in the
order in which they were found. -/
theorem find_links_partitions {messages : List Message}
    (h : ∀ m ∈ messages, ∀ link ∈ linkPattern.findall m.text, (urlHostname link).isOk = true) :
    ∃ link_dict, linkMessages messages .empty = .ok link_dict ∧
      find_links messages = .ok (linksJson (orderLinks link_dict)).dump ∧
      (orderLinks link_dict).keys.Pairwise KeyLt ∧
      (∀ host, host ∈ (orderLinks link_dict).keys ↔
        ∃ link ∈ linksOf messages, linkHost link = host) ∧
      (orderLinks link_dict).pooled = (linksOf messages : Multiset Text) ∧
      (orderLinks link_dict).Groups linkHost (linksOf messages) := by
  have hparse : ∀ link ∈ linksOf messages, Bracketed (netloc link) :=
    List.forall_mem_flatMap.mpr fun m hm link hlink => bracketed_of_isOk (h m hm link hlink)
  obtain ⟨d, hd, hgroups, hpool⟩ := linkMessages_groups hparse (Dict.groups_empty linkHost)
  rw [List.nil_append] at hgroups
  rw [Dict.pooled_empty, zero_add] at hpool
  have hordered := hgroups.of_perm (orderLinks_perm d)
  refine ⟨d, hd, ?_, ?_, fun host => hordered.mem_keys_iff, ?_, hordered⟩
  · rw [find_links, hd]
    rfl
  · rw [orderLinks_keys]
    exact sortedKeys_pairwise d
  · rw [← hpool]
    exact Multiset.coe_eq_coe.mpr ((orderLinks_perm d).flatMap_right Prod.snd)

/-- Two messages with links to two hosts. -/
def twoHosts : List Message :=
  [⟨none, "2014-01-16 20:15:00".toList, "http://b.org/1 http://A.org".toList⟩,
    ⟨none, "2014-01-16 20:16:00".toList, "again: http://b.org/2".toList⟩]

theorem find_links_partitions_twoHosts :
    (∀ m ∈ twoHosts, ∀ link ∈ linkPattern.findall m.text, (urlHostname link).isOk = true) ∧
      ∃ link_dict, linkMessages twoHosts .empty = .ok link_dict ∧
        find_links twoHosts = .ok (linksJson (orderLinks link_dict)).dump ∧
        (orderLinks link_dict).keys.Pairwise KeyLt ∧
        (∀ host, host ∈ (orderLinks link_dict).keys ↔
          ∃ link ∈ linksOf twoHosts, linkHost link = host) ∧
        (orderLinks link_dict).pooled = (linksOf twoHosts : Multiset Text) ∧
        (orderLinks link_dict).Groups linkHost (linksOf twoHosts) := by
  have hparse : ∀ m ∈ twoHosts, ∀ link ∈ linkPattern.findall m.text,
      (urlHostname link).isOk = true := by decide +kernel
  exact ⟨hparse, find_links_partitions hparse⟩

end Analyser
