import Mathlib.Data.List.Chain
import FbTesting.Analyser.Extract

/-!
# Headers and paragraphs

In a document a thread is a sequence of elements: each message has a header and,
after it, a paragraph with its text.  `extract` asks for the markup of the element
after a header, whatever that element is.  No markup, for want of an element or of
content, means that there is no message to keep.

So a header that is followed by another header gets the markup of that header as its
text.  When no two headers stand side by side, each message has its own text
(`records_eq_ownTexts_iff`).
-/

namespace Analyser

open Base Python

/-! ## The elements of a thread -/

/-- The header of a message. -/
structure Header where
  sender : Option PyString
  stamp : Timestamp
  /-- The inner markup. -/
  markup : Text
  /-- The element `.meta` is in it. -/
  shows_stamp : stamp.text <:+: markup

/-- An element of a thread. -/
inductive Element where
  | header (h : Header)
  /-- A paragraph, by its inner markup. -/
  | paragraph (content : Text)

/-- The inner markup of an element. -/
def Element.inner : Element → Text
  | .header h => h.markup
  | .paragraph content => content

/-- The element is a header. -/
def Element.isHeader : Element → Bool
  | .header _ => true
  | .paragraph _ => false

/-- `html()` of a selection that has at most one element. -/
def html : Option Element → Option Text
  | none => none
  | some e => if e.inner = [] then none else some e.inner

/-- `thread('.message').items()`, each with what the loop asks for: the last is
`msg.next().html()`. -/
def rawThread : List Element → Thread
  | [] => []
  | .header h :: rest => ⟨h.sender, some h.stamp.text, html rest.head?⟩ :: rawThread rest
  | .paragraph _ :: rest => rawThread rest

/-! ## The text of a message -/

/-- The text of the message whose header stands before these elements. -/
def ownText : List Element → Option Text
  | .paragraph content :: _ => if content = [] then none else some content
  | _ => none

/-- A record for each header that a paragraph with content follows, with this
content as its text. -/
def ownTexts : List Element → List Message
  | [] => []
  | .header h :: rest =>
      ((ownText rest).map fun t => ⟨h.sender, h.stamp.stored.str, t⟩).toList ++ ownTexts rest
  | .paragraph _ :: rest => ownTexts rest

/-- No header stands next to another. -/
def HeadersApart (els : List Element) : Prop :=
  els.IsChain fun a b => ¬(a.isHeader = true ∧ b.isHeader = true)

/-! ## What is kept of a thread -/

/-- The thread as messages with timestamps. -/
def sourceThread : List Element → SourceThread
  | [] => []
  | .header h :: rest => ⟨h.sender, h.stamp, html rest.head?⟩ :: sourceThread rest
  | .paragraph _ :: rest => sourceThread rest

theorem map_raw_sourceThread (els : List Element) :
    (sourceThread els).map SourceMessage.raw = rawThread els := by
  induction els with
  | nil => rfl
  | cons e els ih =>
      cases e with
      | header h =>
          rw [sourceThread, List.map_cons, ih]
          rfl
      | paragraph content => exact ih

theorem markup_ne_nil (h : Header) : h.markup ≠ [] := by
  intro hnil
  have hstamp : h.stamp.text = [] := by
    have hin := h.shows_stamp
    rw [hnil] at hin
    exact List.infix_nil.mp hin
  have hlen := congrArg List.length h.stamp.splitOn_text
  rw [hstamp] at hlen
  cases hlen

/-- What is kept for a header. -/
theorem records_header (h : Header) (rest : List Element) :
    records (sourceThread (.header h :: rest)) =
      ((html rest.head?).map fun t => ⟨h.sender, h.stamp.stored.str, t⟩).toList ++
        records (sourceThread rest) := by
  rw [sourceThread, records, List.filterMap_cons, SourceMessage.record]
  cases html rest.head? with
  | none => rfl
  | some t => rfl

/-- A header before another gets its markup, and any other gets its own text. -/
theorem html_head? (rest : List Element) :
    html rest.head? = ownText rest ∨
      ∃ h rest', rest = .header h :: rest' ∧ html rest.head? = some h.markup := by
  cases rest with
  | nil => exact Or.inl rfl
  | cons e rest =>
      cases e with
      | header h => exact Or.inr ⟨h, rest, rfl, if_neg (markup_ne_nil h)⟩
      | paragraph content => exact Or.inl rfl

/-- No message is kept less. -/
theorem length_ownTexts_le (els : List Element) :
    (ownTexts els).length ≤ (records (sourceThread els)).length := by
  induction els with
  | nil => exact Nat.le_refl 0
  | cons e els ih =>
      cases e with
      | paragraph content => exact ih
      | header h =>
          rw [records_header, ownTexts, List.length_append, List.length_append]
          cases html_head? els with
          | inl hown =>
              rw [hown]
              omega
          | inr hnext =>
              obtain ⟨h', rest, rfl, _⟩ := hnext
              have hnone : ownText (.header h' :: rest) = none := rfl
              rw [hnone, Option.map_none, Option.toList_none, List.length_nil]
              omega

/-- Each message has its own text exactly when the headers are apart: a header before
another one is kept with a text that is not its own. -/
theorem records_eq_ownTexts_iff (els : List Element) :
    records (sourceThread els) = ownTexts els ↔ HeadersApart els := by
  induction els with
  | nil => exact iff_of_true rfl List.isChain_nil
  | cons e els ih =>
      rw [HeadersApart, List.isChain_cons]
      cases e with
      | paragraph content =>
          refine ih.trans ⟨fun h => ⟨fun _ _ hc => ?_, h⟩, fun h => h.2⟩
          cases hc.1
      | header h =>
          rw [records_header, ownTexts]
          cases els with
          | nil => exact iff_of_true rfl ⟨fun _ hy => absurd hy nofun, List.isChain_nil⟩
          | cons e' els =>
              cases e' with
              | paragraph content =>
                  refine (List.append_right_inj _).trans
                    (ih.trans ⟨fun hc => ⟨?_, hc⟩, fun hc => hc.2⟩)
                  intro y hy hboth
                  cases hy
                  cases hboth.2
              | header h' =>
                  refine iff_of_false ?_ fun hc => hc.1 _ rfl ⟨rfl, rfl⟩
                  intro heq
                  have hle := length_ownTexts_le (.header h' :: els)
                  have hlen := congrArg List.length heq
                  have hhtml : html (Element.header h' :: els).head? = some h'.markup :=
                    if_neg (markup_ne_nil h')
                  have hnone : ownText (.header h' :: els) = none := rfl
                  rw [hhtml, hnone, Option.map_some, Option.map_none, Option.toList_some,
                    Option.toList_none, List.length_append, List.length_append,
                    List.length_singleton, List.length_nil] at hlen
                  omega

/-- Extraction of a document whose threads are headers and paragraphs succeeds.  Of a
thread it keeps, in order, one record for each header that a paragraph with content
follows, with this content as its text, and no others, exactly when no two headers of
the thread stand side by side. -/
theorem extract_own_texts_iff (H : HashOrder) (user : Text) (doc : List (List Element)) :
    ∃ ks : List Kept,
      (extract H user (doc.map rawThread)).result =
        .ok ⟨user, Dict.empty.assignAll (ks.map (Kept.entry H))⟩ ∧
      List.Forall₂ (fun els k => messageLoop (rawThread els) [] [] = .ok (k.users, k.messages) ∧
        (k.messages = ownTexts els ↔ HeadersApart els)) doc ks := by
  have hraw : rawDocument (doc.map sourceThread) = doc.map rawThread := by
    rw [rawDocument, List.map_map]
    exact List.map_congr_left fun els _ => map_raw_sourceThread els
  refine ⟨(doc.map sourceThread).map SourceThread.kept, ?_, ?_⟩
  · rw [← hraw]
    exact extract_result H user (forall₂_kept _)
  · rw [List.map_map, List.forall₂_map_right_iff]
    refine List.forall₂_same.mpr fun els _ => ⟨?_, records_eq_ownTexts_iff els⟩
    rw [← map_raw_sourceThread, messageLoop_source]
    rfl

/-- The inner markup of a header of the sample conversation. -/
def sampleMarkup (sender : String) : Text :=
  "<span class=\"user\">".toList ++ sender.toList ++ "</span><span class=\"meta\">".toList ++
    sampleStamp.text ++ "</span>".toList

/-- Its header. -/
def sampleHeader (sender : String) : Header where
  sender := some (.ofText sender.toList)
  stamp := sampleStamp
  markup := sampleMarkup sender
  shows_stamp := ⟨_, _, rfl⟩

/-- A message without a text before one that has a text. -/
def adjacentHeaders : List Element :=
  [.header (sampleHeader "Friend1"), .header (sampleHeader "User"),
    .paragraph "This is the second message".toList]

/-- The message without a text is kept with the markup of the next header. -/
theorem header_kept_as_text :
    ¬∃ users, messageLoop (rawThread adjacentHeaders) [] [] = .ok (users, ownTexts adjacentHeaders) := by
  rintro ⟨users, h⟩
  rw [← map_raw_sourceThread, messageLoop_source, List.nil_append, Except.ok.injEq,
    Prod.mk.injEq, records_eq_ownTexts_iff] at h
  have hapart : HeadersApart adjacentHeaders := h.2
  exact (List.isChain_cons_cons.mp hapart).1 ⟨rfl, rfl⟩

end Analyser
