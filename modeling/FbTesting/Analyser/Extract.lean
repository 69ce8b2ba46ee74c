import FbTesting.Base.Dict
import FbTesting.Base.JsonLaws
import FbTesting.Base.Traced
import FbTesting.Python.Repr
import FbTesting.Analyser.Timestamp

/-!
# Extraction

`extract` walks the threads of a document.  In each thread it keeps the
messages that have a text, with the moment of their timestamp, and collects the
set of their senders.  The kept messages of the thread are stored in the
dictionary `chats` under the text of the list of that set.  After each thread a
percentage is written, and after the last one the whole structure is dumped to
`messages.json`.

pyquery is outside the repository: a document is what it yields, the threads
with, for each message header, the three texts the loop asks for.  So is the
order in which CPython lists a set or the keys of a dictionary: a `HashOrder`
is any such order, a permutation.

The dictionary is assigned to, never appended to.  `extract_result` gives the
outcome on valid timestamps as a sequence of assignments.  No message is lost
exactly when no later thread is stored under the key of one that keeps messages.
-/

namespace Analyser

open Base Python

/-! ## Documents and what is stored of them -/

/-- What pyquery yields for one message header: the inner markup of `.user` and
`.meta`, and of the element after the header.  An empty or absent element has
none. -/
structure RawMessage where
  user : Option PyString
  date : Option Text
  text : Option Text

/-- The message headers of a thread, in order. -/
abbrev Thread := List RawMessage

/-- The threads of a document, in order. -/
abbrev Document := List Thread

/-- A stored message. -/
structure Message where
  user : Option PyString
  date : Text
  text : Text
deriving DecidableEq

/-- The structure `fb`. -/
structure Fb where
  user : Text
  chats : Dict Text (List Message)

/-- The orders in which CPython lists a set, and the keys of a dictionary. -/
structure HashOrder where
  /-- The list of a set, given the members in the order they were added. -/
  set : List (Option PyString) → List (Option PyString)
  /-- It lists the members. -/
  set_perm : ∀ ids, (set ids).Perm ids
  /-- The list of the keys, given the keys in the order they were added. -/
  dict : List Text → List Text
  /-- It lists the keys. -/
  dict_perm : ∀ ks, (dict ks).Perm ks

/-- The files a run writes, below the user's directory. -/
inductive OutFile where
  | messages
  | timeline
  | hourHistogram
deriving DecidableEq, Repr

/-- What a run of the analyser does to the world. -/
inductive Act where
  /-- A write to standard output, which is buffered. -/
  | stdout (t : Text)
  /-- `sys.stdout.flush()`. -/
  | flush
  /-- `open` for writing, which truncates. -/
  | open (f : OutFile)
  | write (f : OutFile) (t : Text)
  | close (f : OutFile)
  /-- The traceback of an exception, on standard error. -/
  | stderr (e : PyError)
deriving DecidableEq

/-- A part of a run. -/
abbrev Script := Traced PyError Act

/-- `sys.stdout.write(t); sys.stdout.flush()`. -/
def say (t : Text) : Script Unit := do
  Traced.perform (.stdout t)
  Traced.perform .flush

/-- `with open(f, 'w') as fl: dump(v, fl)`. -/
def dumpTo (f : OutFile) (v : Json) : Script Unit := do
  Traced.perform (.open f)
  Traced.perform (.write f v.dump)
  Traced.perform (.close f)

/-! ## JSON of what is stored -/

/-- A name that may be absent. -/
def nameJson : Option PyString → Json
  | none => .null
  | some s => .str s.text

/-- A message. -/
def Message.json (m : Message) : Json :=
  .obj [("user".toList, nameJson m.user), ("date".toList, .str m.date), ("text".toList, .str m.text)]

/-- A chat. -/
def chatJson (ms : List Message) : Json := .obj [("messages".toList, .arr (ms.map Message.json))]

/-- The structure as `dump` sees it, the chats in the order of the dictionary. -/
def Fb.json (H : HashOrder) (fb : Fb) : Json :=
  .obj [("user".toList, .str fb.user),
    ("chats".toList, .obj ((H.dict fb.chats.keys).map fun k => (k, chatJson (fb.chats.listAt k))))]

/-! ## The loops -/

/-- Equality of Python strings, and of `None`. -/
def sameName (a b : Option PyString) : Bool := a.map (·.text) == b.map (·.text)

/-- `userIDs.add(user)`: an equal member stays. -/
def addUser (ids : List (Option PyString)) (user : Option PyString) : List (Option PyString) :=
  if ids.any (sameName user) then ids else ids ++ [user]

/-- `date.split(' ')` on an absent timestamp raises before anything is read. -/
def messageDate : Option Text → Except PyError DateTime
  | none => .error .attributeError
  | some date => extractDate date

/-- The loop over the messages of a thread. -/
def messageLoop : Thread → List (Option PyString) → List Message →
    Except PyError (List (Option PyString) × List Message)
  | [], userIDs, messages => .ok (userIDs, messages)
  | msg :: rest, userIDs, messages =>
      match msg.text with
      | none => messageLoop rest userIDs messages
      | some text => do
          let date ← messageDate msg.date
          messageLoop rest (addUser userIDs msg.user) (messages ++ [⟨msg.user, date.str, text⟩])

/-- What one more message keeps true of the set and of the stored messages is true of
what the loop ends with. -/
theorem messageLoop_invariant {I : List (Option PyString) → List Message → Prop}
    (hstep : ∀ {ids ms} (user : Option PyString) (date : DateTime) (text : Text), I ids ms →
      I (addUser ids user) (ms ++ [⟨user, date.str, text⟩])) (t : Thread) :
    ∀ {ids ids' : List (Option PyString)} {ms ms' : List Message},
      messageLoop t ids ms = .ok (ids', ms') → I ids ms → I ids' ms' := by
  induction t with
  | nil =>
      intro ids ids' ms ms' h hI
      cases h
      exact hI
  | cons msg rest ih =>
      intro ids ids' ms ms' h hI
      rw [messageLoop] at h
      cases htext : msg.text with
      | none =>
          rw [htext] at h
          exact ih h hI
      | some text =>
          rw [htext] at h
          cases hdate : messageDate msg.date with
          | error e =>
              rw [hdate] at h
              cases h
          | ok date =>
              rw [hdate] at h
              exact ih h (hstep msg.user date text hI)

/-- `str(list(userIDs))`. -/
def chatKey (H : HashOrder) (userIDs : List (Option PyString)) : Text := strList (H.set userIDs)

/-- The percentage line after a thread. -/
def progressLine (count size : Nat) : Text := decimal (100 * count / size) ++ ['\r']

/-- The loop over the threads. -/
def threadLoop (H : HashOrder) (size : Nat) :
    Document → Nat → Dict Text (List Message) → Script (Dict Text (List Message))
  | [], _, chats => pure chats
  | thread :: rest, count, chats => do
      let (userIDs, messages) ← Traced.lift (messageLoop thread [] [])
      let chats := chats.set (chatKey H userIDs) messages
      say (progressLine (count + 1) size)
      threadLoop H size rest (count + 1) chats

/-- `extract`, on the document that pyquery has read. -/
def extract (H : HashOrder) (user : Text) (doc : Document) : Script Fb := do
  let chats ← threadLoop H doc.length doc 0 .empty
  let fb : Fb := ⟨user, chats⟩
  dumpTo .messages (fb.json H)
  say "finished creating JSON chat structure\n".toList
  pure fb

/-! ## What a thread contributes -/

/-- A thread on which the loop raises nothing: the set of senders and the kept
messages it ends with. -/
structure Kept where
  users : List (Option PyString)
  messages : List Message
deriving DecidableEq

/-- The pair a thread is stored as. -/
def Kept.entry (H : HashOrder) (k : Kept) : Text × List Message := (chatKey H k.users, k.messages)

theorem exists_of_forall₂ {α β : Type} {R : α → β → Prop} {as : List α} {bs : List β}
    (h : List.Forall₂ R as bs) {a : α} (ha : a ∈ as) : ∃ b ∈ bs, R a b := by
  induction h with
  | nil => cases ha
  | cons hab _ ih =>
      rcases List.mem_cons.mp ha with rfl | hmem
      · exact ⟨_, List.mem_cons_self, hab⟩
      · obtain ⟨b, hb, hR⟩ := ih hmem
        exact ⟨b, List.mem_cons_of_mem _ hb, hR⟩

/-- What is kept is kept of some thread. -/
theorem thread_of_kept {doc : Document} {ks : List Kept}
    (h : List.Forall₂ (fun t k => messageLoop t [] [] = .ok (k.users, k.messages)) doc ks)
    {k : Kept} (hk : k ∈ ks) : ∃ t ∈ doc, messageLoop t [] [] = .ok (k.users, k.messages) :=
  exists_of_forall₂ (R := fun k t => messageLoop t [] [] = .ok (k.users, k.messages))
    (List.Forall₂.flip h) hk

/-- The loop over threads stores one pair after the other and writes one
percentage after each. -/
theorem threadLoop_ok (H : HashOrder) (size : Nat) :
    ∀ {doc : Document} {ks : List Kept},
      List.Forall₂ (fun t k => messageLoop t [] [] = .ok (k.users, k.messages)) doc ks →
      ∀ (count : Nat) (chats : Dict Text (List Message)),
        threadLoop H size doc count chats =
          ⟨(List.range' (count + 1) doc.length).flatMap fun i =>
              [Act.stdout (progressLine i size), .flush],
            .ok (chats.assignAll (ks.map (Kept.entry H)))⟩
  | [], [], .nil, _, _ => rfl
  | t :: doc, k :: ks, .cons ht hrest, count, chats => by
      have ih := threadLoop_ok H size hrest (count + 1)
        (chats.set (chatKey H k.users) k.messages)
      simp only [threadLoop, ht, Traced.lift_ok_bind, ih]
      rfl

/-- The outcome of `extract` on threads the message loop does not raise on. -/
theorem extract_result (H : HashOrder) (user : Text) {doc : Document} {ks : List Kept}
    (h : List.Forall₂ (fun t k => messageLoop t [] [] = .ok (k.users, k.messages)) doc ks) :
    (extract H user doc).result = .ok ⟨user, Dict.empty.assignAll (ks.map (Kept.entry H))⟩ := by
  rw [extract, threadLoop_ok H doc.length h 0 .empty]
  rfl

/-! ## Documents with valid timestamps -/

/-- A message of a document: a sender, a valid timestamp, and a text or none. -/
structure SourceMessage where
  sender : Option PyString
  stamp : Timestamp
  text : Option Text

/-- What pyquery yields for it. -/
def SourceMessage.raw (m : SourceMessage) : RawMessage := ⟨m.sender, some m.stamp.text, m.text⟩

/-- The record to be stored for it, if it has a text. -/
def SourceMessage.record (m : SourceMessage) : Option Message :=
  m.text.map fun t => ⟨m.sender, m.stamp.stored.str, t⟩

/-- A thread of such messages. -/
abbrev SourceThread := List SourceMessage

/-- What pyquery yields for a document of such threads. -/
def rawDocument (doc : List SourceThread) : Document := doc.map (·.map SourceMessage.raw)

/-- The records of a thread. -/
def records (t : SourceThread) : List Message := t.filterMap SourceMessage.record

/-- The set of the senders of a list of messages. -/
def senderSet (ms : List Message) : List (Option PyString) :=
  ms.foldl (fun ids m => addUser ids m.user) []

/-- The message loop keeps the records and adds their senders. -/
theorem messageLoop_source (t : SourceThread) : ∀ (ids : List (Option PyString)) (ms : List Message),
    messageLoop (t.map SourceMessage.raw) ids ms =
      .ok ((records t).foldl (fun ids m => addUser ids m.user) ids, ms ++ records t) := by
  induction t with
  | nil => intro ids ms; simp [messageLoop, records]
  | cons m t ih =>
      intro ids ms
      cases ht : m.text with
      | none =>
          have hr : records (m :: t) = records t := by simp [records, SourceMessage.record, ht]
          simp only [List.map_cons, messageLoop, SourceMessage.raw, ht]
          rw [hr]
          exact ih ids ms
      | some text =>
          have hr : records (m :: t) = ⟨m.sender, m.stamp.stored.str, text⟩ :: records t := by
            simp [records, SourceMessage.record, ht]
          simp only [List.map_cons, messageLoop, SourceMessage.raw, ht, messageDate,
            extractDate_text, bind, Except.bind]
          rw [ih, hr, List.foldl_cons, List.append_assoc]
          rfl

/-- What a thread with valid timestamps contributes. -/
def SourceThread.kept (t : SourceThread) : Kept := ⟨senderSet (records t), records t⟩

theorem forall₂_kept (doc : List SourceThread) :
    List.Forall₂ (fun t k => messageLoop t [] [] = .ok (k.users, k.messages)) (rawDocument doc)
      (doc.map SourceThread.kept) := by
  induction doc with
  | nil => exact .nil
  | cons t doc ih =>
      refine .cons ?_ ih
      rw [messageLoop_source]
      rfl

/-! ## When nothing is lost -/

/-- The assignments lose nothing exactly when no thread that keeps a message
is followed by one whose senders are listed alike. -/
theorem overwritesEmpty_kept_iff (H : HashOrder) (doc : List SourceThread) :
    Dict.OverwritesEmpty ((doc.map SourceThread.kept).map (Kept.entry H)) ↔
      doc.Pairwise fun s t => records s ≠ [] →
        H.set (senderSet (records s)) ≠ H.set (senderSet (records t)) := by
  rw [Dict.OverwritesEmpty, List.pairwise_map, List.pairwise_map]
  refine List.Pairwise.iff fun s t => ?_
  simp only [Kept.entry, SourceThread.kept, chatKey]
  constructor
  · intro h hne hset
    exact hne (h (by rw [hset]))
  · intro h hkey
    by_contra hne
    exact h hne (strList_injective hkey)

/-- Extraction of a document with valid timestamps succeeds.  It keeps every
message that has a text, and each once, exactly when no thread that keeps one
is followed by a thread whose set of senders Python lists alike. -/
theorem extract_keeps_all_iff (H : HashOrder) (user : Text) (doc : List SourceThread) :
    ∃ fb, (extract H user (rawDocument doc)).result = .ok fb ∧
      (fb.chats.pooled = ((doc.flatMap records : List Message) : Multiset Message) ↔
        doc.Pairwise fun s t => records s ≠ [] →
          H.set (senderSet (records s)) ≠ H.set (senderSet (records t))) := by
  refine ⟨_, extract_result H user (forall₂_kept doc), ?_⟩
  rw [← overwritesEmpty_kept_iff H doc, ← Dict.pooled_assignAll_iff]
  simp only [List.flatMap_map]
  rfl

/-- The order of insertion. -/
def HashOrder.insertion : HashOrder := ⟨id, fun _ => .refl _, id, fun _ => .refl _⟩

/-- Thursday, January 16, 2014 at 9:15pm EST. -/
def sampleStamp : Timestamp where
  weekday := "Thursday".toList
  year := 2014
  month := 1
  day := 16
  hour := 9
  minute := 15
  pm := true
  tz := "EST".toList
  date_valid := by decide
  time_valid := by decide
  words := by decide

/-- A message of the sample conversation. -/
def sampleMessage (sender text : String) : SourceMessage :=
  ⟨some (.ofText sender.toList), sampleStamp, some text.toList⟩

/-- One conversation that was exported as two threads. -/
def splitConversation : List SourceThread :=
  [[sampleMessage "Friend1" "This is the first message"],
    [sampleMessage "Friend1" "This is the second message"]]

/-- Of a conversation in two threads only the second is kept. -/
theorem extract_loses_split_conversation :
    ¬∃ fb, (extract .insertion "0a1b".toList (rawDocument splitConversation)).result = .ok fb ∧
      fb.chats.pooled = ((splitConversation.flatMap records : List Message) : Multiset Message) := by
  rintro ⟨fb, hfb, hpool⟩
  have hres := extract_result .insertion "0a1b".toList (forall₂_kept splitConversation)
  rw [hres, Except.ok.injEq] at hfb
  subst hfb
  have hcard := congrArg Multiset.card hpool
  revert hcard
  decide

end Analyser
