import Mathlib.Data.List.Sort
import Mathlib.Logic.Function.Iterate
import FbTesting.Analyser.Extract
import FbTesting.Node.Value

/-!
# Searching in the open chat

When the messages of a chat arrive they replace those of the chat before, and one more
handler is bound to the search box; none is ever taken away.  When Enter is pressed all of
the handlers run.  Each of them empties `#chat_search` and puts the matches there, from the
messages that are there now, so that a second run leaves what the first one has put there
(`handler_iterate`).  After a load there is at least one handler (`Loaded`).

The context of a match is read at five indices, of which some may not exist.  Those that
exist are the `window` around the match (`filterMap_indexAt`).
-/

namespace Browser

open Base Node Python Analyser

/-! ## Elements -/

/-- A `div` with an id and markup. -/
structure Div where
  id : Text
  innerHTML : Text
deriving DecidableEq

/-- A `mes-sage` element. -/
structure MesSage where
  children : List Div
deriving DecidableEq

/-- A `div` with the id `messageCont`: the element of a message, and those in the `div`
with the id `context`. -/
structure MessageCont where
  message : MesSage
  context : List MesSage
deriving DecidableEq

/-- The element for a message.  A name that is `null` is set as empty markup. -/
def mesSage (m : Message) : MesSage :=
  ⟨[⟨"date".toList, m.date⟩, ⟨"userName".toList, (m.user.map PyString.text).getD []⟩,
    ⟨"messageText".toList, m.text⟩]⟩

/-! ## The handler -/

/-- `messages[k]`. -/
def messageAt (messages : List Message) (k : Int) : Option Message :=
  if k < 0 then none else messages[k.toNat]?

/-- The values of `i` in the loop over the context. -/
def offsets : List Int := [-2, -1, 0, 1, 2]

/-- The loop over the context. -/
def context (messages : List Message) (msg : Nat) : List MesSage :=
  offsets.filterMap fun i => (messageAt messages (msg + i)).map mesSage

/-- The loop over the messages, from the index `msg` on.  `content` is what is in
`#chat_search`. -/
def searchLoop (messages : List Message) (val : Text) :
    List Message → Nat → List MessageCont → List MessageCont
  | [], _, content => content
  | m :: rest, msg, content =>
      if contains m.text val then
        searchLoop messages val rest (msg + 1) (content ++ [⟨mesSage m, context messages msg⟩])
      else searchLoop messages val rest (msg + 1) content

/-- A key that is pressed in the search box, and what is in the box. -/
structure KeyPress where
  code : Nat
  val : Text

/-- What the search uses of the page. -/
structure ChatPage where
  /-- The global variable. -/
  messages : List Message
  /-- The number of handlers that are bound to the search box. -/
  handlers : Nat
  /-- The content of `#chat_search`. -/
  chat_search : List MessageCont

namespace ChatPage

/-- The page as it is loaded.  Without a handler nothing reads the messages. -/
def initial : ChatPage := ⟨[], 0, []⟩

/-- A run of one handler. -/
def handler (k : KeyPress) (s : ChatPage) : ChatPage :=
  if k.code = 13 then { s with chat_search := searchLoop s.messages k.val s.messages 0 [] } else s

end ChatPage

/-- What happens to the page. -/
inductive ChatEvent where
  /-- The messages that `getLinks` has asked for arrive. -/
  | load (messages : List Message)
  | keypress (k : KeyPress)

namespace ChatPage

/-- One event.  A key press runs the handlers one after the other. -/
def step (s : ChatPage) : ChatEvent → ChatPage
  | .load messages => { s with messages := messages, handlers := s.handlers + 1 }
  | .keypress k => (handler k)^[s.handlers] s

/-- The page after some events. -/
def run (events : List ChatEvent) : ChatPage := events.foldl step initial

end ChatPage

/-! ## What a search should show -/

/-- The indices from `max 0 (i - 2)` to `min (n - 1) (i + 2)`, in order. -/
def window (n i : Nat) : List Nat := List.range' (i - 2) (min (n - 1) (i + 2) + 1 - (i - 2))

/-- The indices of the messages whose text contains the searched text, in order. -/
def matching (messages : List Message) (q : Text) : List Nat :=
  (List.range messages.length).filter fun i => messages[i]?.any fun m => contains m.text q

/-- The contents of the parts of an element that have an id. -/
def MesSage.part (e : MesSage) (id : Text) : List Text :=
  (e.children.filter fun d => d.id = id).map Div.innerHTML

/-- The element shows a message: when it was sent, by whom, and its text. -/
structure ShowsMessage (m : Message) (e : MesSage) : Prop where
  parts : e.children.map Div.id = ["date".toList, "userName".toList, "messageText".toList]
  date : e.part "date".toList = [m.date]
  user : ∀ u, m.user = some u → e.part "userName".toList = [u.text]
  /-- A message of nobody has an empty name. -/
  nobody : m.user = none → e.part "userName".toList = [[]]
  text : e.part "messageText".toList = [m.text]

/-- The element shows the message of an index. -/
def ShowsAt (messages : List Message) (k : Nat) (e : MesSage) : Prop :=
  ∃ m, messages[k]? = some m ∧ ShowsMessage m e

/-- The block shows the message of the index, and the messages around it. -/
structure Block (messages : List Message) (i : Nat) (b : MessageCont) : Prop where
  message : ShowsAt messages i b.message
  context : List.Forall₂ (ShowsAt messages) (window messages.length i) b.context

/-- There is one block for each match. -/
def ShowsMatches (messages : List Message) (q : Text) (content : List MessageCont) : Prop :=
  List.Forall₂ (Block messages) (matching messages q) content

/-- The code shows each message. -/
theorem showsMessage_mesSage (m : Message) : ShowsMessage m (mesSage m) where
  parts := rfl
  date := rfl
  user := fun u hu => by rw [mesSage, hu]; rfl
  nobody := fun hu => by rw [mesSage, hu]; rfl
  text := rfl

/-! ## The context -/

/-- The index of an element of a list of length `n`. -/
def indexAt (n : Nat) (k : Int) : Option Nat := if 0 ≤ k ∧ k < n then some k.toNat else none

theorem indexAt_eq_some {n k : Nat} {j : Int} : indexAt n j = some k ↔ j = k ∧ k < n := by
  unfold indexAt
  split
  · rw [Option.some.injEq]
    omega
  · constructor
    · intro h
      cases h
    · omega

theorem messageAt_eq (messages : List Message) (k : Int) :
    messageAt messages k = (indexAt messages.length k).bind fun i => messages[i]? := by
  unfold messageAt indexAt
  split
  · rw [if_neg (by omega)]
    rfl
  · split
    · rfl
    · exact List.getElem?_eq_none (by omega)

theorem mem_window {n i k : Nat} (h : i < n) : k ∈ window n i ↔ i - 2 ≤ k ∧ k ≤ i + 2 ∧ k < n := by
  rw [window, List.mem_range'_1]
  omega

theorem mem_offsets {i : Int} : i ∈ offsets ↔ -2 ≤ i ∧ i ≤ 2 := by
  simp only [offsets, List.mem_cons, List.not_mem_nil, or_false]
  omega

/-- Of the five indices around a message those that exist are the window. -/
theorem filterMap_indexAt {n msg : Nat} (h : msg < n) :
    (offsets.filterMap fun i => indexAt n (msg + i)) = window n msg := by
  have hwindow : (window n msg).Pairwise (· < ·) := List.pairwise_lt_range'
  have hindices : (offsets.filterMap fun i => indexAt n (msg + i)).Pairwise (· < ·) := by
    have hoffsets : offsets.Pairwise (· < ·) := by decide
    refine hoffsets.filterMap _ fun i j hij k hk l hl => ?_
    have hik := (indexAt_eq_some.mp hk).1
    have hjl := (indexAt_eq_some.mp hl).1
    omega
  refine hindices.eq_of_mem_iff hwindow fun k => ?_
  rw [List.mem_filterMap, mem_window h]
  constructor
  · rintro ⟨i, hi, hk⟩
    have hrange := mem_offsets.mp hi
    have hindex := indexAt_eq_some.mp hk
    omega
  · intro hk
    exact ⟨k - msg, mem_offsets.mpr (by omega), indexAt_eq_some.mpr (by omega)⟩

theorem forall₂_filterMap {α β : Type} {R : α → β → Prop} {f : α → Option β} {l : List α}
    (h : ∀ a ∈ l, ∃ b, f a = some b ∧ R a b) : List.Forall₂ R l (l.filterMap f) := by
  induction l with
  | nil => exact .nil
  | cons a l ih =>
      obtain ⟨b, hb, hr⟩ := h a List.mem_cons_self
      rw [List.filterMap_cons_some hb]
      exact .cons hr (ih fun x hx => h x (List.mem_cons_of_mem a hx))

/-- The context is made of the messages of the window, all of which exist. -/
theorem context_shows {messages : List Message} {msg : Nat} (h : msg < messages.length) :
    List.Forall₂ (ShowsAt messages) (window messages.length msg) (context messages msg) := by
  have hcontext : context messages msg =
      (window messages.length msg).filterMap fun k => messages[k]?.map mesSage := by
    rw [← filterMap_indexAt h, List.filterMap_filterMap, context]
    refine List.filterMap_congr fun i _ => ?_
    rw [messageAt_eq, Option.map_bind]
    rfl
  rw [hcontext]
  refine forall₂_filterMap fun k hk => ?_
  have hm := List.getElem?_eq_getElem ((mem_window h).mp hk).2.2
  exact ⟨_, by rw [hm]; rfl, _, hm, showsMessage_mesSage _⟩

/-! ## The handlers -/

/-- The loop appends a block for each match from here on. -/
theorem searchLoop_shows {messages : List Message} (val : Text) (rest : List Message) :
    ∀ (done : List Message) (content : List MessageCont), messages = done ++ rest →
      ∃ blocks, searchLoop messages val rest done.length content = content ++ blocks ∧
        List.Forall₂ (Block messages) ((List.range' done.length rest.length).filter fun i =>
          messages[i]?.any fun m => contains m.text val) blocks := by
  induction rest with
  | nil => exact fun done content _ => ⟨[], (List.append_nil content).symm, .nil⟩
  | cons m rest ih =>
      intro done content hsplit
      have hnext : messages = (done ++ [m]) ++ rest := by
        rw [hsplit, List.append_assoc]
        rfl
      have hm : messages[done.length]? = some m := by
        rw [hsplit, List.getElem?_append_right (Nat.le_refl _), Nat.sub_self]
        rfl
      have hlt : done.length < messages.length := (List.getElem?_eq_some_iff.mp hm).1
      have hlength : (done ++ [m]).length = done.length + 1 := List.length_append
      rw [searchLoop, List.length_cons, List.range'_succ, List.filter_cons, hm, Option.any_some]
      split
      · obtain ⟨blocks, hloop, hblocks⟩ :=
          ih (done ++ [m]) (content ++ [⟨mesSage m, context messages done.length⟩]) hnext
        rw [hlength] at hloop hblocks
        have hblock : Block messages done.length ⟨mesSage m, context messages done.length⟩ :=
          ⟨⟨m, hm, showsMessage_mesSage m⟩, context_shows hlt⟩
        exact ⟨_, hloop.trans (List.append_assoc _ _ _), .cons hblock hblocks⟩
      · obtain ⟨blocks, hloop, hblocks⟩ := ih (done ++ [m]) content hnext
        rw [hlength] at hloop hblocks
        exact ⟨blocks, hloop, hblocks⟩

namespace ChatPage

/-- A second run changes nothing, so all handlers do what one of them does. -/
theorem handler_iterate (k : KeyPress) (n : Nat) (s : ChatPage) :
    (handler k)^[n + 1] s = handler k s := by
  have hagain : handler k (handler k s) = handler k s := by
    by_cases hcode : k.code = 13
    · simp only [handler, if_pos hcode]
    · simp only [handler, if_neg hcode]
  rw [Function.iterate_succ_apply]
  exact Function.iterate_fixed hagain n

/-- The messages of the last load are there, and a handler. -/
structure Loaded (messages : List Message) (s : ChatPage) : Prop where
  current : s.messages = messages
  bound : s.handlers ≠ 0

theorem loaded_load (s : ChatPage) (messages : List Message) :
    Loaded messages (s.step (.load messages)) := ⟨rfl, Nat.succ_ne_zero _⟩

/-- With a handler there, a key press is handled as if it were the only one. -/
theorem Loaded.step_keypress {messages : List Message} {s : ChatPage} (h : Loaded messages s)
    (k : KeyPress) : s.step (.keypress k) = handler k s := by
  obtain ⟨n, hn⟩ := Nat.exists_eq_succ_of_ne_zero h.bound
  rw [step, hn]
  exact handler_iterate k n s

theorem Loaded.keypress {messages : List Message} {s : ChatPage} (h : Loaded messages s)
    (k : KeyPress) : Loaded messages (s.step (.keypress k)) := by
  rw [h.step_keypress k, handler]
  split
  · exact ⟨h.current, h.bound⟩
  · exact h

/-- Keys that are pressed after a load leave the messages and the handlers. -/
theorem Loaded.keypresses {messages : List Message} (keys : List KeyPress) : ∀ {s : ChatPage},
    Loaded messages s → Loaded messages ((keys.map ChatEvent.keypress).foldl step s) := by
  induction keys with
  | nil => exact fun h => h
  | cons k keys ih => exact fun h => ih (h.keypress k)

/-- Enter shows the matches in the messages of the last load. -/
theorem Loaded.enter {messages : List Message} {s : ChatPage} (h : Loaded messages s) (q : Text) :
    ShowsMatches messages q (s.step (.keypress ⟨13, q⟩)).chat_search := by
  obtain ⟨blocks, hloop, hblocks⟩ := searchLoop_shows q messages [] [] rfl
  rw [h.step_keypress, handler, if_pos rfl, h.current]
  rw [List.length_nil, ← List.range_eq_range'] at hblocks
  change List.Forall₂ _ _ (searchLoop messages q messages 0 [])
  rw [show searchLoop messages q messages 0 [] = blocks from hloop]
  exact hblocks

end ChatPage

/-- Whatever was opened, typed and searched before, Enter shows the matches in the
messages that were loaded last, each with its context. -/
theorem chat_search_shows_matches (before : List ChatEvent) (messages : List Message)
    (keys : List KeyPress) (q : Text) :
    ShowsMatches messages q (ChatPage.run (before ++ .load messages ::
      (keys.map ChatEvent.keypress ++ [.keypress ⟨13, q⟩]))).chat_search := by
  have hload := ChatPage.loaded_load (before.foldl ChatPage.step .initial) messages
  have hkeys := hload.keypresses keys
  rw [ChatPage.run, List.foldl_append, List.foldl_cons, List.foldl_append]
  exact hkeys.enter q

end Browser
