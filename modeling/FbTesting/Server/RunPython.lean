import FbTesting.Base.Traced
import FbTesting.Analyser.Main
import FbTesting.Node.Value
import FbTesting.Server.Session

/-!
# The handlers of `runPython`

`runPython` starts the analyser and listens to it.  The handler of its standard
output takes each chunk by itself.  A chunk that is one or two digits, white
space apart, is sent to the browser as progress.  A chunk that begins with `-`
is only printed.  Of any other chunk the text before the first carriage return
is looked up in `datadict`, and if it is the name of a chart the file of the
chart is read.  The callback of that read sends the parsed file to the browser.
The handler of standard error throws.  When the analyser has ended,
`messages.json` is read, and what it holds becomes the data of the session.  The
handlers of `socket.io.js` and `createForm.js` that can throw stand at the end.

A socket is looked up as `nsp.connected[sockets[sessionID]]`, and a missing one
is `undefined`, which has no `emit`.  The handlers here take the outcome of the
lookup as an argument.

Texts are decoded chunks.  The analyser writes ASCII, apart from the extension
of a file it refuses.
-/

namespace Server

open Base Node

/-! ## Charts -/

/-- The entries of `datadict`. -/
inductive Chart where
  | hourHistogram
  | timeline
deriving DecidableEq, Repr

/-- The names of the events sent to the browser. -/
inductive Event where
  | progress
  | radar
  | bar
deriving DecidableEq, Repr

namespace Chart

/-- `key`, which is also the name of the entry. -/
def key : Chart → Text
  | hourHistogram => "hour_histogram".toList
  | timeline => "timeline".toList

/-- `event`. -/
def event : Chart → Event
  | hourHistogram => .radar
  | timeline => .bar

/-- `log`. -/
def log : Chart → Text
  | hourHistogram => "sent hour histogram data to frontend....".toList
  | timeline => "sent timeline data to frontend....".toList

/-- `outputDir`. -/
def outputDir : Chart → Text
  | hourHistogram => "/data/wordcount.json".toList
  | timeline => "/data/hourhisto.json".toList

end Chart

/-- Where the analyser is told to write its files, below the directory of the session.  The
place of `messages.json` is its own choice. -/
def outputDirs : Analyser.OutFile → Text
  | .messages => "/messages.json".toList
  | .timeline => Chart.timeline.outputDir
  | .hourHistogram => Chart.hourHistogram.outputDir

/-- The entries, in the order of the object literal. -/
def datadict : List Chart := [.hourHistogram, .timeline]

/-- The entry of a name. -/
def chartOf (key : Text) : Option Chart := datadict.find? fun c => c.key == key

theorem Chart.key_injective {c d : Chart} (h : c.key = d.key) : c = d := by
  cases c <;> cases d <;> first | rfl | exact absurd h (by decide)

theorem chartOf_eq_some_iff {key : Text} {c : Chart} : chartOf key = some c ↔ key = c.key := by
  constructor
  · intro h
    have hc := List.find?_some h
    exact (beq_iff_eq.mp hc).symm
  · intro h
    subst h
    cases c <;> rfl

/-! ## Handlers -/

/-- The id of a socket. -/
abbrev SocketId := Nat

/-- What an event carries. -/
inductive Payload where
  | text (t : Text)
  | json (v : Json)

/-- What a handler does. -/
inductive Effect where
  /-- `emit` on a connected socket. -/
  | emit (event : Event) (payload : Payload) (socket : SocketId)
  /-- Output on the console of the server. -/
  | console (t : Text)
  /-- The start of the read of a chart's file. -/
  | readChart (c : Chart)
  /-- The start of the read of the session's `messages.json`. -/
  | readStore
  /-- `userData[sessionID] = v`. -/
  | store (v : Json)

/-- The run of a handler. -/
abbrev Handler := Traced JsError Effect Unit

/-- `nsp.connected[sockets[sessionID]].emit(event, payload)`, where `live` is
the socket if it is connected.  The member access comes before the evaluation
of the argument. -/
def emit (live : Option SocketId) (event : Event) (payload : Except JsError Payload) : Handler :=
  match live with
  | none => Traced.lift (.error .typeError)
  | some id => do
      let p ← Traced.lift payload
      Traced.perform (.emit event p id)

/-- `data.toString().trim().match(/^[0-9][0-9]?$/)`. -/
def progressMatch (data : Text) : Option Text :=
  let t := trim data
  if (t.length = 1 ∨ t.length = 2) ∧ t.all Char.isDigit then some t else none

/-- `data.toString().split('\r')[0]`. -/
def beforeReturn (data : Text) : Text := data.takeWhile (· ≠ '\r')

/-- The escape sequence that sends the cursor to the start of the line. -/
def lineStart : Text := "\x1b[0G".toList

/-- The first half of the handler: progress of the extraction. -/
def sendProgress (live : Option SocketId) (data : Text) : Handler :=
  match progressMatch data with
  | some progress => do
      emit live .progress (.ok (.text progress))
      Traced.perform (.console ("extracting facebook data....".toList ++ progress ++ lineStart))
  | none => pure ()

/-- The second half: progress of the charts, or the name of one. -/
def lookUpChart (data : Text) : Handler :=
  if data.head? = some '-' then
    Traced.perform (.console (beforeReturn data ++ lineStart))
  else
    match chartOf (beforeReturn data) with
    | some c => Traced.perform (.readChart c)
    | none => pure ()

/-- `pythonChild.stdout.on('data')`. -/
def onStdoutData (live : Option SocketId) (data : Text) : Handler := do
  sendProgress live data
  lookUpChart data

/-- `if (err) console.log(err.toString().red)`. -/
def printError : Except Text Text → Handler
  | .error err => Traced.perform (.console err)
  | .ok _ => pure ()

/-- The callback of the read of a chart's file, with the content or the text of
the error.  The error is printed and the callback goes on:
`JSON.parse(undefined)` is a syntax error. -/
def onChartRead (c : Chart) (live : Option SocketId) (file : Except Text Text) : Handler := do
  printError file
  emit live c.event ((jsonParse (file.toOption.getD "undefined".toList)).map .json)
  Traced.perform (.console c.log)

/-- `pythonChild.stderr.on('data')`. -/
def onStderrData (data : Text) : Handler := do
  Traced.perform (.console data)
  Traced.lift (.error .error)

/-- `if (code != 0) console.log(…)`. -/
def printCode (code : Nat) : Handler :=
  if code ≠ 0 then Traced.perform (.console "python closed with an error".toList) else pure ()

/-- `pythonChild.on('close')`. -/
def onClose (code : Nat) : Handler := do
  printCode code
  Traced.perform .readStore

/-- The assignment of the parsed `messages.json`. -/
def storeParsed (json : Text) : Handler := do
  let v ← Traced.lift (jsonParse json)
  Traced.perform (.store v)

/-- The callback of the read that `close` starts. -/
def onCloseRead : Except Text Text → Handler
  | .error err => Traced.perform (.console err)
  | .ok json => storeParsed json

/-! ## Handlers of the other modules -/

/-- The callback of the read that `nsp.on('connection')` starts.  Its error
branch uses the `res` of another function. -/
def onConnectionRead : Except Text Text → Handler
  | .error err => do
      Traced.perform (.console err)
      Traced.lift (.error .referenceError)
  | .ok json => storeParsed json

/-- `form.on('error')`, which is outside the function that has `res`. -/
def onFormError (err : Text) : Handler := do
  Traced.perform (.console ("File upload error: ".toList ++ err))
  Traced.lift (.error .referenceError)

end Server
