import FbTesting.Analyser.Extract

/-!
# The analysis

`timeline` groups consecutive messages by the hour of the day and writes the
number of words of each group; the group that is open when the messages run out
is not written.  `hour_histogram` counts messages by hour.  Both read the
stored dates back with `strptime`, write a line of progress per message, dump
their result to a file and write their own name to standard output when the
file is closed.

`main` checks the name of the file, extracts, and runs both charts on the first
chat of the dictionary.  `analyse` is the process around it: the line `yes`
before anything else, and what becomes of an exception.
-/

namespace Analyser

open Base Python

/-! ## The time line -/

/-- An entry of the time line. -/
structure Entry where
  date : DateTime
  wordcount : Nat
deriving DecidableEq

/-- `len(text.split(" "))`. -/
def wordCount (text : Text) : Nat := (text.splitOn ' ').length

/-- A line of progress of `timeline`. -/
def timelineLine (count size : Nat) : Text :=
  "-timeline progress: ".toList ++ decimal (100 * count / size) ++ "%   \r".toList

/-- The nested loops, from where the message in hand has been counted: `date` is
that of the first message of the group and `word_count` the words so far.  A
message of another hour closes the group, and the outer loop begins the next
one with it, reading the same date again. -/
def timelineLoop (size : Nat) (date : DateTime) (word_count : Nat) :
    List Message → Nat → List Entry → Script (List Entry)
  | [], _, date_dict => pure date_dict
  | m :: rest, count, date_dict => do
      let temp ← Traced.lift (strptime m.date)
      say (timelineLine (count + 1) size)
      if temp.hour = date.hour then
        timelineLoop size date (word_count + wordCount m.text) rest (count + 1) date_dict
      else
        timelineLoop size temp (wordCount m.text) rest (count + 1)
          (date_dict ++ [⟨date, word_count⟩])

/-- The entries of the time line.  Without messages the first `next` already
raises `StopIteration`. -/
def timelineEntries (messages : List Message) : Script (List Entry) :=
  match messages with
  | [] => pure []
  | m :: rest => do
      let date ← Traced.lift (strptime m.date)
      timelineLoop messages.length date (wordCount m.text) rest 0 []

/-- An entry as JSON. -/
def Entry.json (e : Entry) : Json :=
  .obj [("date".toList, .str e.date.str), ("wordcount".toList, .num e.wordcount)]

/-- The time line as JSON. -/
def timelineJson (entries : List Entry) : Json := .arr (entries.map Entry.json)

/-- `timeline`. -/
def timeline (messages : List Message) : Script Unit := do
  say "Starting analysis for time line plot...".toList
  let date_dict ← timelineEntries messages
  say "All messages have been analyzed.".toList
  dumpTo .timeline (timelineJson date_dict)
  say "timeline".toList

/-! ## The hour histogram -/

/-- A line of progress of `hour_histogram`. -/
def hourLine (count size : Nat) : Text :=
  "-hour histograms progress: ".toList ++ decimal (100 * count / size) ++ "%   \r".toList

/-- One more message in its hour. -/
def countHour (hour_dict : Dict Nat Nat) (hour : Nat) : Dict Nat Nat :=
  match hour_dict.get? hour with
  | none => hour_dict.set hour 1
  | some n => hour_dict.set hour (n + 1)

/-- The loop over the messages. -/
def hourLoop (size : Nat) : List Message → Nat → Dict Nat Nat → Script (Dict Nat Nat)
  | [], _, hour_dict => pure hour_dict
  | m :: rest, count, hour_dict => do
      let date ← Traced.lift (strptime m.date)
      let hour_dict := countHour hour_dict date.hour
      say (hourLine (count + 1) size)
      hourLoop size rest (count + 1) hour_dict

/-- The bars, from hour 23 down, with the hours numbered from one. -/
def hourArr (hour_dict : Dict Nat Nat) : List (Nat × Nat) :=
  (List.range 24).reverse.map fun hour => (hour + 1, (hour_dict.get? hour).getD 0)

/-- The histogram as JSON. -/
def hourJson (hour_arr : List (Nat × Nat)) : Json :=
  .arr (hour_arr.map fun p => .obj [("axis".toList, .num p.1), ("value".toList, .num p.2)])

/-- `hour_histogram`. -/
def hour_histogram (messages : List Message) : Script Unit := do
  let hour_dict ← hourLoop messages.length messages 1 .empty
  dumpTo .hourHistogram (hourJson (hourArr hour_dict))
  say "hour_histogram".toList

/-! ## The program -/

/-- `filepath.endswith('.html') or filepath.endswith('.htm')`. -/
def isHtmlPath (filepath : Text) : Bool :=
  ".html".toList.isSuffixOf filepath || ".htm".toList.isSuffixOf filepath

/-- The message for a file of another type. -/
def wrongTypeLine (filepath : Text) : Text :=
  "Error: incorrect file type. Received ".toList ++ (filepath.splitOn '.').getLastD [] ++
    ", need .htm or html".toList

/-- `fb['chats'][fb['chats'].keys()[0]]['messages']`. -/
def firstChat (H : HashOrder) (fb : Fb) : Except PyError (List Message) :=
  match H.dict fb.chats.keys with
  | [] => .error .indexError
  | k :: _ => .ok (fb.chats.listAt k)

/-- `main`, with the exit status it ends with.  `doc` is what pyquery makes of
the file. -/
def main (H : HashOrder) (user filepath : Text) (doc : Except PyError Document) : Script Nat :=
  if isHtmlPath filepath then do
    let doc ← Traced.lift doc
    let fb ← extract H user doc
    let messages ← Traced.lift (firstChat H fb)
    timeline messages
    hour_histogram messages
    pure 0
  else do
    say (wrongTypeLine filepath)
    pure 1

/-- A run of the process: what it does, and its exit status. -/
structure Analysis where
  acts : List Act
  code : Nat

/-- The process.  An `IOError` is caught and printed; any other exception ends
the process with a traceback.  Standard output is flushed at the end. -/
def analyse (H : HashOrder) (user filepath : Text) (doc : Except PyError Document) : Analysis :=
  let run := main H user filepath doc
  let acts := Act.stdout "yes\n".toList :: run.acts
  match run.result with
  | .ok code => ⟨acts ++ [.flush], code⟩
  | .error (.ioError errno strerror) =>
      ⟨acts ++ [.stdout ("I/O error(".toList ++ errno ++ "): ".toList ++ strerror ++ ['\n']), .flush],
        0⟩
  | .error e => ⟨acts ++ [.stderr e, .flush], 1⟩

/-- What a run writes to standard output. -/
def stdoutText (acts : List Act) : Text :=
  acts.flatMap fun
    | .stdout t => t
    | _ => []

end Analyser
