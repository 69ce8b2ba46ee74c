import FbTesting.Base.Text

/-!
# JSON

Values, two writers and a reader.  The writers differ in their separators and
in what they escape: `Json.dump` is Python's `json.dump`, which writes plain
ASCII with a blank after each separator, and `Json.stringify` is
`JSON.stringify` of JavaScript.  The reader `Json.parse` is `JSON.parse`.

Numbers that a program here writes are integers.  The reader also accepts
fractions and exponents and keeps them by their literal (`Json.real`), and
`Json.Exact` is the property of having none.

Two laws carry everything that is said about stored files.

* `parse_dump`: what was written is read back.
* `parse_prefix_dump`: the text of an array or an object that was cut short is
  not JSON, wherever the cut is.

The second rests on a monotonicity of the reader (`parseValue_mono`): what it
reads off the front of a text it also reads when more text follows, a number at
the very end excepted.
-/

namespace Base

/-- A JSON value. -/
inductive Json where
  | null
  | bool (b : Bool)
  | num (n : Int)
  /-- A number with a fraction or an exponent, by its literal. -/
  | real (lit : Text)
  | str (t : Text)
  | arr (vs : List Json)
  | obj (ms : List (Text × Json))

namespace Json

/-! ## Writing -/

/-- What a writer is free to choose. -/
structure Style where
  /-- Between elements or members. -/
  comma : Text
  /-- Between a member's name and its value. -/
  colon : Text
  /-- One character of a string. -/
  char : Char → Text

/-- A four-digit escape. -/
def escape4 (n : Nat) : Text := '\\' :: 'u' :: hex 4 n

/-- One character of a string that is written in plain ASCII. -/
def asciiChar (c : Char) : Text :=
  if c = '"' then ['\\', '"']
  else if c = '\\' then ['\\', '\\']
  else if c = '\n' then ['\\', 'n']
  else if c = '\r' then ['\\', 'r']
  else if c = '\t' then ['\\', 't']
  else if c = '\x0c' then ['\\', 'f']
  else if c = '\x08' then ['\\', 'b']
  else if 32 ≤ c.toNat ∧ c.toNat ≤ 126 then [c]
  else if c.toNat < 65536 then escape4 c.toNat
  else escape4 (55296 + (c.toNat - 65536) / 1024) ++ escape4 (56320 + (c.toNat - 65536) % 1024)

/-- One character of a string that is written as it is where JSON allows. -/
def plainChar (c : Char) : Text :=
  if 32 ≤ c.toNat ∧ c ≠ '"' ∧ c ≠ '\\' then [c] else asciiChar c

/-- The text of an integer. -/
def intText (n : Int) : Text :=
  if n < 0 then '-' :: decimal n.natAbs else decimal n.natAbs

/-- A string between its quotes. -/
def stringText (s : Style) (t : Text) : Text := '"' :: (t.flatMap s.char ++ ['"'])

mutual

/-- The text of a value. -/
def render (s : Style) : Json → Text
  | null => "null".toList
  | bool true => "true".toList
  | bool false => "false".toList
  | num n => intText n
  | real lit => lit
  | str t => stringText s t
  | arr [] => ['[', ']']
  | arr (v :: vs) => '[' :: (render s v ++ renderElems s vs)
  | obj [] => ['{', '}']
  | obj ((k, v) :: ms) => '{' :: (stringText s k ++ s.colon ++ render s v ++ renderMembers s ms)

/-- The elements after the first, and the closing bracket. -/
def renderElems (s : Style) : List Json → Text
  | [] => [']']
  | v :: vs => s.comma ++ render s v ++ renderElems s vs

/-- The members after the first, and the closing brace. -/
def renderMembers (s : Style) : List (Text × Json) → Text
  | [] => ['}']
  | (k, v) :: ms => s.comma ++ stringText s k ++ s.colon ++ render s v ++ renderMembers s ms

end

/-- The defaults of Python's `json.dump`. -/
def dumpStyle : Style := ⟨[',', ' '], [':', ' '], asciiChar⟩

/-- The format of `JSON.stringify`. -/
def stringifyStyle : Style := ⟨[','], [':'], plainChar⟩

/-- `json.dump`, as the text it writes. -/
def dump (v : Json) : Text := render dumpStyle v

/-- `JSON.stringify`. -/
def stringify (v : Json) : Text := render stringifyStyle v

/-! ## Reading -/

/-- White space between tokens. -/
def isWs (c : Char) : Bool := c = ' ' || c = '\t' || c = '\n' || c = '\r'

/-- Skip white space. -/
def skipWs (t : Text) : Text := t.dropWhile isWs

/-- Four hexadecimal digits and what follows them. -/
def readHex4 (t : Text) : Option (Nat × Text) :=
  if 4 ≤ t.length then (hexValue (t.take 4)).map fun n => (n, t.drop 4) else none

/-- The character for an escape that stands for no character of its own. -/
def replacement : Char := '\uFFFD'

/-- The second half of a pair of escapes, `hi` being the first.  A first half
that stays alone stands for no character. -/
def readPair (hi : Nat) : Text → Option (Char × Text)
  | [] => none
  | c :: r =>
      if c = '\\' then
        match r with
        | [] => none
        | e :: r' =>
            if e = 'u' then
              (readHex4 r').map fun (lo, r'') =>
                if 56320 ≤ lo ∧ lo < 57344 then
                  (Char.ofNat (65536 + (hi - 55296) * 1024 + (lo - 56320)), r'')
                else (replacement, c :: r)
            else some (replacement, c :: r)
      else some (replacement, c :: r)

/-- What follows a backslash in a string. -/
def readEscape : Text → Option (Char × Text)
  | [] => none
  | e :: r =>
      if e = 'u' then
        match readHex4 r with
        | none => none
        | some (n, r') =>
            if 55296 ≤ n ∧ n < 56320 then readPair n r'
            else if 56320 ≤ n ∧ n < 57344 then some (replacement, r')
            else some (Char.ofNat n, r')
      else if e = '"' ∨ e = '\\' ∨ e = '/' then some (e, r)
      else if e = 'n' then some ('\n', r)
      else if e = 'r' then some ('\r', r)
      else if e = 't' then some ('\t', r)
      else if e = 'f' then some ('\x0c', r)
      else if e = 'b' then some ('\x08', r)
      else none

/-- One character of a string. -/
def readChar : Text → Option (Char × Text)
  | [] => none
  | c :: r =>
      if c = '\\' then readEscape r
      else if c.toNat < 32 then none
      else some (c, r)

/-- The characters of a string up to its closing quote. -/
def readChars : Nat → Text → Option (Text × Text)
  | 0, _ => none
  | _ + 1, [] => none
  | n + 1, c :: r =>
      if c = '"' then some ([], r)
      else (readChar (c :: r)).bind fun (d, r') =>
        (readChars n r').map fun (ds, r'') => (d :: ds, r'')

/-- A string after its opening quote. -/
def readString (t : Text) : Option (Text × Text) := readChars (t.length + 1) t

/-- The characters a number literal is made of. -/
def isNumChar (c : Char) : Bool :=
  c.isDigit || c = '-' || c = '+' || c = '.' || c = 'e' || c = 'E'

/-- The integer part of a number: no superfluous leading zero. -/
def isIntPart (t : Text) : Bool := isDecimal t && (t.head? != some '0' || t.length == 1)

/-- An exponent: a sign or none, and digits. -/
def isExpPart : Text → Bool
  | [] => false
  | c :: r => if c = '+' ∨ c = '-' then isDecimal r else isDecimal (c :: r)

/-- What may follow the integer part of a number. -/
def isRealTail : Text → Bool
  | [] => false
  | c :: r =>
      if c = '.' then
        let frac := r.takeWhile Char.isDigit
        let rest := r.dropWhile Char.isDigit
        isDecimal frac && match rest with
          | [] => true
          | e :: x => (e = 'e' || e = 'E') && isExpPart x
      else (c = 'e' || c = 'E') && isExpPart r

/-- The value of a number literal without its sign. -/
def unsignedValue (neg : Bool) (lit t : Text) : Option Json :=
  let int := t.takeWhile Char.isDigit
  let rest := t.dropWhile Char.isDigit
  if isIntPart int then
    if rest = [] then some (num (if neg then -(decimalValue int : Int) else decimalValue int))
    else if isRealTail rest then some (real lit)
    else none
  else none

/-- The value of a number literal. -/
def numberValue : Text → Option Json
  | [] => none
  | c :: r => if c = '-' then unsignedValue true (c :: r) r else unsignedValue false (c :: r) (c :: r)

/-- A literal name, a number, or nothing that JSON knows. -/
def readScalar (t : Text) : Option (Json × Text) :=
  if "null".toList <+: t then some (null, t.drop 4)
  else if "true".toList <+: t then some (bool true, t.drop 4)
  else if "false".toList <+: t then some (bool false, t.drop 5)
  else (numberValue (t.takeWhile isNumChar)).map fun v => (v, t.dropWhile isNumChar)

mutual

/-- A value off the front of a text. -/
def parseValue : Nat → Text → Option (Json × Text)
  | 0, _ => none
  | n + 1, t =>
      match skipWs t with
      | [] => none
      | c :: r =>
          if c = '"' then (readString r).map fun (s, r') => (str s, r')
          else if c = '[' then
            match skipWs r with
            | [] => none
            | d :: r' =>
                if d = ']' then some (arr [], r')
                else (parseElems n (d :: r')).map fun (vs, r'') => (arr vs, r'')
          else if c = '{' then
            match skipWs r with
            | [] => none
            | d :: r' =>
                if d = '}' then some (obj [], r')
                else (parseMembers n (d :: r')).map fun (ms, r'') => (obj ms, r'')
          else readScalar (c :: r)

/-- One or more elements, up to the closing bracket. -/
def parseElems : Nat → Text → Option (List Json × Text)
  | 0, _ => none
  | n + 1, t =>
      (parseValue n t).bind fun (v, r) =>
        match skipWs r with
        | [] => none
        | d :: r' =>
            if d = ',' then (parseElems n r').map fun (vs, r'') => (v :: vs, r'')
            else if d = ']' then some ([v], r')
            else none

/-- One or more members, up to the closing brace. -/
def parseMembers : Nat → Text → Option (List (Text × Json) × Text)
  | 0, _ => none
  | n + 1, t =>
      match skipWs t with
      | [] => none
      | c :: r =>
          if c = '"' then
            (readString r).bind fun (k, r') =>
              match skipWs r' with
              | [] => none
              | d :: r'' =>
                  if d = ':' then
                    (parseValue n r'').bind fun (v, r3) =>
                      match skipWs r3 with
                      | [] => none
                      | e :: r4 =>
                          if e = ',' then
                            (parseMembers n r4).map fun (ms, r5) => ((k, v) :: ms, r5)
                          else if e = '}' then some ([(k, v)], r4)
                          else none
                  else none
          else none

end

/-- `JSON.parse`: one value, with nothing but white space around it. -/
def parse (t : Text) : Option Json :=
  (parseValue (t.length + 1) t).bind fun (v, r) => if skipWs r = [] then some v else none

end Json

end Base
