import Mathlib.Data.List.Sort
import FbTesting.Base.Json

/-!
# JavaScript values

What the server does with the values that `JSON.parse` yields: it reads
properties of them, lists their keys and searches texts.  Reading a property of
`undefined` or `null` is a type error.  A name that is not an own property may be
inherited from a prototype; an inherited member is a function or a prototype, and
the only thing the server asks of it is a property `messages`, which it does not
have.

Texts are lists of code points here, where JavaScript counts a code point above
`U+FFFF` as two.
-/

namespace Node

open Base

/-- The exceptions a handler can end with. -/
inductive JsError where
  | typeError
  | syntaxError
  | referenceError
  | uriError
  /-- `new Error(data)`. -/
  | error
deriving DecidableEq, Repr

/-- `JSON.parse`. -/
def jsonParse (t : Text) : Except JsError Json :=
  match Json.parse t with
  | some v => .ok v
  | none => .error .syntaxError

/-! ## Texts -/

/-- White space, as `trim` has it. -/
def isWhiteSpace (c : Char) : Bool :=
  c ∈ ['\t', '\n', '\x0b', '\x0c', '\r', ' ', '\u00a0', '\u1680', '\u2028', '\u2029', '\u202f',
    '\u205f', '\u3000', '\ufeff'] || ('\u2000' ≤ c && c ≤ '\u200a')

/-- `trim`. -/
def trim (t : Text) : Text := ((t.dropWhile isWhiteSpace).reverse.dropWhile isWhiteSpace).reverse

/-- `t.indexOf(q) != -1`. -/
def contains (t q : Text) : Bool := decide (q <:+: t)

/-! ## Properties -/

/-- A value that is read from an object. -/
inductive JsValue where
  | undefined
  | json (v : Json)
  /-- A member of a prototype. -/
  | inherited

/-- The members of `Object.prototype`. -/
def objectPrototype : List Text :=
  ["constructor", "toString", "toLocaleString", "valueOf", "hasOwnProperty", "isPrototypeOf",
    "propertyIsEnumerable", "__defineGetter__", "__defineSetter__", "__lookupGetter__",
    "__lookupSetter__", "__proto__"].map String.toList

/-- The further members of `String.prototype`. -/
def stringPrototype : List Text :=
  ["charAt", "charCodeAt", "concat", "indexOf", "lastIndexOf", "localeCompare", "match", "replace",
    "search", "slice", "split", "substr", "substring", "toLowerCase", "toLocaleLowerCase",
    "toUpperCase", "toLocaleUpperCase", "trim", "trimLeft", "trimRight", "link", "anchor",
    "fontcolor", "fontsize", "big", "blink", "bold", "fixed", "italics", "small", "strike", "sub",
    "sup"].map String.toList

/-- The further members of `Array.prototype`. -/
def arrayPrototype : List Text :=
  ["concat", "every", "filter", "forEach", "indexOf", "join", "lastIndexOf", "map", "pop", "push",
    "reduce", "reduceRight", "reverse", "shift", "slice", "some", "sort", "splice",
    "unshift"].map String.toList

/-- The further members of `Number.prototype`. -/
def numberPrototype : List Text :=
  ["toExponential", "toFixed", "toPrecision"].map String.toList

/-- A member of the prototype, or nothing. -/
def inheritedMember (members : List Text) (name : Text) : JsValue :=
  if name ∈ objectPrototype ∨ name ∈ members then .inherited else .undefined

/-- An index, as a property name. -/
def indexName (name : Text) : Option Nat :=
  if isDecimal name ∧ (name.head? ≠ some '0' ∨ name.length = 1) then some (decimalValue name)
  else none

/-- The value of a member; of two members of one name the last counts. -/
def memberValue (ms : List (Text × Json)) (name : Text) : Option Json :=
  (ms.reverse.find? fun m => m.1 = name).map Prod.snd

/-- `v[name]`. -/
def property : JsValue → Text → Except JsError JsValue
  | .undefined, _ => .error .typeError
  | .inherited, _ => .ok .undefined
  | .json .null, _ => .error .typeError
  | .json (.bool _), name => .ok (inheritedMember [] name)
  | .json (.num _), name => .ok (inheritedMember numberPrototype name)
  | .json (.real _), name => .ok (inheritedMember numberPrototype name)
  | .json (.str t), name =>
      if name = "length".toList then .ok (.json (.num t.length))
      else
        match (indexName name).bind fun i => t[i]? with
        | some c => .ok (.json (.str [c]))
        | none => .ok (inheritedMember stringPrototype name)
  | .json (.arr vs), name =>
      if name = "length".toList then .ok (.json (.num vs.length))
      else
        match (indexName name).bind fun i => vs[i]? with
        | some v => .ok (.json v)
        | none => .ok (inheritedMember arrayPrototype name)
  | .json (.obj ms), name =>
      match memberValue ms name with
      | some v => .ok (.json v)
      | none => .ok (inheritedMember [] name)

/-- The names of the members, each once. -/
def memberNames : List (Text × Json) → List Text
  | [] => []
  | (k, _) :: ms => k :: (memberNames ms).filter (· ≠ k)

/-- `Object.keys(v)`: the indices in ascending order, then the other names in
the order they were added. -/
def objectKeys : JsValue → Except JsError (List Text)
  | .json (.obj ms) =>
      let names := memberNames ms
      let indices := (names.filterMap indexName).insertionSort (· ≤ ·)
      .ok (indices.map decimal ++ names.filter fun n => (indexName n).isNone)
  | .json (.arr vs) => .ok ((List.range vs.length).map decimal)
  | .inherited => .ok []
  | _ => .error .typeError

/-- `JSON.stringify(v)`. -/
def jsonStringify : JsValue → Option Text
  | .json v => some v.stringify
  | _ => none

end Node
