import Stencil.Number.Numeral
import Stencil.Text.Point
import Stencil.Value.Fault

/-!
# Coercions

Conversions between kinds of values. Strings convert only where they are exactly a numeral or a
word for a truth value; arrays and objects have no implicit form.
-/

namespace Stencil

namespace Number

/-- The integer part of a number, if that is in the exact range. -/
def toInteger (x : Number) : Except ValueFault Whole :=
  match x.truncate? with
  | none => .error (.notFinite x)
  | some n =>
    match Whole.ofInt? n with
    | some whole => .ok whole
    | none => .error (.outOfRange x)

end Number

namespace Value

/-- A number as a value: an integer of the exact range if that is preferred, otherwise a float. -/
def ofNumber (x : Number) (preferInteger : Bool) : Value :=
  match preferInteger, x.toWhole? with
  | true, some n => .integer n
  | _, _ => .float x

/-- Words for true. -/
def trueWords : List Text := ["true", "yes", "1", "on"]

/-- Words for false; the empty string is one. -/
def falseWords : List Text := ["false", "no", "0", "off", ""]

/-- A truth value. Strings must be one of the known words, in any case. -/
def asBool : Value → Except ValueFault Bool
  | .bool b => .ok b
  | .string t =>
    let word := t.map CodeUnit.toLower
    if trueWords.contains word then .ok true
    else if falseWords.contains word then .ok false
    else .error (.notBoolean t)
  | v => .ok v.isTruthy

/-- An integer. Floats lose their fraction; strings must be digits with an optional sign. -/
def asInteger : Value → Except ValueFault Whole
  | .integer n => .ok n
  | .float x => x.toInteger
  | .bool b => .ok (if b then .one else .zero)
  | .string t =>
    match t.toInt? >>= Whole.ofInt? with
    | some n => .ok n
    | none => .error (.notInteger t)
  | v => .error (.unsuitable v.kind .integer)

/-- A number spelled as a word: `nan`, `inf` or `infinity` in any case, with an optional sign that
what is not a number ignores. -/
def specialNumber? (t : Text) : Option Number :=
  let (negative, word) := Numeral.sign t
  let word := word.map CodeUnit.toLower
  if word = ("nan" : Text) then some .nan
  else if word = ("inf" : Text) ∨ word = ("infinity" : Text) then some (.infinite negative)
  else none

/-- A number. Strings must be numerals or one of the special words. -/
def asFloat : Value → Except ValueFault Number
  | .integer n => .ok n.toNumber
  | .float x => .ok x
  | .bool b => .ok (if b then Whole.one else Whole.zero).toNumber
  | .string t =>
    match Numeral.read? t with
    | some n => .ok n.toNumber
    | none =>
      match specialNumber? t with
      | some x => .ok x
      | none => .error (.notNumber t)
  | v => .error (.unsuitable v.kind .float)

/-- The text of a scalar. -/
def asString : Value → Except ValueFault Text
  | .null => .ok "null"
  | .bool b => .ok (if b then "true" else "false")
  | .integer n => .ok (.ofInt n.toInt)
  | .float x => .ok x.text
  | .string t => .ok t
  | v => .error (.unsuitable v.kind .string)

/-- The items of an array. -/
def asArray : Value → Except ValueFault (List Value)
  | .array items => .ok items
  | v => .error (.unsuitable v.kind .array)

/-- The entries of an object. -/
def asObject : Value → Except ValueFault (Table Value)
  | .object entries => .ok entries
  | v => .error (.unsuitable v.kind .object)

/-- How many code points, items or entries. -/
def length : Value → Except ValueFault Nat
  | .string t => .ok t.points.length
  | .array items => .ok items.length
  | .object entries => .ok entries.length
  | v => .error (.unsuitable v.kind .length)

end Value

end Stencil
