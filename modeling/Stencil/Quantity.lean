import Stencil.Number.Decimal

/-!
# Quantities

A quantity is a number that a caller hands over for an offset, a length, a count or a limit. Whole
ones stay integers, so comparing them is exact, and so is their sum as long as it can be told apart
from its neighbours; a quantity may also be fractional, infinite, negative zero or not a number at
all.
-/

namespace Stencil

/-- An integer, or a number that is none. -/
inductive Quantity where
  | whole (n : Int)
  | other (x : Number)
deriving DecidableEq

namespace Quantity

instance : Coe Nat Quantity := ⟨fun n => .whole n⟩

/-- A number as a quantity: integers of the exact range are whole, save negative zero. -/
def ofNumber (x : Number) : Quantity :=
  if x.isNegativeZero then .other x
  else
    match x.toWhole? with
    | some n => .whole n.toInt
    | none => .other x

/-- An integer as a quantity; beyond the exact range, the number nearest to it. -/
def ofInt (n : Int) : Quantity := if n.natAbs ≤ exactLimit then .whole n else .other (.ofInt n)

/-- The number nearest to a quantity. -/
def toNumber : Quantity → Number
  | .whole n => .ofInt n
  | .other x => x

/-- No limit is above it and none below it. -/
def infinite : Quantity := .other (.infinite false)

/-- Not a number. -/
def isNaN : Quantity → Bool
  | .other .nan => true
  | _ => false

/-- Order, exact between an integer and any number. -/
def lt : Quantity → Quantity → Bool
  | .whole m, .whole n => m < n
  | .whole _, .other .nan | .other .nan, .whole _ => false
  | .whole _, .other (.infinite s) => !s
  | .other (.infinite s), .whole _ => s
  | .whole m, .other (.finite s n) => m * Number.one < Number.signed s n.units
  | .other (.finite s m), .whole n => Number.signed s m.units < n * Number.one
  | .other x, .other y => x.lt y

/-- Below or equal; never for what is not a number. -/
def le (x y : Quantity) : Bool := !x.isNaN && !y.isNaN && !y.lt x

/-- The smaller of two; not a number if either is none. -/
def min (x y : Quantity) : Quantity :=
  if x.isNaN then x else if y.isNaN then y else if y.lt x then y else x

/-- The larger of two; not a number if either is none. -/
def max (x y : Quantity) : Quantity :=
  if x.isNaN then x else if y.isNaN then y else if x.lt y then y else x

/-- The nearest quantity to the sum. -/
def add : Quantity → Quantity → Quantity
  | .whole m, .whole n => ofInt (m + n)
  | x, y => ofNumber (x.toNumber.add y.toNumber)

/-- The nearest quantity to the difference. -/
def sub : Quantity → Quantity → Quantity
  | .whole m, .whole n => ofInt (m - n)
  | x, y => ofNumber (x.toNumber.sub y.toNumber)

/-- The integer part toward zero; none for the infinite, zero for what is not a number. -/
def truncate? : Quantity → Option Int
  | .whole n => some n
  | .other .nan => some 0
  | .other x => x.truncate?

/-- How often to repeat something: the integer part, at least zero; zero also for the infinite. -/
def times (q : Quantity) : Nat := (q.truncate?.getD 0).toNat

/-- The least natural number that is not below; zero if there is none. -/
def ceiling (q : Quantity) : Nat :=
  let floor := q.times
  if (Quantity.whole floor).lt q && q != .infinite then floor + 1 else floor

/-- Decimal text. -/
def text : Quantity → Text
  | .whole n => .ofInt n
  | .other x => x.text

/-- The position in a text of `size` units up to which a cut goes: fractions are dropped, a negative
position counts from the end, and no position lies outside the text. -/
def cut (q : Quantity) (size : Nat) : Nat :=
  match q with
  | .other (.infinite s) => if s then 0 else size
  | q =>
    let n := q.truncate?.getD 0
    if n < 0 then (size + n).toNat else Nat.min n.toNat size

end Quantity

end Stencil
