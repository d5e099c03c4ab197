import Stencil.Number.Basic
import Stencil.Text.Basic

/-!
# Numerals

Decimal numerals as they stand in text, `-12.5e3`, and the number nearest to each.
-/

namespace Stencil

/-- The decimal `coefficient * 10 ^ exponent`, with a sign. -/
structure Numeral where
  negative : Bool
  coefficient : Nat
  exponent : Int

namespace Numeral

/-- An optional sign, true for minus, and what follows it. -/
def sign : Text → Bool × Text
  | [] => (false, [])
  | u :: rest =>
    if u = '-' then (true, rest) else if u = '+' then (false, rest) else (false, u :: rest)

/-- The exponent part, which is empty or an `e` followed by an integer. -/
def exponent? : Text → Option Int
  | [] => some 0
  | u :: rest =>
    if u = 'e' ∨ u = 'E' then
      let (negative, digits) := sign rest
      if digits.isDigits then some (Number.signed negative digits.toNat) else none
    else none

/-- Reads a numeral without a sign: digits with at most one point among, before or after them, and
an optional exponent. -/
def readUnsigned? (t : Text) : Option Numeral :=
  let whole := t.takeWhile CodeUnit.isDigit
  let rest := t.dropWhile CodeUnit.isDigit
  let (fraction, rest) : Text × Text :=
    match rest with
    | [] => ([], [])
    | u :: after =>
      if u = '.' then (after.takeWhile CodeUnit.isDigit, after.dropWhile CodeUnit.isDigit)
      else ([], rest)
  if whole.isEmpty && fraction.isEmpty then none
  else
    (exponent? rest).map fun e =>
      ⟨false, Text.toNat (whole ++ fraction), e - fraction.length⟩

/-- Reads a numeral that may begin with a sign. -/
def read? (t : Text) : Option Numeral :=
  let (negative, rest) := sign t
  (readUnsigned? rest).map fun n => { n with negative }

/-- The number nearest to a numeral. A numeral of `w` digits lies below `10 ^ (w + exponent)`, which
settles those far out of range without their powers. -/
def toNumber (n : Numeral) : Number :=
  if n.coefficient = 0 then .finite n.negative .zero
  else
    let top := (Nat.toDigits 10 n.coefficient).length + n.exponent
    if top < -330 then .finite n.negative .zero
    else if 320 < top then .infinite n.negative
    else
      .ofRatio n.negative (n.coefficient * Nat.pow 10 n.exponent.toNat * Number.one)
        (Nat.pow 10 (-n.exponent).toNat)

end Numeral

/-- The integer that a run of digits with an optional sign writes. -/
def Text.toInt? (t : Text) : Option Int :=
  let (negative, digits) := Numeral.sign t
  if digits.isDigits then some (Number.signed negative digits.toNat) else none

end Stencil
