import Stencil.Number.Basic
import Stencil.Text.Basic

/-!
# Decimal text of numbers

`Number.text` writes a number with the fewest decimal digits that read back as it: positional below
`10 ^ 21` and down to `10 ^ -6`, with an exponent elsewhere.
-/

namespace Stencil

/-- The decimal `0.d₁d₂…dₖ * 10 ^ point`, where `d₁…dₖ` are the digits of `digits`. -/
structure Decimal where
  digits : Nat
  point : Int

namespace Decimal

/-- How many decimal digits a number has; zero has none. -/
def width (n : Nat) : Nat := if n = 0 then 0 else (Nat.toDigits 10 n).length

/-- The least `k` from `k` on with `n * 10 ^ k ≥ bound`, among `fuel` many. -/
def leastScale (n bound : Nat) : Nat → Nat → Nat
  | 0, k => k
  | fuel + 1, k => if bound ≤ n * Nat.pow 10 k then k else leastScale n bound fuel (k + 1)

/-- Where the decimal point of `n` units stands: `10 ^ (point - 1) ≤ n * 2 ^ -1074 < 10 ^ point`. -/
def pointOf (n : Nat) : Int :=
  let whole := n / Number.one
  if whole = 0 then 1 - (leastScale n Number.one 330 0 : Int) else width whole

/-- The digits without the zeros at their end; each zero dropped leaves the value as it is. -/
def strip : Nat → Nat → Nat
  | 0, digits => digits
  | fuel + 1, digits => if digits % 10 = 0 then strip fuel (digits / 10) else digits

/-- The decimal with `digits` counted in units of `10 ^ exponent`, without zeros at its end. -/
def ofDigits (digits : Nat) (exponent : Int) : Decimal :=
  ⟨strip (width digits) digits, exponent + width digits⟩

/-- The interval of magnitudes that round to `n` units, in quarters of a unit. Its ends belong to
it when the last significant bit of `n` is zero. -/
structure Neighbourhood where
  low : Nat
  high : Nat
  closed : Bool

/-- Half a step on either side; below a power of two the step is half as wide. -/
def Neighbourhood.of (n : Nat) : Neighbourhood :=
  let step := Nat.pow 2 (Magnitude.spacing n)
  let below := if step ≠ 1 ∧ n = Nat.pow 2 52 * step then step else 2 * step
  ⟨4 * n - below, 4 * n + 2 * step, n / step % 2 == 0⟩

/-- Whether the quotient of two numbers of quarter units rounds to the middle of the interval. -/
def Neighbourhood.holds (b : Neighbourhood) (num den : Nat) : Bool :=
  if b.closed then b.low * den ≤ num && num ≤ b.high * den
  else b.low * den < num && num < b.high * den

/-- The point of the grid of `10 ^ exponent` nearest to `n` units among those that read back. -/
def onGrid? (n : Nat) (exponent : Int) : Option Nat :=
  let up := Nat.pow 10 exponent.toNat * Number.one
  let down := Nat.pow 10 (-exponent).toNat
  let near := Neighbourhood.of n
  let floor := n * down / up
  let reads (c : Nat) : Bool := near.holds (4 * c * up) down
  match reads floor, reads (floor + 1) with
  | false, false => none
  | true, false => some floor
  | false, true => some (floor + 1)
  | true, true => some (nearest (n * down) up)

/-- The first grid, from `count` digits on, that holds a decimal which reads back. -/
def search (n : Nat) (point : Int) : Nat → Nat → Decimal
  | 0, count =>
    let up := Nat.pow 10 (point - count).toNat * Number.one
    ofDigits (n * Nat.pow 10 (count - point).toNat / up) (point - count)
  | fuel + 1, count =>
    match onGrid? n (point - count) with
    | some digits => ofDigits digits (point - count)
    | none => search n point fuel (count + 1)

/-- The decimal of fewest digits that reads back as `n` units, the nearest of those; seventeen
digits always suffice. -/
def shortest (n : Nat) : Decimal := search n (pointOf n) 17 1

/-- The decimal on paper. -/
def text (d : Decimal) : Text :=
  let digits := Text.ofNat d.digits
  let zeros (n : Int) : Text := List.replicate n.toNat '0'
  if digits.length ≤ d.point ∧ d.point ≤ 21 then digits ++ zeros (d.point - digits.length)
  else if 0 < d.point ∧ d.point ≤ 21 then
    digits.take d.point.toNat ++ "." ++ digits.drop d.point.toNat
  else if -6 < d.point ∧ d.point ≤ 0 then "0." ++ zeros (-d.point) ++ digits
  else
    let exponent := d.point - 1
    let mantissa : Text :=
      if digits.length = 1 then digits else digits.take 1 ++ "." ++ digits.drop 1
    mantissa ++ (if exponent < 0 then "e-" else "e+") ++ Text.ofNat exponent.natAbs

end Decimal

namespace Number

/-- The text of a number. Both zeros are written `0`. -/
def text : Number → Text
  | .nan => "NaN"
  | .infinite negative => if negative then "-Infinity" else "Infinity"
  | .finite negative m =>
    if m.units = 0 then "0"
    else (if negative then "-" else "") ++ (Decimal.shortest m.units).text

/-- The text of a number that keeps the sign of zero. -/
def signedText (x : Number) : Text := if x.isNegativeZero then "-0" else x.text

/-- An integer with one decimal place, to set it apart from an integer value; other numbers, and
integers too long for positional notation, as they are. -/
def textWithPlace (x : Number) : Text :=
  match x.toInt? with
  | some n => if n.natAbs < Nat.pow 10 21 then Text.ofInt n ++ ".0" else x.text
  | none => x.text

end Number

end Stencil
