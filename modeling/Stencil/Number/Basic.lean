/-!
# Numbers

The numbers of IEEE 754 binary64, held exactly: a finite magnitude is a count of units of
`2 ^ -1074`, the smallest positive magnitude, so order and equality are those of integers and every
operation rounds an exact quotient once.
-/

namespace Stencil

/-- The bits of the largest magnitude in units of `2 ^ -1074`. -/
def Magnitude.bits : Nat := 2098

/-- The least power of two, in units of `2 ^ -1074`, that is out of range. -/
def Magnitude.bound : Nat := Nat.pow 2 bits

/-- At most 53 significant bits, and within range. -/
def Representable (n : Nat) : Prop :=
  (∃ k s, k < Nat.pow 2 53 ∧ n = k * Nat.pow 2 s) ∧ n < Magnitude.bound

/-- A finite magnitude, counted in units of `2 ^ -1074`. -/
structure Magnitude where
  units : Nat
  representable : Representable units
deriving DecidableEq

/-- A binary64 number. Zero has a sign, and all that is not a number is one value. -/
inductive Number where
  | nan
  | infinite (negative : Bool)
  | finite (negative : Bool) (magnitude : Magnitude)
deriving DecidableEq

/-- The nearest integer to a quotient; a half goes to the even neighbour. -/
def nearest (num den : Nat) : Nat :=
  let whole := num / den
  let left := 2 * (num % den)
  if left < den then whole
  else if den < left then whole + 1
  else whole + whole % 2

theorem nearest_le {num den n : Nat} (h : num < n * den) : nearest num den ≤ n := by
  have : num / den < n := Nat.div_lt_of_lt_mul (Nat.mul_comm n den ▸ h)
  rw [nearest]
  split
  · exact Nat.le_of_lt this
  · split
    · exact this
    · have := Nat.mod_lt (num / den) Nat.two_pos
      omega

/-- An integer is its own nearest. -/
theorem nearest_mul {n den : Nat} (h : 0 < den) : nearest (n * den) den = n := by
  simp [nearest, Nat.mul_div_cancel _ h, h]

theorem pow_two_pos (n : Nat) : 0 < Nat.pow 2 n := Nat.two_pow_pos n

namespace Magnitude

theorem bound_pos : 0 < bound := by unfold bound; exact pow_two_pos bits

/-- No magnitude at all. -/
def zero : Magnitude := ⟨0, ⟨0, 0, by decide, by decide⟩, bound_pos⟩

/-- How many low bits are lost in a magnitude near `n` units: all beyond the first 53. -/
def spacing (n : Nat) : Nat := n.log2 - 52

/-- The quotient in units, rounded to 53 significant bits. -/
def rounded (num den : Nat) : Nat :=
  let low := spacing (num / den)
  nearest num (den * Nat.pow 2 low) * Nat.pow 2 low

theorem rounded_eq (num : Nat) {den : Nat} (h : 0 < den) :
    ∃ k s, k < Nat.pow 2 53 ∧ rounded num den = k * Nat.pow 2 s := by
  have hlow : num / den < Nat.pow 2 (53 + spacing (num / den)) := by
    rcases Nat.eq_zero_or_pos (num / den) with h0 | hpos
    · rw [h0]; exact pow_two_pos _
    · refine Nat.lt_of_lt_of_le Nat.lt_log2_self (Nat.pow_le_pow_right (by decide) ?_)
      simp only [spacing]; omega
  have hsum (n : Nat) : Nat.pow 2 (53 + n) = Nat.pow 2 53 * Nat.pow 2 n := Nat.pow_add 2 53 n
  have hle : nearest num (den * Nat.pow 2 (spacing (num / den))) ≤ Nat.pow 2 53 := by
    apply nearest_le
    rw [hsum] at hlow
    calc num < Nat.pow 2 53 * Nat.pow 2 (spacing (num / den)) * den :=
          (Nat.div_lt_iff_lt_mul h).1 hlow
      _ = _ := by rw [Nat.mul_assoc, Nat.mul_comm den]
  rcases Nat.lt_or_eq_of_le hle with hlt | heq
  · exact ⟨_, _, hlt, rfl⟩
  · refine ⟨1, 53 + spacing (num / den), by decide, ?_⟩
    simp only [rounded, heq, hsum, Nat.one_mul]

/-- The magnitude nearest to a quotient in units; none where that is out of range. -/
def round? (num den : Nat) : Option Magnitude :=
  if h : 0 < den ∧ rounded num den < bound then
    some ⟨rounded num den, rounded_eq num h.1, h.2⟩
  else none

end Magnitude

namespace Number

/-- The units in one. -/
def one : Nat := Nat.pow 2 1074

/-- The number nearest to a quotient in units; beyond the range it is infinite. -/
def ofRatio (negative : Bool) (num den : Nat) : Number :=
  match Magnitude.round? num den with
  | some magnitude => .finite negative magnitude
  | none => .infinite negative

/-- The number nearest to an integer. -/
def ofInt (n : Int) : Number := ofRatio (n < 0) (n.natAbs * one) 1

/-- The number nearest to a natural number. -/
def ofNat (n : Nat) : Number := ofInt n

/-- Zero, of either sign. -/
def isZero : Number → Bool
  | .finite _ m => m.units == 0
  | _ => false

/-- Zero with a minus sign. -/
def isNegativeZero : Number → Bool
  | .finite negative m => negative && m.units == 0
  | _ => false

/-- Neither infinite nor not a number. -/
def isFinite : Number → Bool
  | .finite .. => true
  | _ => false

/-- The sign applied to a count. -/
def signed (negative : Bool) (n : Nat) : Int := if negative then -(n : Int) else n

/-- The order of numbers; nothing is below what is not a number, nor above it. -/
def lt : Number → Number → Bool
  | .nan, _ | _, .nan => false
  | .infinite s, .infinite t => s && !t
  | .infinite s, .finite .. => s
  | .finite .., .infinite t => !t
  | .finite s m, .finite t n => signed s m.units < signed t n.units

/-- Numeric equality: the two zeros are equal, and nothing equals what is not a number. -/
def eq : Number → Number → Bool
  | .nan, _ | _, .nan => false
  | .infinite s, .infinite t => s == t
  | .finite s m, .finite t n => signed s m.units == signed t n.units
  | _, _ => false

/-- Below or equal. -/
def le (x y : Number) : Bool := x.lt y || x.eq y

/-- The other sign. -/
def neg : Number → Number
  | .nan => .nan
  | .infinite s => .infinite !s
  | .finite s m => .finite (!s) m

/-- The nearest number to the sum. A sum of opposite numbers is positive zero. -/
def add : Number → Number → Number
  | .nan, _ | _, .nan => .nan
  | .infinite s, .infinite t => if s == t then .infinite s else .nan
  | .infinite s, .finite .. => .infinite s
  | .finite .., .infinite t => .infinite t
  | .finite s m, .finite t n =>
    let sum := signed s m.units + signed t n.units
    ofRatio (sum < 0 || (sum == 0 && s && t)) sum.natAbs 1

/-- The nearest number to the difference. -/
def sub (x y : Number) : Number := add x y.neg

/-- The nearest number to the product. -/
def mul : Number → Number → Number
  | .nan, _ | _, .nan => .nan
  | .infinite s, .infinite t => .infinite (s != t)
  | .infinite s, .finite t n => if n.units = 0 then .nan else .infinite (s != t)
  | .finite s m, .infinite t => if m.units = 0 then .nan else .infinite (s != t)
  | .finite s m, .finite t n => ofRatio (s != t) (m.units * n.units) one

/-- The nearest number to the quotient. A quotient by zero is infinite, and that of two zeros or
of two infinities is not a number. -/
def div : Number → Number → Number
  | .nan, _ | _, .nan => .nan
  | .infinite _, .infinite _ => .nan
  | .infinite s, .finite t _ => .infinite (s != t)
  | .finite s _, .infinite t => .finite (s != t) .zero
  | .finite s m, .finite t n =>
    if n.units = 0 then (if m.units = 0 then .nan else .infinite (s != t))
    else ofRatio (s != t) (m.units * one) n.units

/-- The integer part of a finite number, toward zero. -/
def truncate? : Number → Option Int
  | .finite s m => some (signed s (m.units / one))
  | _ => none

/-- The integer that a number is. -/
def toInt? : Number → Option Int
  | .finite s m => if m.units % one = 0 then some (signed s (m.units / one)) else none
  | _ => none

end Number

/-- The largest integer whose neighbours are all told apart: `2 ^ 53 - 1`. -/
def exactLimit : Nat := 9007199254740991

/-- An integer within the range where binary64 tells all neighbours apart. -/
structure Whole where
  toInt : Int
  bounded : toInt.natAbs ≤ exactLimit
deriving DecidableEq

namespace Whole

/-- The integer itself, if it is in range. -/
def ofInt? (n : Int) : Option Whole := if h : n.natAbs ≤ exactLimit then some ⟨n, h⟩ else none

/-- Zero. -/
def zero : Whole := ⟨0, by decide⟩

/-- One. -/
def one : Whole := ⟨1, by decide⟩

/-- The integer as a number. -/
def toNumber (n : Whole) : Number := Number.ofInt n.toInt

end Whole

/-- The integer that a number is, if it is in the exact range. Negative zero is zero. -/
def Number.toWhole? (x : Number) : Option Whole := x.toInt? >>= Whole.ofInt?

end Stencil
