/-!
# Text

Text is a run of UTF-16 code units. Offsets, lengths and columns count units, and half of a
surrogate pair may stand alone, as it does where a text is cut inside a pair.
-/

namespace Stencil

/-- One unit of UTF-16. -/
abbrev CodeUnit := UInt16

/-- A text is a run of code units, not always of whole characters. -/
abbrev Text := List CodeUnit

namespace CodeUnit

/-- The one or two units that write a character. -/
def ofChar (c : Char) : List CodeUnit :=
  if c.val < 0x10000 then [c.val.toUInt16]
  else
    let offset := c.val - 0x10000
    [(0xD800 + offset / 0x400).toUInt16, (0xDC00 + offset % 0x400).toUInt16]

/-- The one unit of a character of the basic plane. -/
def ofBasic (c : Char) : CodeUnit := c.val.toUInt16

/-- A character of the basic plane stands for its one unit. -/
instance : Coe Char CodeUnit := ⟨ofBasic⟩

/-- Decimal digits of ASCII. -/
def isDigit (u : CodeUnit) : Bool := 48 ≤ u && u ≤ 57

/-- Letters of ASCII and the underscore. -/
def isNameStart (u : CodeUnit) : Bool :=
  (65 ≤ u && u ≤ 90) || (97 ≤ u && u ≤ 122) || u == 95

/-- Units that continue a name: a letter, an underscore or a digit. -/
def isNamePart (u : CodeUnit) : Bool := isNameStart u || isDigit u

/-- The value of a decimal digit. -/
def digitValue (u : CodeUnit) : Nat := u.toNat - 48

/-- Capital letters of ASCII become small ones; all other units stay. -/
def toLower (u : CodeUnit) : CodeUnit := if 65 ≤ u && u ≤ 90 then u + 32 else u

/-- Small letters of ASCII become capital ones; all other units stay. -/
def toUpper (u : CodeUnit) : CodeUnit := if 97 ≤ u && u ≤ 122 then u - 32 else u

/-- The first half of a surrogate pair. -/
def isLeading (u : CodeUnit) : Bool := 0xD800 ≤ u && u ≤ 0xDBFF

/-- The second half of a surrogate pair. -/
def isTrailing (u : CodeUnit) : Bool := 0xDC00 ≤ u && u ≤ 0xDFFF

end CodeUnit

namespace Text

/-- The units of a string, character by character. -/
def ofString (s : String) : Text := s.toList.flatMap CodeUnit.ofChar

instance : Coe String Text := ⟨ofString⟩

/-- The units from `start` up to `stop`. -/
def slice (t : Text) (start stop : Nat) : Text := (t.drop start).take (stop - start)

/-- The parts between the occurrences of `mark`; a text without it is its own single part. -/
def split (mark : CodeUnit) : Text → List Text
  | [] => [[]]
  | u :: rest =>
    if u = mark then [] :: split mark rest
    else
      match split mark rest with
      | [] => [[u]]
      | part :: parts => (u :: part) :: parts

/-- The parts in order, with `between` after each but the last. -/
def join (between : Text) : List Text → Text
  | [] => []
  | [part] => part
  | part :: parts => part ++ between ++ join between parts

/-- The decimal digits of a number, without leading zeros. -/
def ofNat (n : Nat) : Text := (Nat.toDigits 10 n).map CodeUnit.ofBasic

/-- The decimal digits of a number, after a minus sign if it is negative. -/
def ofInt (n : Int) : Text := if n < 0 then "-" ++ ofNat n.natAbs else ofNat n.natAbs

/-- The number that a run of decimal digits writes. -/
def toNat (digits : Text) : Nat := digits.foldl (fun n u => 10 * n + u.digitValue) 0

/-- The digits of `n`, with zeros in front up to `width` places. -/
def padded (width n : Nat) : Text :=
  let digits := ofNat n
  (List.replicate (width - digits.length) '0' : Text) ++ digits

/-- Not empty, and digits only. -/
def isDigits (t : Text) : Bool := !t.isEmpty && t.all CodeUnit.isDigit

/-- A letter or underscore, then letters, underscores and digits. -/
def isName : Text → Bool
  | [] => false
  | u :: rest => u.isNameStart && rest.all CodeUnit.isNamePart

/-- Order by code units, the shorter text first where one begins the other. -/
def le (s t : Text) : Bool := !decide (t < s)

end Text

end Stencil
