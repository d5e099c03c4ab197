import Stencil.Text.Basic

/-!
# Code points

A text read as code points: a surrogate pair is one point, and half of a pair that stands alone is
a point of its own.
-/

namespace Stencil

/-- A Unicode code point, surrogates included. -/
abbrev CodePoint := Nat

namespace CodePoint

/-- The point that a surrogate pair writes. -/
def ofPair (leading trailing : CodeUnit) : CodePoint :=
  0x10000 + (leading.toNat - 0xD800) * 0x400 + (trailing.toNat - 0xDC00)

/-- Half of a surrogate pair. -/
def isSurrogate (p : CodePoint) : Bool := 0xD800 ≤ p && p ≤ 0xDFFF

/-- How many bytes UTF-8 takes for the point; a lone surrogate takes three. -/
def utf8Size (p : CodePoint) : Nat :=
  if p < 0x80 then 1 else if p < 0x800 then 2 else if p < 0x10000 then 3 else 4

end CodePoint

namespace Text

/-- The points of a text in order. -/
def points : Text → List CodePoint
  | [] => []
  | [u] => [u.toNat]
  | u :: v :: rest =>
    if u.isLeading && v.isTrailing then CodePoint.ofPair u v :: points rest
    else u.toNat :: points (v :: rest)

/-- How many bytes UTF-8 takes for the text. -/
def utf8Size (t : Text) : Nat := t.points.foldl (fun n p => n + p.utf8Size) 0

/-- The text as a string, with U+FFFD in place of each lone surrogate. -/
def toString (t : Text) : String :=
  String.ofList (t.points.map fun p => if p.isSurrogate then Char.ofNat 0xFFFD else Char.ofNat p)

end Text

end Stencil
