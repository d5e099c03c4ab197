import Stencil.Text.Basic

/-!
# Blank units

Two classes of white space: the seven units that may stand between tokens, and the wider class
that is cut from both ends of a text.
-/

namespace Stencil

/-- White space between tokens: space, tab, line feed, vertical tab, form feed, carriage return
and no-break space. -/
def CodeUnit.isSpace (u : CodeUnit) : Bool :=
  (9 ≤ u && u ≤ 13) || u == 0x20 || u == 0xA0

/-- White space and line ends of Unicode, and the byte order mark. -/
def CodeUnit.isBlank (u : CodeUnit) : Bool :=
  u.isSpace || u == 0x1680 || (0x2000 ≤ u && u ≤ 0x200A) || u == 0x2028 || u == 0x2029 ||
    u == 0x202F || u == 0x205F || u == 0x3000 || u == 0xFEFF

/-- Every separator between tokens is blank. -/
theorem CodeUnit.isBlank_of_isSpace {u : CodeUnit} (h : u.isSpace) : u.isBlank := by
  simp [isBlank, h]

/-- The text without the blank units at its two ends. -/
def Text.trim (t : Text) : Text :=
  ((t.dropWhile CodeUnit.isBlank).reverse.dropWhile CodeUnit.isBlank).reverse

end Stencil
