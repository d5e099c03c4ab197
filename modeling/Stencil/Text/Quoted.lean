import Stencil.Text.Basic

/-!
# Quoted text

The double-quoted form of a text: control units, quotes, backslashes and lone surrogates are
escaped, all else stands for itself.
-/

namespace Stencil

namespace CodeUnit

/-- A hexadecimal digit, in small letters. -/
def hexDigit (n : Nat) : CodeUnit := if n < 10 then (48 + n).toUInt16 else (87 + n).toUInt16

/-- The six units `\uXXXX` that name a unit by its number. -/
def numbered (u : CodeUnit) : Text :=
  let n := u.toNat
  "\\u" ++ [hexDigit (n / 4096), hexDigit (n / 256 % 16), hexDigit (n / 16 % 16), hexDigit (n % 16)]

/-- How a unit that belongs to no surrogate pair is written between quotes. -/
def quoted (u : CodeUnit) : Text :=
  if u = '"' then "\\\""
  else if u = '\\' then "\\\\"
  else if u = 8 then "\\b"
  else if u = 9 then "\\t"
  else if u = 10 then "\\n"
  else if u = 12 then "\\f"
  else if u = 13 then "\\r"
  else if u < 32 || u.isLeading || u.isTrailing then u.numbered
  else [u]

end CodeUnit

namespace Text

/-- The units between the quotes. A whole surrogate pair stands for itself. -/
def escaped : Text → Text
  | [] => []
  | [u] => u.quoted
  | u :: v :: rest =>
    if u.isLeading && v.isTrailing then u :: v :: escaped rest
    else u.quoted ++ escaped (v :: rest)

/-- The text in double quotes. -/
def quote (t : Text) : Text := "\"" ++ escaped t ++ "\""

end Text

end Stencil
