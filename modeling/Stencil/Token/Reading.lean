import Stencil.Token.Basic

/-!
# Reading a lexeme

The first lexeme of a text that does not begin with white space. Each reader takes as many units as
it can; `more` counts those after the first, so a lexeme is never empty. A misreading says what is
wrong, at which units, and how far the reader came.
-/

namespace Stencil

/-- What can be wrong in a single token. -/
inductive LexicalFault where
  | unexpectedUnit (u : CodeUnit)
  | malformedNumber
  | unterminatedString
  | unknownSource
  | invalidNode
  | missingVariable
  | missingSegment
deriving DecidableEq

/-- A token that could not be read: what is wrong, the part at fault counted from the start of the
token, and how many units the reader passed. -/
structure Misreading where
  fault : LexicalFault
  span : Span
  passed : Nat

/-- A lexeme, and how many units it takes after its first. -/
structure Reading where
  lexeme : Lexeme
  more : Nat

namespace Reading

/-- The width of the digits before an exponent: digits, and a point with digits after it. -/
def mantissaWidth (t : Text) : Nat :=
  let whole := t.takeWhile CodeUnit.isDigit
  match t.dropWhile CodeUnit.isDigit with
  | [] => whole.length
  | u :: rest =>
    if u = '.' then whole.length + 1 + (rest.takeWhile CodeUnit.isDigit).length else whole.length

/-- The width of the sign at the start of a text. -/
def signWidth : Text → Nat
  | [] => 0
  | u :: _ => if u = '+' ∨ u = '-' then 1 else 0

/-- Reads a number, which begins with a digit or a point. A mantissa followed by an `e` needs an
exponent. -/
def number (t : Text) : Except Misreading Reading :=
  let width := mantissaWidth t
  match t.drop width with
  | [] => .ok ⟨.number t, width - 1⟩
  | u :: rest =>
    if u = 'e' ∨ u = 'E' then
      let before := width + 1 + signWidth rest
      let digits := (rest.drop (signWidth rest)).takeWhile CodeUnit.isDigit
      if digits.isEmpty then .error ⟨.malformedNumber, ⟨0, before⟩, width⟩
      else .ok ⟨.number (t.take (before + digits.length)), before + digits.length - 1⟩
    else .ok ⟨.number (t.take width), width - 1⟩

/-- What an escaped unit stands for: a line feed, a carriage return, a tab, or itself. -/
def unescape (u : CodeUnit) : CodeUnit :=
  if u = 'n' then '\n' else if u = 'r' then '\r' else if u = 't' then '\t' else u

/-- The value of a string literal after its opening quote, and the width up to and with the closing
one; none if there is no closing quote. -/
def stringBody (quote : CodeUnit) : Text → Option (Text × Nat)
  | [] => none
  | [u] => if u = quote then some ([], 1) else none
  | u :: v :: rest =>
    if u = quote then some ([], 1)
    else if u = '\\' then
      (stringBody quote rest).map fun (value, width) => (unescape v :: value, width + 2)
    else (stringBody quote (v :: rest)).map fun (value, width) => (u :: value, width + 1)

/-- Reads a string after its opening quote. -/
def string (quote : CodeUnit) (rest : Text) : Except Misreading Reading :=
  match stringBody quote rest with
  | some (value, width) => .ok ⟨.string value, width⟩
  | none => .error ⟨.unterminatedString, ⟨0, rest.length + 1⟩, rest.length + 1⟩

/-- The path after a source: a point and a segment, any number of times. -/
def pathRun : Text → Text
  | [] => []
  | u :: rest =>
    if u = '.' then u :: rest.takeWhile fun v => v.isNamePart || v == '.' else []

/-- Where the first point without a segment after it stands in a path. -/
def bareDot? (offset : Nat) : List Text → Option Nat
  | [] => none
  | segment :: rest =>
    if segment.isEmpty then some offset else bareDot? (offset + segment.length + 1) rest

/-- Reads the path of a reference whose source took `width` units. -/
def path (source : Text → DataSource × Text) (width : Nat) (rest : Text) :
    Except Misreading Reading :=
  let run := pathRun rest
  let path := run.drop 1
  match if run.isEmpty then none else bareDot? width (Text.split '.' path) with
  | some dot => .error ⟨.missingSegment, ⟨dot, dot + 1⟩, dot + 1⟩
  | none =>
    let (source, path) := source path
    .ok ⟨.reference source path, width + run.length - 1⟩

/-- A path without the `json.` in front. -/
def dropJson (path : Text) : Text :=
  if ("json." : Text).isPrefixOf path then path.drop 5 else path

/-- Reads a reference to a node after `$node`, which takes five units: `('id')` or `("id")`, then a
path. -/
def node (rest : Text) : Except Misreading Reading :=
  let invalid (width : Nat) : Except Misreading Reading :=
    .error ⟨.invalidNode, ⟨0, width⟩, width⟩
  match rest with
  | [] => invalid 5
  | u :: rest =>
    if u = '(' then
      match rest with
      | [] => invalid 6
      | quote :: rest =>
        if quote = '\'' ∨ quote = '"' then
          let id := rest.takeWhile (· != quote)
          match rest.drop id.length with
          | [] => invalid (7 + id.length)
          | _ :: after =>
            let width := 8 + id.length
            match after with
            | [] => invalid width
            | v :: after =>
              if !id.isEmpty && v == ')' then
                path (fun p => (.node id, dropJson p)) (width + 1) after
              else invalid width
        else invalid 6
    else invalid 5

/-- Reads a reference after its `$`. -/
def reference (rest : Text) : Except Misreading Reading :=
  let name := rest.takeWhile CodeUnit.isNamePart
  let after := rest.drop name.length
  let width := name.length + 1
  let whole (source : DataSource) := path (fun p => (source, p)) width after
  if name = ("input" : Text) then whole .input
  else if name = ("node" : Text) then node after
  else if name = ("env" : Text) then
    match pathRun after with
    | [] => .error ⟨.missingVariable, ⟨0, width⟩, width⟩
    | _ => whole .environment
  else if name = ("system" : Text) then whole .system
  else if name = ("execution" : Text) then whole .execution
  else if name = ("workflow" : Text) then whole .workflow
  else .error ⟨.unknownSource, ⟨0, width⟩, width⟩

/-- Reads a sign, preferring those of two units, or a mark. -/
def symbol (u : CodeUnit) (rest : Text) : Except Misreading Reading :=
  match Sign.double.find? fun s => s.text == u :: rest.take 1 with
  | some s => .ok ⟨.sign s, 1⟩
  | none =>
    match Sign.single.find? fun s => s.text == [u] with
    | some s => .ok ⟨.sign s, 0⟩
    | none =>
      match Mark.all.find? fun m => m.text == [u] with
      | some m => .ok ⟨.mark m, 0⟩
      | none => .error ⟨.unexpectedUnit u, ⟨0, 1⟩, 0⟩

/-- Reads the lexeme that begins with the unit `u`, which is no white space. -/
def first (u : CodeUnit) (rest : Text) : Except Misreading Reading :=
  let next := rest.headD 0
  if u = '\x7d' ∧ next = '\x7d' then .ok ⟨.close, 1⟩
  else if u.isDigit || (u == '.' && next.isDigit) then number (u :: rest)
  else if u = '"' ∨ u = '\'' then string u rest
  else if u = '$' then reference rest
  else if u.isNameStart then
    let name := rest.takeWhile CodeUnit.isNamePart
    .ok ⟨.name (u :: name), name.length⟩
  else symbol u rest

end Reading

end Stencil
