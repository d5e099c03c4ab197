import Stencil.DataSource

/-!
# Tokens

The words of the expression language, and where in a source each of them stands.
-/

namespace Stencil

/-- A part of a source, from `start` up to `stop`. -/
structure Span where
  start : Nat
  stop : Nat
deriving DecidableEq

namespace Span

/-- How many units the part has. -/
def length (s : Span) : Nat := s.stop - s.start

/-- The part moved `n` units to the right. -/
def shift (n : Nat) (s : Span) : Span := ⟨s.start + n, s.stop + n⟩

end Span

/-- Operator signs. -/
inductive Sign where
  | and
  | or
  | equal
  | notEqual
  | atMost
  | atLeast
  | plus
  | minus
  | times
  | over
  | percent
  | less
  | greater
  | bang
  | bar
deriving DecidableEq

/-- How a sign is written. -/
def Sign.text : Sign → Text
  | .and => "&&"
  | .or => "||"
  | .equal => "=="
  | .notEqual => "!="
  | .atMost => "<="
  | .atLeast => ">="
  | .plus => "+"
  | .minus => "-"
  | .times => "*"
  | .over => "/"
  | .percent => "%"
  | .less => "<"
  | .greater => ">"
  | .bang => "!"
  | .bar => "|"

/-- Signs of two units, which win over those of one. -/
def Sign.double : List Sign := [.and, .or, .equal, .notEqual, .atMost, .atLeast]

/-- Signs of one unit. -/
def Sign.single : List Sign :=
  [.plus, .minus, .times, .over, .percent, .less, .greater, .bang, .bar]

/-- Punctuation. -/
inductive Mark where
  | opening
  | closing
  | comma
  | question
  | colon
deriving DecidableEq

/-- How a mark is written. -/
def Mark.text : Mark → Text
  | .opening => "("
  | .closing => ")"
  | .comma => ","
  | .question => "?"
  | .colon => ":"

/-- All marks. -/
def Mark.all : List Mark := [.opening, .closing, .comma, .question, .colon]

/-- What a token is. -/
inductive Lexeme where
  /-- The end of the source. -/
  | eof
  /-- The two braces that end an expression inside a template. -/
  | close
  | name (text : Text)
  | number (text : Text)
  /-- A string literal, with its escapes resolved. -/
  | string (value : Text)
  /-- A reference; of a node reference the leading `json.` of the path is dropped. -/
  | reference (source : DataSource) (path : Text)
  | mark (mark : Mark)
  | sign (sign : Sign)
deriving DecidableEq

/-- Whether no token follows. -/
def Lexeme.isFinal : Lexeme → Bool
  | .eof | .close => true
  | _ => false

/-- A token of a source. -/
structure Token where
  lexeme : Lexeme
  /-- The text of the token in the source. -/
  raw : Text
  span : Span
deriving DecidableEq

/-- The names that are binary operators. -/
def keywordOperators : List Text := ["contains", "startsWith", "endsWith"]

/-- Whether a name is a binary operator. -/
def isKeywordOperator (name : Text) : Bool := keywordOperators.contains name

end Stencil
