import Stencil.Proofs.Grammar.Level
import Stencil.Proofs.Print.Spelling

/-!
# Printing expressions

An expression is printed as words with spaces between them. Its parts stand in parentheses at least
where the grammar needs them, which is where the level of a part is lower than its position
requires: `Wrapping.needed` has these alone, and `Wrapping.every` has one pair for each part.
-/

namespace Stencil

/-- Which parts of an expression are printed in parentheses, by their positions. -/
structure Wrapping where
  wraps : Level → Expr → Bool
  suffices_of_lt : ∀ l e, e.level.rank < l.rank → wraps l e

namespace Wrapping

/-- Parentheses only where the grammar needs them. -/
def needed : Wrapping where
  wraps l e := e.level.rank < l.rank
  suffices_of_lt _ _ := decide_eq_true

/-- Parentheses around every expression that is no leaf. -/
def every : Wrapping where
  wraps _ e := !(e.isLiteral || e.isAccess)
  suffices_of_lt l e h := by
    have := l.rank_le
    cases e with
    | literal => exact absurd h (Nat.not_lt_of_le this)
    | access => exact absurd h (Nat.not_lt_of_le this)
    | _ => rfl

/-- The words of an expression at a position, in parentheses if it is to have them. -/
def enclose (w : Wrapping) (l : Level) (e : Expr) (ws : List Text) : List Text :=
  if w.wraps l e then Mark.opening.text :: (ws ++ [Mark.closing.text]) else ws

end Wrapping

namespace Expr

mutual
/-- The words of an expression, without parentheses around the whole. -/
def words (w : Wrapping) : Expr → List Text
  | .literal _ _ raw => [raw]
  | .access _ source path => [source.spelling path]
  | .call _ name args => name :: Mark.opening.text :: (wordsAll w args ++ [Mark.closing.text])
  | .pipeline _ input stages => w.enclose .ternary input (input.words w) ++ wordsStages w stages
  | .binary _ op left right =>
    w.enclose op.before left (left.words w) ++
      op.symbol :: w.enclose op.after right (right.words w)
  | .unary _ op operand => op.symbol :: w.enclose .unary operand (operand.words w)
  | .ternary _ c a b =>
    w.enclose (.operand 0) c (c.words w) ++ Mark.question.text ::
      (w.enclose .ternary a (a.words w) ++ Mark.colon.text :: w.enclose .ternary b (b.words w))
  | .conditional _ c a none =>
    conditionalName :: Mark.opening.text :: (w.enclose .pipeline c (c.words w) ++
      Mark.comma.text :: (w.enclose .pipeline a (a.words w) ++ [Mark.closing.text]))
  | .conditional _ c a (some b) =>
    conditionalName :: Mark.opening.text :: (w.enclose .pipeline c (c.words w) ++
      Mark.comma.text :: (w.enclose .pipeline a (a.words w) ++
        Mark.comma.text :: (w.enclose .pipeline b (b.words w) ++ [Mark.closing.text])))
/-- The words of arguments. -/
def wordsAll (w : Wrapping) : List Expr → List Text
  | [] => []
  | [e] => w.enclose .pipeline e (e.words w)
  | e :: arg :: args =>
    w.enclose .pipeline e (e.words w) ++ Mark.comma.text :: wordsAll w (arg :: args)
/-- The words of stages; without arguments a stage is only its name. -/
def wordsStages (w : Wrapping) : List Stage → List Text
  | [] => []
  | .mk _ name [] :: rest => Sign.bar.text :: name :: wordsStages w rest
  | .mk _ name (arg :: args) :: rest =>
    Sign.bar.text :: name :: Mark.opening.text ::
      (wordsAll w (arg :: args) ++ Mark.closing.text :: wordsStages w rest)
end

/-- The text of an expression, with a space between words. -/
def print (w : Wrapping) (e : Expr) : Text :=
  Text.join " " (w.enclose .pipeline e (e.words w))

/-- Expressions that have a text: their leaves are lexemes, what they call can be called, and each
pipeline has a stage. -/
inductive Printable : Expr → Prop where
  | literal {p l value raw} :
    Reads raw l →
    l.literal? = some value →
    Printable (.literal p value raw)
  | access {p w source path} :
    Reads w (.reference source path) →
    Printable (.access p source path)
  | call {p name args} :
    name.isName →
    Callable name →
    (∀ e ∈ args, Printable e) →
    Printable (.call p name args)
  | pipeline {p input stages} :
    stages ≠ [] →
    Printable input →
    (∀ stage ∈ stages, stage.name.isName ∧ stage.name ≠ conditionalName) →
    (∀ stage ∈ stages, ∀ e ∈ stage.args, Printable e) →
    Printable (.pipeline p input stages)
  | binary {p op left right} :
    Printable left →
    Printable right →
    Printable (.binary p op left right)
  | unary {p op operand} :
    Printable operand →
    Printable (.unary p op operand)
  | ternary {p c a b} :
    Printable c →
    Printable a →
    Printable b →
    Printable (.ternary p c a b)
  | conditional {p c a b} :
    Printable c →
    Printable a →
    (∀ e ∈ b, Printable e) →
    Printable (.conditional p c a b)

end Expr

end Stencil
