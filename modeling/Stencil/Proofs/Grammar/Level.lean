import Mathlib.Data.Nat.Init
import Stencil.Proofs.Grammar.Soundness

/-!
# Levels of the grammar

The forms of the grammar as levels, from pipelines up to primaries. Main statement: tokens that
derive an expression at one level derive it at all levels below (`Derives.lower`).
-/

namespace Stencil

/-- The levels of the grammar, as those of an expression and of the position of a part. -/
inductive Level where
  | pipeline
  | ternary
  | operand (level : Fin (BinaryOp.levels + 1))
  | unary
  | primary

namespace Level

/-- The place of a level, the lowest first. -/
def rank : Level → Nat
  | .pipeline => 0
  | .ternary => 1
  | .operand level => 2 + level
  | .unary => 3 + BinaryOp.levels
  | .primary => 4 + BinaryOp.levels

/-- The phrase that an expression is at a level. -/
def phrase : Level → Expr → Phrase
  | .pipeline => .pipeline
  | .ternary => .ternary
  | .operand level => .operand level
  | .unary => .unary
  | .primary => .primary

lemma rank_le (l : Level) : l.rank ≤ primary.rank := by
  cases l <;> simp only [rank] <;> omega

end Level

namespace BinaryOp

/-- The level of an operator, and of the position before it. -/
def before (op : BinaryOp) : Level := .operand ⟨op.level, Nat.lt_succ_of_lt op.level_lt⟩

/-- The level of the position after an operator. -/
def after (op : BinaryOp) : Level := .operand ⟨op.level + 1, Nat.succ_lt_succ op.level_lt⟩

end BinaryOp

/-- The level of the outermost form of an expression. -/
def Expr.level : Expr → Level
  | .pipeline .. => .pipeline
  | .ternary .. => .ternary
  | .binary _ op .. => op.before
  | .unary .. => .unary
  | .literal .. | .access .. | .call .. | .conditional .. => .primary

namespace Derives

variable {n : Nat} {ts : List Token} {e : Expr} {l l' : Level}

lemma lower_unary (h : Derives n ts (l.phrase e)) (hl : Level.unary.rank ≤ l.rank) :
    Derives n ts (.unary e) := by
  cases l with
  | unary => exact h
  | primary => exact .atom h
  | _ => simp only [Level.rank] at hl; omega

lemma lower_levels {k k' : Nat} (h : Derives n ts (.operand k' e)) (hle : k ≤ k')
    (hk : k' ≤ BinaryOp.levels) : Derives n ts (.operand k e) := by
  induction hle using Nat.decreasingInduction with
  | self => exact h
  | of_succ k hlt ih => exact .tighter (Nat.lt_of_lt_of_le hlt hk) ih

lemma lower_operand {k} (h : Derives n ts (l.phrase e)) (hl : (Level.operand k).rank ≤ l.rank) :
    Derives n ts (.operand k e) := by
  have hk : k ≤ BinaryOp.levels := Nat.lt_succ_iff.1 k.2
  cases l with
  | operand k' => exact lower_levels h (Nat.le_of_add_le_add_left hl) (Nat.lt_succ_iff.1 k'.2)
  | unary => exact lower_levels (.factor h) hk Nat.le.refl
  | primary => exact lower_levels (.factor (.atom h)) hk Nat.le.refl
  | _ => simp only [Level.rank] at hl; omega

lemma lower_ternary (h : Derives n ts (l.phrase e)) (hl : Level.ternary.rank ≤ l.rank) :
    Derives n ts (.ternary e) := by
  have lowest (l : Level) (hl : 2 ≤ l.rank) : (Level.operand 0).rank ≤ l.rank := hl
  cases l with
  | pipeline => cases hl
  | ternary => exact h
  | operand k => exact .choice (lower_operand h (lowest _ (Nat.le_add_right 2 k)))
  | unary => exact .choice (lower_operand h (lowest _ (by decide)))
  | primary => exact .choice (lower_operand h (lowest _ (by decide)))

lemma lower_pipeline (h : Derives n ts (l.phrase e)) : Derives n ts (.pipeline e) := by
  have of_ternary (h : Derives n ts (.ternary e)) : Derives n ts (.pipeline e) := by
    have hpipeline := Derives.pipeline h .noStages
    rwa [List.append_nil, Nat.max_zero] at hpipeline
  cases l with
  | pipeline => exact h
  | ternary => exact of_ternary h
  | operand k => exact of_ternary (h.lower_ternary (Nat.le_add_right_of_le (by decide)))
  | unary => exact of_ternary (h.lower_ternary (by decide))
  | primary => exact of_ternary (h.lower_ternary (by decide))

/-- What derives an expression at a level derives it at the levels below. -/
lemma lower (h : Derives n ts (l'.phrase e)) (hle : l.rank ≤ l'.rank) :
    Derives n ts (l.phrase e) := by
  cases l with
  | pipeline => exact h.lower_pipeline
  | ternary => exact h.lower_ternary hle
  | operand k => exact h.lower_operand hle
  | unary => exact h.lower_unary hle
  | primary =>
    cases l' with
    | primary => exact h
    | _ => simp only [Level.rank] at hle; omega

end Derives

end Stencil
