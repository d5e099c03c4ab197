import Mathlib.Tactic.Lemma
import Stencil.Eval.Report

/-!
# What is told of evaluation faults

The category of a diagnostic tells the faults of the evaluation itself apart, and its index is the
offset of the fault.
-/

namespace Stencil.EvalFault

/-- A diagnostic has the category that it is built with. -/
lemma category_build (category : Category) (detail : Text) (location : Location)
    (cause : Option Cause) :
    (Diagnostic.build category detail location cause).category = category := by
  unfold Diagnostic.build
  dsimp only
  split <;> rfl

/-- A diagnostic has the index that it is built with, if that can be used. -/
lemma index_build (category : Category) (detail : Text) (location : Location)
    (cause : Option Cause) :
    (Diagnostic.build category detail location cause).index =
      Diagnostic.usable location.index := by
  unfold Diagnostic.build
  dsimp only
  split
  · next h => rw [h]
  · rfl

/-- The category that a fault is told with. -/
def category : EvalFault → Category
  | .exhausted _ => .limit
  | .unresolved miss => .dataNotFound miss.path miss.available
  | .unknownFunction name _ => .function name []
  | .arguments name _ _ => .signature name
  | .value fault => fault.category
  | .unsupported op _ => .evaluation (some op.symbol)
  | .divisionByZero _ => .math
  | .reported d => d.category
  | .failed name _ args _ => .function name (args.map Value.display)

lemma category_diagnostic (fault : EvalFault) (text : Option Text) :
    (fault.diagnostic text).category = fault.category := by
  cases fault with
  | reported => rfl
  | _ => exact category_build _ _ _ _

/-- Every offset of a source can be used. -/
lemma usable_offset (offset : Nat) :
    Diagnostic.usable (some (offset : Quantity)) = some (offset : Quantity) := by
  have h : (Quantity.whole 0).le offset = true := by
    simp only [Quantity.le, Quantity.isNaN, Quantity.lt, Bool.not_false, Bool.true_and,
      Bool.not_eq_true', decide_eq_false_iff_not, Int.not_lt]
    exact Int.natCast_nonneg offset
  rw [Diagnostic.usable, Option.filter_some, if_pos h]

variable {fault : EvalFault} {text : Option Text}

/-- The index of a fault of the evaluation itself is its offset. -/
lemma index_diagnostic (hown : fault.isOwn) :
    (fault.diagnostic text).index = fault.offset?.map fun offset : Nat => (offset : Quantity) := by
  cases fault with
  | reported => cases hown
  | unresolved => exact index_build _ _ _ _
  | value => exact index_build _ _ _ _
  | _ => exact (index_build _ _ _ _).trans (usable_offset _)

/-- Of the faults of the evaluation itself only references that do not resolve are told as missing
data. -/
lemma eq_unresolved (hown : fault.isOwn) {path : Text} {available : List Text}
    (h : (fault.diagnostic text).category = .dataNotFound path available) :
    fault = .unresolved ⟨path, available⟩ := by
  rw [category_diagnostic] at h
  cases fault with
  | unresolved miss => cases h; rfl
  | value fault => cases fault <;> cases h
  | reported => cases hown
  | _ => cases h

/-- Of the faults of the evaluation itself only an exhausted budget is told as a limit. -/
lemma eq_exhausted (hown : fault.isOwn) (h : (fault.diagnostic text).category = .limit) :
    ∃ offset, fault = .exhausted offset := by
  rw [category_diagnostic] at h
  cases fault with
  | exhausted offset => exact ⟨offset, rfl⟩
  | value fault => cases fault <;> cases h
  | reported => cases hown
  | _ => cases h

end Stencil.EvalFault
