import Stencil.Eval.Fault
import Stencil.Value.Display

/-!
# Reports of evaluation faults

The diagnostic of each fault, with a snippet where the source is known.
-/

namespace Stencil.EvalFault

/-- The diagnostic of a fault. -/
def diagnostic (source : Option Text) : EvalFault → Diagnostic
  | .exhausted offset =>
    .build .limit "Maximum evaluation operations exceeded" ⟨source, some offset, none, none⟩ none
  | .unresolved miss => (Category.dataNotFound miss.path miss.available).diagnostic
  | .unknownFunction name span =>
    .build (.function name []) "Function not found" (locate source span) none
  | .arguments name fault span => fault.diagnostic name (locate source span)
  | .value fault => fault.category.diagnostic
  | .unsupported op span =>
    .build (.evaluation (some op.symbol)) ("Operator " ++ op.name ++ " not implemented")
      (locate source span) none
  | .divisionByZero span => .build .math "Division by zero" (locate source span) none
  | .reported d => d
  | .failed name failure args span =>
    .build (.function name (args.map Value.display)) failure.message (locate source span)
      (some failure.cause)

end Stencil.EvalFault
