import Stencil.Proofs.Grammar.Acceptance

/-!
# How deep trees nest

The nesting of a tree, as far as the tree shows it: parentheses leave no node, and operands of binary
operators do not nest. Main statement: `Expr.nest_of_parse`, an expression that is accepted under a
limit nests within it.
-/

namespace Stencil

namespace Expr

mutual
/-- How deep an expression nests. Unary operators, the branches of ternaries, and arguments do. -/
def nest : Expr → Nat
  | .literal .. | .access .. => 1
  | .call _ _ args => max 2 (nestWithin args)
  | .pipeline _ input stages => max input.nest (nestStages stages)
  | .binary _ _ left right => max left.nest right.nest
  | .unary _ _ operand => 1 + operand.nest
  | .ternary _ condition consequent alternate =>
    max condition.nest (1 + max consequent.nest alternate.nest)
  | .conditional _ condition consequent none => max 2 (1 + max condition.nest consequent.nest)
  | .conditional _ condition consequent (some alternate) =>
    max 2 (1 + max condition.nest (max consequent.nest alternate.nest))
/-- How deep expressions nest that are arguments. -/
def nestWithin : List Expr → Nat
  | [] => 0
  | e :: rest => max (1 + e.nest) (nestWithin rest)
/-- How deep the arguments of stages nest. -/
def nestStages : List Stage → Nat
  | [] => 0
  | .mk _ _ args :: rest => max (nestWithin args) (nestStages rest)
end

lemma nest_piped (input : Expr) (stages : List Stage) :
    (input.piped stages).nest = max input.nest (nestStages stages) := by
  unfold piped
  cases hl : stages.getLast? with
  | none =>
    rw [List.getLast?_eq_none_iff.1 hl, nestStages, Nat.max_zero]
  | some last => rw [nest]

end Expr

/-- The trees of the phrase nest no deeper than this, those of arguments one deeper. -/
def Phrase.NestsTo (depth : Nat) : Phrase → Prop
  | .pipeline e | .ternary e | .operand _ e | .unary e | .primary e => e.nest ≤ depth
  | .arguments args => Expr.nestWithin args ≤ depth + 1
  | .stages list => Expr.nestStages list ≤ depth

/-- The tree of a phrase nests no deeper than its tokens. -/
theorem Derives.nestsTo {n ts p} (h : Derives n ts p) : p.NestsTo (n + 1) := by
  -- on the derivation; groups and stages without arguments count for tokens but not for the tree
  induction h with
  | literal => exact Nat.le_add_left ..
  | access => exact Nat.le_add_left ..
  | group _ ih => exact Nat.le_succ_of_le ih
  | @call n ts name args r p r₁ p₁ r₂ p₂ hname _ ih =>
    have hargs : Expr.nestWithin args ≤ n + 1 + 1 := ih
    rw [Phrase.NestsTo, Expr.nest]
    omega
  | @conditional n ts c a b r p r₁ p₁ r₂ p₂ _ ih =>
    have hargs : Expr.nestWithin (c :: a :: b.toList) ≤ n + 1 + 1 := ih
    rw [Phrase.NestsTo]
    cases b with
    | none =>
      simp only [Option.toList, Expr.nestWithin] at hargs
      rw [Expr.nest]
      omega
    | some b =>
      simp only [Option.toList, Expr.nestWithin] at hargs
      rw [Expr.nest]
      omega
  | noArguments => exact Nat.zero_le _
  | @lastArgument n ts e _ ih =>
    have he : e.nest ≤ n + 1 := ih
    rw [Phrase.NestsTo, Expr.nestWithin, Expr.nestWithin]
    omega
  | @argument n m ts us e arg args r p _ _ ih ih' =>
    have he : e.nest ≤ n + 1 := ih
    have hargs : Expr.nestWithin (arg :: args) ≤ m + 1 + 1 := ih'
    rw [Phrase.NestsTo, Expr.nestWithin]
    omega
  | atom _ ih => exact ih
  | @unary n t ts op e hop _ ih =>
    have he : e.nest ≤ n + 1 := ih
    rw [Phrase.NestsTo, Expr.nest]
    omega
  | factor _ ih => exact ih
  | tighter _ _ ih => exact ih
  | @binary n m t ts us op left right hop _ _ ih ih' =>
    have hleft : left.nest ≤ n + 1 := ih
    have hright : right.nest ≤ m + 1 := ih'
    rw [Phrase.NestsTo, Expr.nest]
    omega
  | choice _ ih => exact ih
  | @ternary n m k ts us vs c a b r₁ p₁ r₂ p₂ _ _ _ ih ih' ih'' =>
    have hc : c.nest ≤ n + 1 := ih
    have ha : a.nest ≤ m + 1 := ih'
    have hb : b.nest ≤ k + 1 := ih''
    rw [Phrase.NestsTo, Expr.nest]
    omega
  | noStages => exact Nat.zero_le _
  | @bareStage n us name stages r₀ p₀ r p hname _ ih =>
    have hstages : Expr.nestStages stages ≤ n + 1 := ih
    rw [Phrase.NestsTo, Expr.nestStages, Expr.nestWithin]
    omega
  | @stage n m ts us name args stages r₀ p₀ r p r₁ p₁ r₂ p₂ hname _ _ ih ih' =>
    have hargs : Expr.nestWithin args ≤ n + 1 + 1 := ih
    have hstages : Expr.nestStages stages ≤ m + 1 := ih'
    rw [Phrase.NestsTo, Expr.nestStages]
    omega
  | @pipeline n m ts us input stages _ _ ih ih' =>
    have hinput : input.nest ≤ n + 1 := ih
    have hstages : Expr.nestStages stages ≤ m + 1 := ih'
    rw [Phrase.NestsTo, Expr.nest_piped]
    omega

/-- An expression derived within a limit nests within it. -/
lemma Derives.nest_within {limit n ts e} (h : Derives n ts (.pipeline e))
    (hn : Within limit (1 + n)) : Within limit e.nest := by
  have hnest : e.nest ≤ n + 1 := h.nestsTo
  exact hn.mono (by omega)

lemma Expr.nest_of_parse {source limit e} (h : Expr.parse source limit = .ok e) :
    Within (effective limit) e.nest := by
  obtain ⟨ts, last, n, -, -, hts, hn⟩ := Expr.parse_iff.1 h
  exact hts.nest_within hn

end Stencil
