import Mathlib.Data.List.Basic
import Mathlib.Tactic.Lemma
import Stencil.Expr.Parser

/-!
# The grammar of expressions

`Derives n ts p` says that the tokens `ts` can be read as the phrase `p` where parentheses, branches
and arguments nest `n` deep. A phrase is a form of the grammar together with its tree: binary
operators of one level associate to the left, and parentheses leave no node.
-/

namespace Stencil

/-- The value of a lexeme that is a literal by itself. -/
def Lexeme.literal? : Lexeme → Option Value
  | .number text => numberLiteral? text
  | .string value => some (.string value)
  | .name text => keywordLiteral? text
  | _ => none

/-- The names of functions that can be called; the others are literals or the conditional. -/
def Callable (name : Text) : Prop := keywordLiteral? name = none ∧ name ≠ conditionalName

/-- The tree of an input that is passed through some stages. -/
def Expr.piped (input : Expr) (stages : List Stage) : Expr :=
  match stages.getLast? with
  | none => input
  | some last => .pipeline ⟨input.span.start, last.span.stop⟩ input stages

/-- A pipeline ends where its last stage does. -/
lemma Expr.ofStages_eq_piped {input : Expr} {stages : List Stage} {stop : Nat}
    (h : ∀ last, stages.getLast? = some last → last.span.stop = stop) :
    ofStages input stages stop = input.piped stages := by
  rw [ofStages, piped]
  cases hl : stages.getLast? with
  | none => simp [List.getLast?_eq_none_iff.1 hl]
  | some last =>
    have : stages ≠ [] := by rintro rfl; cases hl
    simp [this, h last hl]

/-- A form of the grammar with the tree that it is read as. -/
inductive Phrase where
  | pipeline (e : Expr)
  | ternary (e : Expr)
  /-- An operand of the binary operators below a level. -/
  | operand (level : Nat) (e : Expr)
  | unary (e : Expr)
  | primary (e : Expr)
  /-- What stands between the parentheses of a call. -/
  | arguments (args : List Expr)
  /-- What follows the input of a pipeline. -/
  | stages (stages : List Stage)

/-- The tokens are read as the phrase, nested so deep. -/
inductive Derives : Nat → List Token → Phrase → Prop where
  | literal {t v} :
    t.lexeme.literal? = some v →
    Derives 0 [t] (.primary (.literal t.span v t.raw))
  | access {source path r p} :
    Derives 0 [⟨.reference source path, r, p⟩] (.primary (.access p source path))
  | group {n ts e r₁ p₁ r₂ p₂} :
    Derives n ts (.pipeline e) →
    Derives (n + 1) (⟨.mark .opening, r₁, p₁⟩ :: (ts ++ [⟨.mark .closing, r₂, p₂⟩])) (.primary e)
  | call {n ts name args r p r₁ p₁ r₂ p₂} :
    Callable name →
    Derives n ts (.arguments args) →
    Derives (n + 1)
      (⟨.name name, r, p⟩ :: ⟨.mark .opening, r₁, p₁⟩ :: (ts ++ [⟨.mark .closing, r₂, p₂⟩]))
      (.primary (.call ⟨p.start, p₂.stop⟩ name args))
  | conditional {n ts c a b r p r₁ p₁ r₂ p₂} :
    Derives n ts (.arguments (c :: a :: Option.toList b)) →
    Derives (n + 1)
      (⟨.name conditionalName, r, p⟩ :: ⟨.mark .opening, r₁, p₁⟩ ::
        (ts ++ [⟨.mark .closing, r₂, p₂⟩]))
      (.primary (.conditional ⟨p.start, p₂.stop⟩ c a b))
  | noArguments :
    Derives 0 [] (.arguments [])
  | lastArgument {n ts e} :
    Derives n ts (.pipeline e) →
    Derives n ts (.arguments [e])
  | argument {n m ts us e arg args r p} :
    Derives n ts (.pipeline e) →
    Derives m us (.arguments (arg :: args)) →
    Derives (max n m) (ts ++ ⟨.mark .comma, r, p⟩ :: us) (.arguments (e :: arg :: args))
  | atom {n ts e} :
    Derives n ts (.primary e) →
    Derives n ts (.unary e)
  | unary {n t ts op e} :
    UnaryOp.ofLexeme? t.lexeme = some op →
    Derives n ts (.unary e) →
    Derives (n + 1) (t :: ts) (.unary (.unary ⟨t.span.start, e.span.stop⟩ op e))
  | factor {n ts e} :
    Derives n ts (.unary e) →
    Derives n ts (.operand BinaryOp.levels e)
  | tighter {n ts level e} :
    level < BinaryOp.levels →
    Derives n ts (.operand (level + 1) e) →
    Derives n ts (.operand level e)
  | binary {n m t ts us op left right} :
    BinaryOp.ofLexeme? t.lexeme = some op →
    Derives n ts (.operand op.level left) →
    Derives m us (.operand (op.level + 1) right) →
    Derives (max n m) (ts ++ t :: us)
      (.operand op.level (.binary ⟨left.span.start, right.span.stop⟩ op left right))
  | choice {n ts e} :
    Derives n ts (.operand 0 e) →
    Derives n ts (.ternary e)
  | ternary {n m k ts us vs c a b r₁ p₁ r₂ p₂} :
    Derives n ts (.operand 0 c) →
    Derives m us (.ternary a) →
    Derives k vs (.ternary b) →
    Derives (max n (max m k + 1))
      (ts ++ ⟨.mark .question, r₁, p₁⟩ :: (us ++ ⟨.mark .colon, r₂, p₂⟩ :: vs))
      (.ternary (.ternary ⟨c.span.start, b.span.stop⟩ c a b))
  | noStages :
    Derives 0 [] (.stages [])
  | bareStage {n us name stages r₀ p₀ r p} :
    name ≠ conditionalName →
    Derives n us (.stages stages) →
    Derives n (⟨.sign .bar, r₀, p₀⟩ :: ⟨.name name, r, p⟩ :: us)
      (.stages (.mk p name [] :: stages))
  | stage {n m ts us name args stages r₀ p₀ r p r₁ p₁ r₂ p₂} :
    name ≠ conditionalName →
    Derives n ts (.arguments args) →
    Derives m us (.stages stages) →
    Derives (max (n + 1) m)
      (⟨.sign .bar, r₀, p₀⟩ :: ⟨.name name, r, p⟩ :: ⟨.mark .opening, r₁, p₁⟩ ::
        (ts ++ ⟨.mark .closing, r₂, p₂⟩ :: us))
      (.stages (.mk ⟨p.start, p₂.stop⟩ name args :: stages))
  | pipeline {n m ts us input stages} :
    Derives n ts (.ternary input) →
    Derives m us (.stages stages) →
    Derives (max n m) (ts ++ us) (.pipeline (input.piped stages))

/-- Phrases that take at least one token. -/
def Phrase.Solid : Phrase → Prop
  | .arguments args => args ≠ []
  | .stages _ => False
  | _ => True

namespace Derives

/-- A solid phrase has a first token, and that is no closing parenthesis. -/
lemma head {n ts p} (h : Derives n ts p) (hp : p.Solid) :
    ∃ t us, ts = t :: us ∧ t.lexeme ≠ .mark .closing := by
  induction h with
  | @literal t v hv =>
    refine ⟨t, [], rfl, fun ht => ?_⟩
    rw [ht] at hv
    cases hv
  | access => exact ⟨_, _, rfl, nofun⟩
  | group => exact ⟨_, _, rfl, nofun⟩
  | call => exact ⟨_, _, rfl, nofun⟩
  | conditional => exact ⟨_, _, rfl, nofun⟩
  | noArguments => exact absurd rfl hp
  | lastArgument _ ih => exact ih trivial
  | argument _ _ ih _ =>
    obtain ⟨t, us, rfl, ht⟩ := ih trivial
    exact ⟨t, _, rfl, ht⟩
  | atom _ ih => exact ih trivial
  | @unary n t ts op e hop _ _ =>
    refine ⟨t, ts, rfl, fun ht => ?_⟩
    rw [ht] at hop
    cases hop
  | factor _ ih => exact ih trivial
  | tighter _ _ ih => exact ih trivial
  | binary _ _ _ ih _ =>
    obtain ⟨t, us, rfl, ht⟩ := ih trivial
    exact ⟨t, _, rfl, ht⟩
  | choice _ ih => exact ih trivial
  | ternary _ _ _ ih _ _ =>
    obtain ⟨t, us, rfl, ht⟩ := ih trivial
    exact ⟨t, _, rfl, ht⟩
  | noStages => exact hp.elim
  | bareStage => exact hp.elim
  | stage => exact hp.elim
  | pipeline _ _ ih _ =>
    obtain ⟨t, us, rfl, ht⟩ := ih trivial
    exact ⟨t, _, rfl, ht⟩

end Derives

end Stencil
