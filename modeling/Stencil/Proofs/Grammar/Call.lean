import Mathlib.Tactic.Lemma
import Stencil.Expr.Parser

/-!
# Calls of the parser

The parser calls itself for fewer tokens, or for the same tokens and a form that binds tighter. Main
statement: `Call.answer_unique`. What a call answers is made of the answers of calls that come before
it in this order, and these equations have the parser as their only solution.
-/

namespace Stencil

/-- A call of one of the functions of the parser, by what it gives and the tokens that it starts
from. -/
inductive Call : Type → List Token → Type 1 where
  | pipeline (depth : Nat) (ts : List Token) : Call Expr ts
  | stages (depth : Nat) {ts : List Token} (input : Step Expr ts) (done : List Stage) : Call Expr ts
  | ternary (depth : Nat) (ts : List Token) : Call Expr ts
  | operand (depth level : Nat) (ts : List Token) : Call Expr ts
  | operators (depth level : Nat) {ts : List Token} (left : Step Expr ts) : Call Expr ts
  | unary (depth : Nat) (ts : List Token) : Call Expr ts
  | primary (depth : Nat) (t : Token) (rest : List Token) : Call Expr (t :: rest)
  | arguments (depth : Nat) (opening : Token) (rest : List Token) :
    Call (List Expr) (opening :: rest)
  | moreArguments (depth : Nat) {ts : List Token} (done : Step (List Expr) ts) :
    Call (List Expr) ts

namespace Call

variable {α β : Type} {ts us : List Token}

/-- The tokens that are still to be read. -/
def tokens : {α : Type} → {ts : List Token} → Call α ts → List Token
  | _, _, .pipeline _ ts | _, _, .ternary _ ts | _, _, .operand _ _ ts | _, _, .unary _ ts => ts
  | _, _, .stages _ input _ => input.rest
  | _, _, .operators _ _ left => left.rest
  | _, _, .primary _ t rest => t :: rest
  | _, _, .arguments _ opening rest => opening :: rest
  | _, _, .moreArguments _ done => done.rest

/-- How tight the form binds that the call reads. What follows such a form does not bind. -/
def tightness : {α : Type} → {ts : List Token} → Call α ts → Nat
  | _, _, .pipeline .. => 1
  | _, _, .ternary .. => 2
  | _, _, .operand _ level _ => 3 + min level BinaryOp.levels
  | _, _, .unary .. => 4 + BinaryOp.levels
  | _, _, .primary .. => 5 + BinaryOp.levels
  | _, _, .stages .. | _, _, .operators .. | _, _, .arguments .. | _, _, .moreArguments .. => 0

/-- A call has fewer tokens to read than another one, or as many and it reads a form that binds
tighter. -/
def Before (c' : Call β us) (c : Call α ts) : Prop :=
  c'.tokens.length < c.tokens.length ∨
    c'.tokens.length = c.tokens.length ∧ c.tightness < c'.tightness

lemma tightness_le (c : Call α ts) : c.tightness ≤ 5 + BinaryOp.levels := by
  cases c <;> simp only [tightness, BinaryOp.levels] <;> omega

/-- What holds of a call whenever it holds of the calls before it, holds of every call. -/
theorem induction {P : {α : Type} → {ts : List Token} → Call α ts → Prop}
    (step : ∀ {α ts} (c : Call α ts),
      (∀ {β us} (c' : Call β us), c'.Before c → P c') → P c)
    (c : Call α ts) : P c := by
  -- both parts of the order decrease one number
  let weight {α ts} (c : Call α ts) : Nat :=
    c.tokens.length * (6 + BinaryOp.levels) + (5 + BinaryOp.levels - c.tightness)
  induction hw : weight c using Nat.strongRecOn generalizing α ts with
  | ind w ih =>
    subst hw
    refine step c fun c' h => ih (weight c') ?_ c' rfl
    have hc := c.tightness_le
    have hc' := c'.tightness_le
    simp only [weight, BinaryOp.levels] at *
    obtain h | ⟨h, ht⟩ := h <;> omega

lemma tightness_operand {level : Nat} (h : level < BinaryOp.levels) :
    3 + min level BinaryOp.levels < 3 + min (level + 1) BinaryOp.levels := by
  omega

lemma tightness_unary {level : Nat} : 3 + min level BinaryOp.levels < 4 + BinaryOp.levels := by
  omega

lemma length_lt_of_cons {t : Token} {rest more : List Token} (h : more = t :: rest) :
    rest.length < more.length := by
  rw [h]
  exact Nat.lt_succ_self _

/-- What the parser answers. -/
def answer (s : Setting) : {α : Type} → {ts : List Token} → Call α ts → Parse α ts
  | _, _, .pipeline depth ts => Expr.parsePipeline s depth ts
  | _, _, .stages depth input done => Expr.parseStages s depth input done
  | _, _, .ternary depth ts => Expr.parseTernary s depth ts
  | _, _, .operand depth level ts => Expr.parseOperand s depth level ts
  | _, _, .operators depth level left => Expr.parseOperators s depth level left
  | _, _, .unary depth ts => Expr.parseUnary s depth ts
  | _, _, .primary depth t rest => Expr.parsePrimary s depth t rest
  | _, _, .arguments depth opening rest => Expr.parseArguments s depth opening rest
  | _, _, .moreArguments depth done => Expr.parseMoreArguments s depth done

/-- The answer to a call by the answers to those before it. -/
def body (s : Setting) : {α : Type} → {ts : List Token} → (c : Call α ts) →
    (∀ {β us} (c' : Call β us), c'.Before c → Parse β us) → Parse α ts
  | _, _, .pipeline depth ts, ask =>
    match ask (.ternary depth ts) (.inr ⟨rfl, Nat.lt_succ_self _⟩) with
    | .error fault => .error fault
    | .ok input => ask (.stages depth input []) (.inl input.shorter)
  | _, _, @stages depth ts input done, ask =>
    let finished := { input with value := Expr.ofStages input.value done input.stop }
    match h : input.rest with
    | ⟨.sign .bar, _, _⟩ :: rest =>
      match s.blocked? rest with
      | some fault => .error fault
      | none =>
        match rest with
        | ⟨.name name, raw, span⟩ :: rest =>
          if name = conditionalName then
            .error (s.refuse .stageName (⟨.name name, raw, span⟩ :: rest))
          else
            match s.blocked? rest with
            | some fault => .error fault
            | none =>
              match rest with
              | ⟨.mark .opening, raw, opening⟩ :: rest =>
                have hopening : rest.length + 1 < input.rest.length :=
                  Nat.lt_trans (Nat.lt_succ_self _) (length_lt_of_cons h)
                match ask (.arguments (depth + 1) ⟨.mark .opening, raw, opening⟩ rest)
                    (.inl (by exact hopening)) with
                | .error fault => .error fault
                | .ok args =>
                  let stage := Stage.mk ⟨span.start, args.stop⟩ name args.value
                  have hrest : args.rest.length < input.rest.length :=
                    Nat.lt_trans args.shorter hopening
                  ask
                    (@stages depth ts
                      ⟨input.value, args.stop, args.rest, Nat.lt_trans hrest input.shorter⟩
                      (done ++ [stage]))
                    (.inl (by exact hrest))
              | rest =>
                have hrest : rest.length < input.rest.length :=
                  Nat.lt_trans (Nat.lt_succ_self _) (length_lt_of_cons h)
                ask
                  (@stages depth ts
                    ⟨input.value, span.stop, rest, Nat.lt_trans hrest input.shorter⟩
                    (done ++ [.mk span name []]))
                  (.inl (by exact hrest))
        | rest => .error (s.refuse .stageName rest)
    | _ => .ok finished
  | _, _, .ternary depth ts, ask =>
    match ask (.operand depth 0 ts) (.inr ⟨rfl, Nat.lt_succ_self _⟩) with
    | .error fault => .error fault
    | .ok condition =>
      match h : condition.rest with
      | ⟨.mark .question, _, _⟩ :: rest =>
        match s.barred? (depth + 1) rest with
        | some fault => .error fault
        | none =>
          have hrest : rest.length < ts.length :=
            Nat.lt_trans (length_lt_of_cons h) condition.shorter
          match ask (.ternary (depth + 1) rest) (.inl (by exact hrest)) with
          | .error fault => .error fault
          | .ok consequent =>
            match h' : consequent.rest with
            | ⟨.mark .colon, _, _⟩ :: rest' =>
              match s.barred? (depth + 1) rest' with
              | some fault => .error fault
              | none =>
                have hrest' : rest'.length < ts.length :=
                  Nat.lt_trans (Nat.lt_trans (length_lt_of_cons h') consequent.shorter) hrest
                match ask (.ternary (depth + 1) rest') (.inl (by exact hrest')) with
                | .error fault => .error fault
                | .ok alternate =>
                  let span : Span := ⟨condition.value.span.start, alternate.value.span.stop⟩
                  .ok ⟨.ternary span condition.value consequent.value alternate.value,
                    alternate.stop, alternate.rest, Nat.lt_trans alternate.shorter hrest'⟩
            | rest' => .error (s.refuse (.mark .colon) rest')
      | _ => .ok condition
  | _, _, .operand depth level ts, ask =>
    if hlevel : level < BinaryOp.levels then
      match ask (.operand depth (level + 1) ts)
          (.inr ⟨rfl, by exact tightness_operand hlevel⟩) with
      | .error fault => .error fault
      | .ok left => ask (.operators depth level left) (.inl left.shorter)
    else ask (.unary depth ts) (.inr ⟨rfl, by exact tightness_unary⟩)
  | _, _, @operators depth level ts left, ask =>
    match h : left.rest with
    | [] => .ok left
    | t :: rest =>
      match BinaryOp.ofLexeme? t.lexeme with
      | none => .ok left
      | some op =>
        if op.level = level then
          match s.blocked? rest with
          | some fault => .error fault
          | none =>
            match ask (.operand depth (level + 1) rest)
                (.inl (by exact length_lt_of_cons h)) with
            | .error fault => .error fault
            | .ok right =>
              have hrest : right.rest.length < left.rest.length :=
                Nat.lt_trans right.shorter (length_lt_of_cons h)
              ask
                (@operators depth level ts
                  ⟨.binary ⟨left.value.span.start, right.value.span.stop⟩ op left.value
                    right.value, right.stop, right.rest, Nat.lt_trans hrest left.shorter⟩)
                (.inl (by exact hrest))
        else .ok left
  | _, _, .unary _ [], _ => .error (s.refuse .expression [])
  | _, _, .unary depth (t :: rest), ask =>
    match UnaryOp.ofLexeme? t.lexeme with
    | some op =>
      match s.barred? (depth + 1) rest with
      | some fault => .error fault
      | none =>
        match ask (.unary (depth + 1) rest) (.inl (Nat.lt_succ_self _)) with
        | .error fault => .error fault
        | .ok inner =>
          .ok ⟨.unary ⟨t.span.start, inner.value.span.stop⟩ op inner.value, inner.stop, inner.rest,
            Nat.lt_succ_of_lt inner.shorter⟩
    | none => ask (.primary depth t rest) (.inr ⟨rfl, Nat.lt_succ_self _⟩)
  | _, _, .primary depth t rest, ask =>
    match t.lexeme with
    | .number text =>
      match s.blocked? rest with
      | some fault => .error fault
      | none =>
        match numberLiteral? text with
        | some value => .ok (.pass (.literal t.span value t.raw) t rest)
        | none => .error (.hugeNumber t.span)
    | .string value =>
      match s.blocked? rest with
      | some fault => .error fault
      | none => .ok (.pass (.literal t.span (.string value) t.raw) t rest)
    | .reference source path =>
      match s.blocked? rest with
      | some fault => .error fault
      | none => .ok (.pass (.access t.span source path) t rest)
    | .name name =>
      match s.blocked? rest with
      | some fault => .error fault
      | none =>
        match keywordLiteral? name with
        | some value => .ok (.pass (.literal t.span value t.raw) t rest)
        | none =>
          match rest with
          | ⟨.mark .opening, raw, span⟩ :: rest' =>
            match ask (.arguments (depth + 1) ⟨.mark .opening, raw, span⟩ rest')
                (.inl (Nat.lt_succ_self _)) with
            | .error fault => .error fault
            | .ok args =>
              match Expr.ofCall t name args.value args.stop with
              | .error fault => .error fault
              | .ok e => .ok ⟨e, args.stop, args.rest, Nat.lt_succ_of_lt args.shorter⟩
          | _ => .error (.bareName name t.span)
    | .mark .opening =>
      match s.barred? (depth + 1) rest with
      | some fault => .error fault
      | none =>
        match ask (.pipeline (depth + 1) rest) (.inl (Nat.lt_succ_self _)) with
        | .error fault => .error fault
        | .ok inner =>
          match h : inner.rest with
          | ⟨.mark .closing, _, span⟩ :: rest' =>
            match s.blocked? rest' with
            | some fault => .error fault
            | none =>
              .ok ⟨inner.value, span.stop, rest',
                Nat.lt_succ_of_lt (Nat.lt_trans (length_lt_of_cons h) inner.shorter)⟩
          | rest' => .error (s.refuse (.mark .closing) rest')
    | _ => .error (s.refuse .expression (t :: rest))
  | _, _, .arguments depth opening rest, ask =>
    match s.tooDeep? depth (opening :: rest) <|> s.blocked? rest with
    | some fault => .error fault
    | none =>
      match rest with
      | ⟨.mark .closing, _, span⟩ :: rest =>
        match s.blocked? rest with
        | some fault => .error fault
        | none => .ok ⟨[], span.stop, rest, Nat.lt_succ_of_lt (Nat.lt_succ_self _)⟩
      | rest => ask (.moreArguments depth (.pass [] opening rest)) (.inl (Nat.lt_succ_self _))
  | _, _, @moreArguments depth ts done, ask =>
    match ask (.pipeline depth done.rest) (.inr ⟨rfl, Nat.lt_succ_self _⟩) with
    | .error fault => .error fault
    | .ok arg =>
      match h : arg.rest with
      | ⟨.mark .comma, _, span⟩ :: rest =>
        match s.blocked? rest with
        | some fault => .error fault
        | none =>
          have hrest : rest.length < done.rest.length :=
            Nat.lt_trans (length_lt_of_cons h) arg.shorter
          ask
            (@moreArguments depth ts
              ⟨done.value ++ [arg.value], span.stop, rest, Nat.lt_trans hrest done.shorter⟩)
            (.inl (by exact hrest))
      | ⟨.mark .closing, _, span⟩ :: rest =>
        match s.blocked? rest with
        | some fault => .error fault
        | none =>
          have hrest : rest.length < done.rest.length :=
            Nat.lt_trans (length_lt_of_cons h) arg.shorter
          .ok ⟨done.value ++ [arg.value], span.stop, rest, Nat.lt_trans hrest done.shorter⟩
      | rest => .error (s.refuse (.mark .closing) rest)

/-- The parser answers a call by its answers to the calls before it. -/
theorem answer_eq (s : Setting) (c : Call α ts) :
    answer s c = body s c fun c' _ => answer s c' := by
  delta body
  cases c with dsimp only [answer]
  | pipeline => exact Expr.parsePipeline.eq_def ..
  | stages => exact Expr.parseStages.eq_def ..
  | ternary => exact Expr.parseTernary.eq_def ..
  | operand => rw [Expr.parseOperand]; split <;> rfl
  | operators => exact Expr.parseOperators.eq_def ..
  | unary depth ts =>
    cases ts with
    | nil => rw [Expr.parseUnary]
    | cons t rest => exact Expr.parseUnary.eq_def ..
  | primary depth t rest =>
    obtain ⟨lexeme, raw, p⟩ := t
    rw [Expr.parsePrimary]
    cases lexeme with
    | name name =>
      obtain _ | ⟨⟨lexeme, raw, p⟩, rest⟩ := rest
      · rfl
      · cases lexeme with
        | mark m => cases m <;> rfl
        | _ => rfl
    | mark m => cases m <;> rfl
    | _ => rfl
  | arguments depth opening rest =>
    rw [Expr.parseArguments.eq_def]
    obtain _ | ⟨⟨lexeme, raw, p⟩, rest⟩ := rest
    · rfl
    · cases lexeme with
      | mark m => cases m <;> rfl
      | _ => rfl
  | moreArguments => exact Expr.parseMoreArguments.eq_def ..

/-- Whatever is answered by the answers to the calls before it, is answered like the parser does. -/
theorem answer_unique {s : Setting} {f : {α : Type} → {ts : List Token} → Call α ts → Parse α ts}
    (hf : ∀ {α ts} (c : Call α ts), f c = body s c fun c' _ => f c') (c : Call α ts) :
    f c = answer s c := by
  induction c using induction with
  | step c ih =>
    rw [hf, answer_eq]
    congr 1
    funext β us c' h
    exact ih c' h

end Call

end Stencil
