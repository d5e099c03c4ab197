import Stencil.Expr.Basic
import Stencil.Limits
import Stencil.Number.Numeral
import Stencil.Token.Cursor

/-!
# Parsing expressions

A parser by recursive descent. From loosest to tightest: pipelines, ternaries, the levels of binary
operators, unary operators, primaries. Every step leaves fewer tokens than it was given, and calls
for the same tokens go to a tighter form, so parsing ends.

The tokens before the first fault are given as a list. A fault is met as soon as the token before it
has been passed, whatever would have followed.
-/

namespace Stencil

/-- The name of the conditional call. -/
def conditionalName : Text := "if"

/-- The literal that a name is. -/
def keywordLiteral? (name : Text) : Option Value :=
  if name = ("true" : Text) then some (.bool true)
  else if name = ("false" : Text) then some (.bool false)
  else if name = ("null" : Text) then some .null
  else none

/-- The value of a number literal: an integer if it is written in digits only and in the exact
range, otherwise a float. None if it is out of range. -/
def numberLiteral? (text : Text) : Option Value :=
  match text.isDigits, Whole.ofInt? text.toNat with
  | true, some n => some (.integer n)
  | _, _ =>
    match Numeral.read? text with
    | some n => if n.toNumber.isFinite then some (.float n.toNumber) else none
    | none => none

/-- What a parse goes by: how the tokens end, the offset of the opening braces inside a template,
and the greatest depth allowed. -/
structure Setting where
  last : Except SyntaxFault Token
  opening : Option Nat
  maxDepth : Option Quantity

namespace Setting

/-- The fault of finding the next token where something else was expected. The end of the source
inside a template means that the expression is not closed. -/
def refuse (s : Setting) (expected : Expected) : List Token → SyntaxFault
  | t :: _ => .unexpected expected t
  | [] =>
    match s.last with
    | .error fault => fault
    | .ok t =>
      match s.opening with
      | some opening => if t.lexeme = .eof then .unclosed opening else .unexpected expected t
      | none => .unexpected expected t

/-- The fault that the token before these ones is followed by. -/
def blocked? (s : Setting) : List Token → Option SyntaxFault
  | _ :: _ => none
  | [] =>
    match s.last with
    | .error fault => some fault
    | .ok _ => none

/-- Where the next token starts; the start of the last one after all others. -/
def here (s : Setting) : List Token → Nat
  | t :: _ => t.span.start
  | [] =>
    match s.last with
    | .ok t => t.span.start
    | .error _ => 0

/-- The fault of a depth that is not allowed. -/
def tooDeep? (s : Setting) (depth : Nat) (ts : List Token) : Option SyntaxFault :=
  match s.maxDepth with
  | some limit => if limit.lt depth then some (.tooDeep (s.here ts)) else none
  | none => none

/-- The fault that keeps a parse from going deeper at these tokens. -/
def barred? (s : Setting) (depth : Nat) (ts : List Token) : Option SyntaxFault :=
  s.blocked? ts <|> s.tooDeep? depth ts

end Setting

/-- What a step of the parser gives: a result, the end of the last token it passed, and the tokens
that follow, which are fewer than before. -/
structure Step (α : Type) (before : List Token) where
  value : α
  stop : Nat
  rest : List Token
  shorter : rest.length < before.length

/-- The outcome of a step. -/
abbrev Parse (α : Type) (before : List Token) := Except SyntaxFault (Step α before)

namespace Step

/-- One token passed. -/
def pass {α : Type} (value : α) (t : Token) (rest : List Token) : Step α (t :: rest) :=
  ⟨value, t.span.stop, rest, by simp⟩

end Step

namespace Expr

/-- The node of a finished pipeline; without stages it is its input. -/
def ofStages (input : Expr) (stages : List Stage) (stop : Nat) : Expr :=
  if stages.isEmpty then input else .pipeline ⟨input.span.start, stop⟩ input stages

/-- The node of a call. The conditional call takes two or three arguments. -/
def ofCall (t : Token) (name : Text) (args : List Expr) (stop : Nat) : Except SyntaxFault Expr :=
  let span : Span := ⟨t.span.start, stop⟩
  if name = conditionalName then
    match args with
    | [condition, consequent] => .ok (.conditional span condition consequent none)
    | [condition, consequent, alternate] =>
      .ok (.conditional span condition consequent (some alternate))
    | _ => .error (.conditionalArity span)
  else .ok (.call span name args)

mutual

/-- A ternary, then any number of stages. -/
def parsePipeline (s : Setting) (depth : Nat) (ts : List Token) : Parse Expr ts :=
  match parseTernary s depth ts with
  | .error fault => .error fault
  | .ok input => parseStages s depth input []
termination_by ts.length * 12 + 10
decreasing_by
  · omega
  · have := input.shorter; omega

/-- The stages after an input, each a bar, the name of a function, and perhaps arguments. -/
def parseStages (s : Setting) (depth : Nat) {ts : List Token} (input : Step Expr ts)
    (done : List Stage) : Parse Expr ts :=
  let finished := { input with value := ofStages input.value done input.stop }
  match h : input.rest with
  | ⟨.sign .bar, _, _⟩ :: rest =>
    match s.blocked? rest with
    | some fault => .error fault
    | none =>
      match rest with
      | ⟨.name name, raw, span⟩ :: rest =>
        if name = conditionalName then
          .error (s.refuse .stageName (⟨.name name, raw, span⟩ :: rest))
        else
          match s.blocked? rest with
          | some fault => .error fault
          | none =>
            match rest with
            | ⟨.mark .opening, raw, opening⟩ :: rest =>
              match parseArguments s (depth + 1) ⟨.mark .opening, raw, opening⟩ rest with
              | .error fault => .error fault
              | .ok args =>
                let stage := Stage.mk ⟨span.start, args.stop⟩ name args.value
                parseStages s depth
                  ⟨input.value, args.stop, args.rest, by
                    have := args.shorter; have := input.shorter; simp_all; omega⟩
                  (done ++ [stage])
            | rest =>
              parseStages s depth
                ⟨input.value, span.stop, rest, by have := input.shorter; simp_all; omega⟩
                (done ++ [.mk span name []])
      | rest => .error (s.refuse .stageName rest)
  | _ => .ok finished
termination_by input.rest.length * 12
decreasing_by
  · rw [h]; simp only [List.length_cons]; omega
  · have := args.shorter; rw [h]; simp only [List.length_cons] at *; omega
  · rw [h]; simp only [List.length_cons]; omega

/-- An operand, then perhaps a question mark and two branches. -/
def parseTernary (s : Setting) (depth : Nat) (ts : List Token) : Parse Expr ts :=
  match parseOperand s depth 0 ts with
  | .error fault => .error fault
  | .ok condition =>
    match h : condition.rest with
    | ⟨.mark .question, _, _⟩ :: rest =>
      match s.barred? (depth + 1) rest with
      | some fault => .error fault
      | none =>
        match parseTernary s (depth + 1) rest with
        | .error fault => .error fault
        | .ok consequent =>
          match h' : consequent.rest with
          | ⟨.mark .colon, _, _⟩ :: rest' =>
            match s.barred? (depth + 1) rest' with
            | some fault => .error fault
            | none =>
              match parseTernary s (depth + 1) rest' with
              | .error fault => .error fault
              | .ok alternate =>
                let span : Span := ⟨condition.value.span.start, alternate.value.span.stop⟩
                .ok ⟨.ternary span condition.value consequent.value alternate.value,
                  alternate.stop, alternate.rest, by
                  have := condition.shorter; have := consequent.shorter; have := alternate.shorter
                  simp_all; omega⟩
          | rest' => .error (s.refuse (.mark .colon) rest')
    | _ => .ok condition
termination_by ts.length * 12 + 9
decreasing_by
  · simp only [BinaryOp.levels]; omega
  · have := condition.shorter; rw [h, List.length_cons] at this; omega
  · have := condition.shorter; have := consequent.shorter
    simp only [h, h', List.length_cons] at *; omega

/-- An operand of the binary operators below a level: for each level, operands of the next one
joined by operators of the level. -/
def parseOperand (s : Setting) (depth level : Nat) (ts : List Token) : Parse Expr ts :=
  if level < BinaryOp.levels then
    match parseOperand s depth (level + 1) ts with
    | .error fault => .error fault
    | .ok left => parseOperators s depth level left
  else parseUnary s depth ts
termination_by ts.length * 12 + 2 + (BinaryOp.levels - level)
decreasing_by
  · omega
  · have := left.shorter; omega
  · omega

/-- The operators of a level after a left operand, each with its right operand. -/
def parseOperators (s : Setting) (depth level : Nat) {ts : List Token} (left : Step Expr ts) :
    Parse Expr ts :=
  match h : left.rest with
  | [] => .ok left
  | t :: rest =>
    match BinaryOp.ofLexeme? t.lexeme with
    | none => .ok left
    | some op =>
      if op.level = level then
        match s.blocked? rest with
        | some fault => .error fault
        | none =>
          match parseOperand s depth (level + 1) rest with
          | .error fault => .error fault
          | .ok right =>
            parseOperators s depth level
              ⟨.binary ⟨left.value.span.start, right.value.span.stop⟩ op left.value right.value,
                right.stop, right.rest, by
                have := left.shorter; have := right.shorter; simp_all; omega⟩
      else .ok left
termination_by left.rest.length * 12
decreasing_by
  · rw [h, List.length_cons]; simp only [BinaryOp.levels]; omega
  · have := right.shorter; rw [h, List.length_cons]; omega

/-- Any number of unary operators before a primary. -/
def parseUnary (s : Setting) (depth : Nat) (ts : List Token) : Parse Expr ts :=
  match ts with
  | [] => .error (s.refuse .expression [])
  | t :: rest =>
    match UnaryOp.ofLexeme? t.lexeme with
    | some op =>
      match s.barred? (depth + 1) rest with
      | some fault => .error fault
      | none =>
        match parseUnary s (depth + 1) rest with
        | .error fault => .error fault
        | .ok operand =>
          .ok ⟨.unary ⟨t.span.start, operand.value.span.stop⟩ op operand.value, operand.stop,
            operand.rest, by have := operand.shorter; simp; omega⟩
    | none => parsePrimary s depth t rest
termination_by ts.length * 12 + 1
decreasing_by
  · rw [List.length_cons]; omega
  · rw [List.length_cons]; omega

/-- A literal, a reference, a call, or an expression in parentheses. -/
def parsePrimary (s : Setting) (depth : Nat) (t : Token) (rest : List Token) :
    Parse Expr (t :: rest) :=
  match t.lexeme with
  | .number text =>
    match s.blocked? rest with
    | some fault => .error fault
    | none =>
      match numberLiteral? text with
      | some value => .ok (.pass (.literal t.span value t.raw) t rest)
      | none => .error (.hugeNumber t.span)
  | .string value =>
    match s.blocked? rest with
    | some fault => .error fault
    | none => .ok (.pass (.literal t.span (.string value) t.raw) t rest)
  | .reference source path =>
    match s.blocked? rest with
    | some fault => .error fault
    | none => .ok (.pass (.access t.span source path) t rest)
  | .name name =>
    match s.blocked? rest with
    | some fault => .error fault
    | none =>
      match keywordLiteral? name with
      | some value => .ok (.pass (.literal t.span value t.raw) t rest)
      | none =>
        match rest with
        | ⟨.mark .opening, raw, span⟩ :: rest =>
          match parseArguments s (depth + 1) ⟨.mark .opening, raw, span⟩ rest with
          | .error fault => .error fault
          | .ok args =>
            match ofCall t name args.value args.stop with
            | .error fault => .error fault
            | .ok e =>
              .ok ⟨e, args.stop, args.rest, by have := args.shorter; simp_all; omega⟩
        | _ => .error (.bareName name t.span)
  | .mark .opening =>
    match s.barred? (depth + 1) rest with
    | some fault => .error fault
    | none =>
      match parsePipeline s (depth + 1) rest with
      | .error fault => .error fault
      | .ok inner =>
        match h : inner.rest with
        | ⟨.mark .closing, _, span⟩ :: rest' =>
          match s.blocked? rest' with
          | some fault => .error fault
          | none =>
            .ok ⟨inner.value, span.stop, rest', by have := inner.shorter; simp_all; omega⟩
        | rest' => .error (s.refuse (.mark .closing) rest')
  | _ => .error (s.refuse .expression (t :: rest))
termination_by (rest.length + 1) * 12
decreasing_by
  · simp only [List.length_cons]; omega
  · omega

/-- The arguments between parentheses, from the opening one on. -/
def parseArguments (s : Setting) (depth : Nat) (opening : Token) (rest : List Token) :
    Parse (List Expr) (opening :: rest) :=
  match s.tooDeep? depth (opening :: rest) <|> s.blocked? rest with
  | some fault => .error fault
  | none =>
    match rest with
    | ⟨.mark .closing, raw, span⟩ :: rest =>
      match s.blocked? rest with
      | some fault => .error fault
      | none => .ok ⟨[], span.stop, rest, by simp only [List.length_cons]; omega⟩
    | rest => parseMoreArguments s depth (.pass [] opening rest)
termination_by (rest.length + 1) * 12
decreasing_by
  · simp only [Step.pass]; omega

/-- At least one more argument after those that are done, up to the closing parenthesis. -/
def parseMoreArguments (s : Setting) (depth : Nat) {ts : List Token}
    (done : Step (List Expr) ts) : Parse (List Expr) ts :=
  match parsePipeline s depth done.rest with
  | .error fault => .error fault
  | .ok arg =>
    match h : arg.rest with
    | ⟨.mark .comma, _, span⟩ :: rest =>
      match s.blocked? rest with
      | some fault => .error fault
      | none =>
        parseMoreArguments s depth
          ⟨done.value ++ [arg.value], span.stop, rest, by
            have := done.shorter; have := arg.shorter; simp_all; omega⟩
    | ⟨.mark .closing, _, span⟩ :: rest =>
      match s.blocked? rest with
      | some fault => .error fault
      | none =>
        .ok ⟨done.value ++ [arg.value], span.stop, rest, by
          have := done.shorter; have := arg.shorter; simp_all; omega⟩
    | rest => .error (s.refuse (.mark .closing) rest)
termination_by done.rest.length * 12 + 11
decreasing_by
  · omega
  · have := arg.shorter; rw [h, List.length_cons] at this; omega

end

/-- The expression that all the tokens make up, if the given lexeme is the last one. -/
def parseWhole (s : Setting) (final : Lexeme) (expected : Expected) (ts : List Token) :
    Except SyntaxFault Expr :=
  match s.tooDeep? 1 ts with
  | some fault => .error fault
  | none =>
    match parsePipeline s 1 ts with
    | .error fault => .error fault
    | .ok step =>
      match step.rest, s.last with
      | [], .ok t => if t.lexeme = final then .ok step.value else .error (s.refuse expected [])
      | rest, _ => .error (s.refuse expected rest)

/-- The expression that a text is. -/
def parse (source : Text) (maxDepth : Option Quantity) : Except SyntaxFault Expr :=
  let tokens := (Cursor.start source 0).tokens
  let s : Setting := ⟨tokens.last, none, effective maxDepth⟩
  match tokens.list, tokens.last with
  | [], .error fault => .error fault
  | [], .ok t =>
    if t.lexeme = .eof then .error (.empty ⟨0, 1⟩) else parseWhole s .eof .ending []
  | ts, _ => parseWhole s .eof .ending ts

/-- The expression after the opening braces of a template at an offset, up to the closing braces,
and the token of those. -/
def parseSegment (opening : Nat) (inside : Cursor) (maxDepth : Option Quantity) :
    Except SyntaxFault (Expr × Token) :=
  let tokens := inside.tokens
  let s : Setting := ⟨tokens.last, some opening, effective maxDepth⟩
  match tokens.last with
  | .error fault =>
    match tokens.list with
    | [] => .error fault
    | ts => (parseWhole s .close .closing ts).bind fun _ => .error fault
  | .ok close =>
    if tokens.list.isEmpty && close.lexeme == .close then
      .error (.empty ⟨opening, close.span.stop⟩)
    else (parseWhole s .close .closing tokens.list).map (·, close)

end Expr

end Stencil
