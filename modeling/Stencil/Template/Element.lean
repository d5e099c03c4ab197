import Stencil.Expr.Parser

/-!
# Elements of templates

A template is text with expressions between double braces. A backslash before the opening braces
makes them text. `Element.parse` splits a source into text and expressions; text is merged across
escapes, and empty text is dropped.
-/

namespace Stencil

/-- A part of a template. -/
inductive Element where
  /-- Text, with its escapes resolved. -/
  | text (value : Text)
  /-- An expression, its text without the blanks around it, and its span with the braces. -/
  | expression (source : Text) (expr : Expr) (span : Span)

/-- The text at the start of a source up to the first opening braces: its value, its width in the
source, and what follows the braces, if there are any. -/
structure Gap where
  value : Text
  width : Nat
  inside : Option Text

namespace Gap

/-- The gap with one more unit in front. -/
def push (u : CodeUnit) (g : Gap) : Gap := ⟨u :: g.value, g.width + 1, g.inside⟩

/-- The gap with escaped braces in front. -/
def pushBraces (g : Gap) : Gap := ⟨'{' :: '{' :: g.value, g.width + 3, g.inside⟩

/-- The gap at the start of a source. -/
def of : Text → Gap
  | [] => ⟨[], 0, none⟩
  | [u] => ⟨[u], 1, none⟩
  | [u, v] => if u = '{' ∧ v = '{' then ⟨[], 0, some []⟩ else ⟨[u, v], 2, none⟩
  | u :: v :: w :: rest =>
    if u = '\\' ∧ v = '{' ∧ w = '{' then (of rest).pushBraces
    else if u = '{' ∧ v = '{' then ⟨[], 0, some (w :: rest)⟩
    else (of (v :: w :: rest)).push u

theorem length_inside {source inside : Text} (h : (of source).inside = some inside) :
    inside.length < source.length := by
  fun_induction of source with
  | case1 | case2 | case4 => simp at h
  | case3 => simp_all
  | case5 u v w rest _ ih => have := ih h; simp only [List.length_cons]; omega
  | case6 u v w rest => simp at h; simp [← h]
  | case7 u v w rest _ _ ih => have := ih h; simp only [List.length_cons] at *; omega

end Gap

namespace Element

/-- Whether closing braces occur in a text. -/
def hasClosing : Text → Bool
  | [] => false
  | [_] => false
  | u :: v :: rest => (u == '\x7d' && v == '\x7d') || hasClosing (v :: rest)

/-- A text element, unless the text is empty. -/
def ofText (value : Text) : List Element := if value.isEmpty then [] else [.text value]

/-- The elements of a source of `size` units from an offset on, where `rest` begins. -/
def parseFrom (size : Nat) (maxDepth : Option Quantity) (offset : Nat) (rest : Text) :
    Except SyntaxFault (List Element) :=
  let gap := Gap.of rest
  match _h : gap.inside with
  | none => .ok (ofText gap.value)
  | some inside =>
    let opening := offset + gap.width
    if hasClosing inside then
      match Expr.parseSegment opening ⟨size, opening + 2, inside⟩ maxDepth with
      | .error fault => .error fault
      | .ok (expr, close) =>
        let source := Text.trim (inside.take (close.span.start - (opening + 2)))
        let stop := close.span.stop
        match parseFrom size maxDepth stop (inside.drop (stop - (opening + 2))) with
        | .error fault => .error fault
        | .ok more => .ok (ofText gap.value ++ .expression source expr ⟨opening, stop⟩ :: more)
    else .error (.unclosed opening)
termination_by rest.length
decreasing_by
  have := Gap.length_inside _h
  simp only [List.length_drop]
  omega

/-- The elements of a template. -/
def parse (source : Text) (maxLength maxDepth : Option Quantity) :
    Except SyntaxFault (List Element) :=
  match maxLength with
  | some limit =>
    if limit.lt source.length then .error (.tooLong limit source.length)
    else parseFrom source.length maxDepth 0 source
  | none => parseFrom source.length maxDepth 0 source

end Element

end Stencil
