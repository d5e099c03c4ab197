import Stencil.Expr.Basic

/-!
# Traversal

A traversal enters every node before its parts and leaves it after them. On entering, a visitor may
ask to skip the node, which is then not left either, or to stop.
-/

namespace Stencil

/-- What a visitor asks for on entering a node. -/
inductive Signal where
  | proceed
  | skip
  | stop
deriving DecidableEq

/-- What is done at each node, given its parent and its depth; the depth of the root is 1. -/
structure Visitor (σ : Type) where
  enter : Expr → Option Expr → Nat → σ → Signal × σ
  leave : Expr → Option Expr → Nat → σ → σ

namespace Visitor

/-- The visitor that only notes something at each node. -/
def noting {σ : Type} (note : Expr → Nat → σ → σ) : Visitor σ :=
  ⟨fun e _ depth s => (.proceed, note e depth s), fun _ _ _ s => s⟩

variable {σ : Type} (v : Visitor σ)

/-- Enters a node, visits its parts as given, and leaves it, as the visitor asks. -/
def visit (e : Expr) (parent : Option Expr) (depth : Nat) (s : σ) (parts : σ → Except σ σ) :
    Except σ σ :=
  match v.enter e parent depth s with
  | (.stop, s) => .error s
  | (.skip, s) => .ok s
  | (.proceed, s) => (parts s).map (v.leave e parent depth)

mutual
/-- Visits an expression. The result is an error where the visitor stopped. -/
def walk (parent : Option Expr) (depth : Nat) (s : σ) : Expr → Except σ σ
  | .literal span value raw => v.visit (.literal span value raw) parent depth s .ok
  | .access span source path => v.visit (.access span source path) parent depth s .ok
  | .call span name args =>
    let e := Expr.call span name args
    v.visit e parent depth s fun s => walkAll e (depth + 1) s args
  | .pipeline span input stages =>
    let e := Expr.pipeline span input stages
    v.visit e parent depth s fun s => do
      walkStages e (depth + 1) (← walk (some e) (depth + 1) s input) stages
  | .binary span op left right =>
    let e := Expr.binary span op left right
    v.visit e parent depth s fun s => do
      walk (some e) (depth + 1) (← walk (some e) (depth + 1) s left) right
  | .unary span op operand =>
    let e := Expr.unary span op operand
    v.visit e parent depth s fun s => walk (some e) (depth + 1) s operand
  | .ternary span condition consequent alternate =>
    let e := Expr.ternary span condition consequent alternate
    v.visit e parent depth s fun s => do
      let s ← walk (some e) (depth + 1) s condition
      let s ← walk (some e) (depth + 1) s consequent
      walk (some e) (depth + 1) s alternate
  | .conditional span condition consequent none =>
    let e := Expr.conditional span condition consequent none
    v.visit e parent depth s fun s => do
      let s ← walk (some e) (depth + 1) s condition
      walk (some e) (depth + 1) s consequent
  | .conditional span condition consequent (some alternate) =>
    let e := Expr.conditional span condition consequent (some alternate)
    v.visit e parent depth s fun s => do
      let s ← walk (some e) (depth + 1) s condition
      let s ← walk (some e) (depth + 1) s consequent
      walk (some e) (depth + 1) s alternate
/-- Visits the parts of a parent. -/
def walkAll (parent : Expr) (depth : Nat) (s : σ) : List Expr → Except σ σ
  | [] => .ok s
  | e :: rest => do walkAll parent depth (← walk (some parent) depth s e) rest
/-- Visits the arguments of the stages of a parent. -/
def walkStages (parent : Expr) (depth : Nat) (s : σ) : List Stage → Except σ σ
  | [] => .ok s
  | .mk _ _ args :: rest => do
    walkStages parent depth (← walkAll parent depth s args) rest
end

end Visitor

/-- The state in which a traversal ends. -/
def Expr.traverse {σ : Type} (e : Expr) (v : Visitor σ) (s : σ) : σ :=
  match v.walk none 1 s e with
  | .ok s | .error s => s

/-- The nodes of an expression with their depths, each before its parts. -/
def Expr.visits (e : Expr) : List (Expr × Nat) :=
  (e.traverse (.noting fun node depth seen => (node, depth) :: seen) []).reverse

end Stencil
