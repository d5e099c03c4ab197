import Stencil.Eval.Report
import Stencil.Proofs.Eval.Move

/-!
# Notations of calls and of conditions

A pipeline is another notation for nested calls, and a ternary for the conditional call. Main
statement: `Run.notations_agree`. Without a limit on operations nested calls count all of their nodes
first and then do what the pipeline does (`Expr.eval_nested`), and what that is depends on no count.
-/

namespace Stencil

/-- The diagnostic without its place in a source. -/
def Diagnostic.unplaced (d : Diagnostic) : Diagnostic :=
  { d with index := none, line := none, column := none, snippet := [] }

lemma Diagnostic.unplaced_build (category : Category) (detail : Text) (source : Option Text)
    (index index' length length' : Option Quantity) (hint : Option Text) (cause : Option Cause) :
    (build category detail ⟨source, index, length, hint⟩ cause).unplaced =
      (build category detail ⟨source, index', length', hint⟩ cause).unplaced := by
  unfold build
  dsimp only
  split <;> split <;> rfl

namespace EvalFault

/-- The fault without its place. -/
def unplaced : EvalFault → EvalFault := move fun _ => 0

/-- What is told of a fault without its place is what is told of the fault, but for the place. -/
lemma diagnostic_unplaced (fault : EvalFault) (text : Option Text) :
    (fault.unplaced.diagnostic text).unplaced = (fault.diagnostic text).unplaced := by
  cases fault with
  | unresolved => rfl
  | value => rfl
  | reported => rfl
  | arguments name fault span => cases fault <;> exact Diagnostic.unplaced_build ..
  | _ => exact Diagnostic.unplaced_build ..

/-- The faults differ at most in their places, and so do the diagnostics that are told of them. -/
structure Displaced (f f' : EvalFault) : Prop where
  fault : f.unplaced = f'.unplaced
  diagnostic (source : Option Text) : (f.diagnostic source).unplaced = (f'.diagnostic source).unplaced

lemma displaced_iff {f f' : EvalFault} : f.Displaced f' ↔ f.unplaced = f'.unplaced := by
  refine ⟨Displaced.fault, fun h => ⟨h, fun source => ?_⟩⟩
  rw [← diagnostic_unplaced f, ← diagnostic_unplaced f', h]

end EvalFault

/-- The outcomes are the same value, or faults that differ in their places only. -/
inductive Outcome.Displaced {α : Type} : Except EvalFault α → Except EvalFault α → Prop where
  | ok (a : α) : Displaced (.ok a) (.ok a)
  | error {f f' : EvalFault} : f.Displaced f' → Displaced (.error f) (.error f')

lemma Outcome.displaced_iff {α : Type} {o o' : Except EvalFault α} :
    Displaced o o' ↔ o.mapError EvalFault.unplaced = o'.mapError EvalFault.unplaced := by
  constructor
  · rintro (_ | h)
    · rfl
    · exact congrArg Except.error h.fault
  · intro h
    rcases o with f | a <;> rcases o' with f' | a'
    · exact .error (EvalFault.displaced_iff.2 (Except.error.inj h))
    · cases h
    · cases h
    · cases h
      exact .ok a

/-- The runs make the same calls with the same arguments, and their outcomes differ at most in the
place of a fault. -/
structure Run.Displaced (r r' : Except EvalFault Value × Trace) : Prop where
  outcome : Outcome.Displaced r.1 r'.1
  calls : r.2.calls = r'.2.calls

/-- The calls of the functions of some stages, each with the one before as its first argument. -/
def Expr.nested (input : Expr) : List Stage → Expr
  | [] => input
  | .mk span name args :: rest => nested (.call span name (input :: args)) rest

/-- Some operations are counted at once. -/
def Eval.tick (n : Nat) : Eval Unit := modify fun t => { t with operations := t.operations + n }

namespace Eval

lemma runFrom_tick (n : Nat) (t : Trace) :
    (tick n).runFrom t = (.ok (), { t with operations := t.operations + n }) := rfl

lemma tick_zero : tick 0 = pure () := rfl

lemma tick_tick (n m : Nat) : (tick n >>= fun _ => tick m) = tick (n + m) := by
  apply ext
  intro t
  rw [runFrom_bind, runFrom_tick]
  dsimp only
  rw [runFrom_tick, runFrom_tick, Nat.add_assoc]

/-- What depends on no count does the same after some operations are counted. -/
lemma Additive.runFrom_tick {α : Type} {m : Eval α} (h : m.Additive) (n : Nat) (t : Trace) :
    (tick n >>= fun _ => m).runFrom t =
      ((m.runFrom {}).1, t.append ⟨n + (m.runFrom {}).2.operations, (m.runFrom {}).2.calls⟩) := by
  rw [runFrom_bind, Eval.runFrom_tick]
  dsimp only
  rw [h]
  simp only [Trace.append, Nat.add_assoc]

end Eval

section

variable {s : Scope} (hs : effective s.maxOperations = none)

include hs

lemma Scope.count_tick (offset : Nat) : s.count offset = Eval.tick 1 := by
  apply Eval.ext
  intro t
  rw [runFrom_count, hs]
  rfl

omit hs in
lemma Scope.function_pure {name : Text} {span : Span} {f : Registration}
    (h : s.functions.find? name = some f) : s.function name span = pure f := by
  rw [function, h]

/-- Nested calls count their nodes, and then evaluate the stages in turn. -/
theorem Expr.eval_nested {input : Expr} {stages : List Stage}
    (h : ∀ stage ∈ stages, s.functions.has stage.name) :
    (input.nested stages).eval s = (do
      Eval.tick stages.length
      let v ← input.eval s
      evalStages s v stages) := by
  induction stages generalizing input with
  | nil =>
    rw [nested, List.length_nil, Eval.tick_zero, pure_bind]
    simp only [evalStages, bind_pure]
  | cons stage rest ih =>
    obtain ⟨span, name, args⟩ := stage
    obtain ⟨hname, hrest⟩ := List.forall_mem_cons.1 h
    obtain ⟨f, hf⟩ := Option.isSome_iff_exists.1 hname
    have hfunction : s.function name span = pure f := Scope.function_pure hf
    rw [nested, ih hrest, List.length_cons, ← Eval.tick_tick]
    simp only [eval, evalAll, evalStages, Scope.count_tick hs, hfunction, pure_bind, bind_assoc]

/-- What a pipeline does after it is counted depends on no count. -/
lemma Expr.stages_additive (input : Expr) (stages : List Stage) :
    (input.eval s >>= fun v => evalStages s v stages).Additive := by
  have hR := relates_additive hs
  have heval (e : Expr) : (e.eval s).Additive := eval_related hR e fun x _ => node_additive x
  apply (heval input).bind
  intro v _
  apply evalStages_related hR.toSequential
  · intro stage hstage
    have hnode := node_additive (s := s) (.pipeline ⟨0, 0⟩ input stages)
    exact hnode.call (List.mem_map.2 ⟨stage, hstage, rfl⟩)
  · exact fun e _ => heval e

end

namespace Run

lemma Displaced.trans {r r' r'' : Except EvalFault Value × Trace} (h : Displaced r r')
    (h' : Displaced r' r'') : Displaced r r'' := by
  refine ⟨Outcome.displaced_iff.2 ?_, h.calls.trans h'.calls⟩
  exact (Outcome.displaced_iff.1 h.outcome).trans (Outcome.displaced_iff.1 h'.outcome)

/-- Expressions that differ in their spans only run alike but for the places of faults, with as many
operations. -/
lemma displaced_of_bare {e e' : Expr} (h : e.bare = e'.bare) (s : Scope) (t : Trace) :
    Displaced ((e.eval s).runFrom t) ((e'.eval s).runFrom t) ∧
      ((e.eval s).runFrom t).2.operations = ((e'.eval s).runFrom t).2.operations := by
  have hbare : (e.eval s).mapFault .unplaced = (e'.eval s).mapFault .unplaced := by
    rw [EvalFault.unplaced, ← Expr.eval_move, ← Expr.eval_move]
    exact congrArg (Expr.eval s) h
  have hrun := congrArg (Eval.runFrom · t) hbare
  simp only [Eval.runFrom_mapFault, Prod.mk.injEq] at hrun
  obtain ⟨houtcome, htrace⟩ := hrun
  exact ⟨⟨Outcome.displaced_iff.2 houtcome, congrArg Trace.calls htrace⟩,
    congrArg Trace.operations htrace⟩

/-- A pipeline of registered functions runs like nested calls of them. -/
lemma displaced_nested {s : Scope} (hs : effective s.maxOperations = none) {input : Expr}
    {stages : List Stage} (h : ∀ stage ∈ stages, s.functions.has stage.name) (p : Span)
    (t : Trace) :
    Displaced (((Expr.pipeline p input stages).eval s).runFrom t)
        (((input.nested stages).eval s).runFrom t) ∧
      (((Expr.pipeline p input stages).eval s).runFrom t).2.operations + stages.length =
        (((input.nested stages).eval s).runFrom t).2.operations + 1 := by
  have hbody := Expr.stages_additive hs input stages
  rw [Expr.eval_nested hs h, Expr.eval, Scope.count_tick hs, hbody.runFrom_tick, hbody.runFrom_tick]
  refine ⟨⟨Outcome.displaced_iff.2 rfl, rfl⟩, ?_⟩
  simp only [Trace.append]
  omega

/-- Without an alternate the conditional call runs like a ternary with null, but for the count of the
null. -/
lemma conditional_null {s : Scope} (hs : effective s.maxOperations = none) (p q l : Span) (raw : Text)
    (c a : Expr) (t : Trace) :
    let r := ((Expr.conditional p c a none).eval s).runFrom t
    let r' := ((Expr.ternary q c a (.literal l .null raw)).eval s).runFrom t
    r.1 = r'.1 ∧ r.2.calls = r'.2.calls ∧
      (r'.2.operations = r.2.operations ∨ r'.2.operations = r.2.operations + 1) := by
  intro r r'
  simp only [r, r', Expr.eval, Scope.count_tick hs, Eval.runFrom_bind, Eval.runFrom_tick]
  rcases (c.eval s).runFrom { t with operations := t.operations + 1 } with ⟨_ | v, t'⟩
  · exact ⟨rfl, rfl, .inl rfl⟩
  · dsimp only
    by_cases hv : v.isTruthy
    · simp only [if_pos hv, true_or, and_self]
    · simp only [if_neg hv]
      exact ⟨rfl, rfl, .inr rfl⟩

/-- Without a limit on operations a pipeline of registered functions ends in the same value or, up to
its place, in the same fault as nested calls, after the same calls, and with as many operations less
as there are stages but one. A ternary and the conditional call evaluate to the same, with as many
operations in every scope, and a missing alternate is as null. -/
theorem notations_agree {s : Scope} (hs : effective s.maxOperations = none) :
    (∀ input stages, (∀ stage ∈ stages, s.functions.has stage.name) →
      ∀ p e : Expr, p.bare = (Expr.pipeline ⟨0, 0⟩ input stages).bare →
        e.bare = (input.nested stages).bare → ∀ t,
          let r := (p.eval s).runFrom t
          let r' := (e.eval s).runFrom t
          Displaced r r' ∧ r.2.operations + stages.length = r'.2.operations + 1) ∧
    (∀ p q c a b, (Expr.ternary p c a b).eval s = (Expr.conditional q c a (some b)).eval s) ∧
    (∀ (s' : Scope) (c a b e e' : Expr), e.bare = (Expr.ternary ⟨0, 0⟩ c a b).bare →
      e'.bare = (Expr.conditional ⟨0, 0⟩ c a (some b)).bare → ∀ t,
        let r := (e.eval s').runFrom t
        let r' := (e'.eval s').runFrom t
        Displaced r r' ∧ r.2.operations = r'.2.operations) ∧
    ∀ p q l raw c a t,
      let r := ((Expr.conditional p c a none).eval s).runFrom t
      let r' := ((Expr.ternary q c a (.literal l .null raw)).eval s).runFrom t
      r.1 = r'.1 ∧ r.2.calls = r'.2.calls ∧
        (r'.2.operations = r.2.operations ∨ r'.2.operations = r.2.operations + 1) := by
  refine ⟨?_, ?_, ?_, conditional_null hs⟩
  · intro input stages h p e hp he t
    obtain ⟨hfirst, hops⟩ := displaced_of_bare hp s t
    obtain ⟨hlast, hops'⟩ := displaced_of_bare he.symm s t
    obtain ⟨hmid, hcount⟩ := displaced_nested hs h ⟨0, 0⟩ t
    refine ⟨(hfirst.trans hmid).trans hlast, ?_⟩
    rw [hops, ← hops', hcount]
  · intro p q c a b
    rw [Expr.eval, Expr.eval, Scope.count_tick hs, Scope.count_tick hs]
  · intro s' c a b e e' he he' t
    have hsame : (Expr.ternary ⟨0, 0⟩ c a b).eval s' =
        (Expr.conditional ⟨0, 0⟩ c a (some b)).eval s' := by rw [Expr.eval, Expr.eval]
    obtain ⟨hfirst, hops⟩ := displaced_of_bare he s' t
    obtain ⟨hlast, hops'⟩ := displaced_of_bare he'.symm s' t
    rw [hsame] at hfirst hops
    exact ⟨hfirst.trans hlast, hops.trans hops'⟩

theorem notations_agree_stages :
    let fails : Registration := ⟨"g", fun _ => .error (.error "no"), none⟩
    let r : Registry := ⟨[("f", ⟨"f", fun args => .ok (.array args), none⟩), ("g", fails)], true, 2⟩
    let s : Scope := ⟨⟨none, [], [], [], [], []⟩, r, none⟩
    let input (p : Span) : Expr := .literal p (.string "a") "'a'"
    let last (p : Span) : Expr := .literal p .null "null"
    let stages : List Stage := [.mk ⟨6, 7⟩ "f" [], .mk ⟨10, 17⟩ "g" [last ⟨12, 16⟩]]
    let p : Expr := .pipeline ⟨0, 17⟩ (input ⟨0, 3⟩) stages
    let e : Expr := .call ⟨0, 15⟩ "g" [.call ⟨2, 8⟩ "f" [input ⟨4, 7⟩], last ⟨10, 14⟩]
    let args : List Value := [.array [.string "a"], .null]
    let calls : List (Text × List Value) := [("f", [.string "a"]), ("g", args)]
    effective s.maxOperations = none ∧ (∀ stage ∈ stages, s.functions.has stage.name) ∧
    (p.eval s).runFrom {} = (.error (.failed "g" (.error "no") args ⟨10, 17⟩), ⟨3, calls⟩) ∧
    (e.eval s).runFrom {} = (.error (.failed "g" (.error "no") args ⟨0, 15⟩), ⟨4, calls⟩) ∧
    Displaced ((p.eval s).runFrom {}) ((e.eval s).runFrom {}) ∧ 3 + stages.length = 4 + 1 := by
  intro fails r s input last stages p e args calls
  have hs : effective s.maxOperations = none := rfl
  have hstages : ∀ stage ∈ stages, s.functions.has stage.name := by decide
  obtain ⟨hdisplaced, hops⟩ := (notations_agree hs).1 _ _ hstages p e rfl rfl {}
  exact ⟨hs, hstages, rfl, rfl, hdisplaced, hops⟩

end Run

end Stencil
