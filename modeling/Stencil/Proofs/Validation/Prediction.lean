import Stencil.Proofs.Eval.Relation

/-!
# What a validation foretells

A validation of calls and operators foretells how a template can fail. Main statement:
`Template.validate_foretells`. Both of its directions go through `Registry.Serves`: a validation finds
exactly the nodes that the registry does not serve, a rendering of nodes that it serves does not fail
in that way, and a node that has a value is served.
-/

namespace Stencil

/-- The violation is of a call or an operator that can only fail. -/
def Violation.Foretells (v : Violation) : Prop :=
  v.code = "VAL_UNKNOWN_FUNCTION" ∨ v.code = "VAL_ARITY" ∨ v.code = "VAL_UNSUPPORTED_OPERATOR"

/-- The fault is one that validation can foretell: a function is not registered, the number of
arguments is not one that its signature allows, or an operator cannot be evaluated. -/
def EvalFault.IsForetold : EvalFault → Prop
  | .unknownFunction .. => True
  | .arguments _ (.tooMany ..) _ => True
  | .arguments _ (.missing _) _ => True
  | .unsupported .. => True
  | _ => False

/-- The issue is of the node: of a function that it calls itself, of the number of arguments there, or
of its operator. -/
inductive Issue.Flags (source : Text) : Issue → Expr → Prop where
  | unknown {x : Expr} {call : CallSite} {bound : Bool} :
    call ∈ x.callSites →
    Flags source (.ofSpan source call.span (.unknownFunction call.name bound)) x
  | arity {x : Expr} {call : CallSite} {least : Nat} {most : Option Nat} :
    call ∈ x.callSites →
    Flags source (.ofSpan source call.span (.arity call.name call.args least most)) x
  | operator {span : Span} {op : BinaryOp} {left right : Expr} :
    Flags source (.ofSpan source span (.unsupported op)) (.binary span op left right)

/-- A node can be evaluated as far as its functions and its operator go: they are registered and take
as many arguments, and it is supported. -/
structure Registry.Serves (registry : Registry) (x : Expr) : Prop where
  call {call : CallSite} : call ∈ x.callSites →
    ∃ f, registry.find? call.name = some f ∧ f.Takes call.args
  operator {span : Span} {op : BinaryOp} {left right : Expr} :
    x = .binary span op left right → op.isSupported = true

lemma Violation.Foretells.cases {v : Violation} (h : v.Foretells) :
    (∃ name bound, v = .unknownFunction name bound) ∨
      (∃ name given least most, v = .arity name given least most) ∨ ∃ op, v = .unsupported op := by
  cases v with
  | unknownFunction name bound => exact .inl ⟨name, bound, rfl⟩
  | arity name given least most => exact .inr (.inl ⟨name, given, least, most, rfl⟩)
  | unsupported op => exact .inr (.inr ⟨op, rfl⟩)
  | malformed fault =>
    simp only [Foretells, code] at h
    split at h
    · exact absurd h (by decide)
    · exact absurd h (by decide)
  | _ =>
    simp only [Foretells, code] at h
    exact absurd h (by decide)

/-! ## What a value tells -/

lemma Registration.takes_of_yields {f : Registration} {args : List Value} {span : Span} {v : Value}
    (h : (f.invoke args span).Yields v) : f.Takes args.length := by
  obtain ⟨bound, hb⟩ := bind_of_yields h
  exact takes_of_bind hb

lemma BinaryOp.isSupported_of_yields {op : BinaryOp} {a b v : Value} {span right : Span}
    (h : (op.apply a b span right).Yields v) : op.isSupported = true := by
  cases op with
  | modulo => exact absurd h Eval.not_yields_throw
  | lessEqual => exact absurd h Eval.not_yields_throw
  | greater => exact absurd h Eval.not_yields_throw
  | greaterEqual => exact absurd h Eval.not_yields_throw
  | contains => exact absurd h Eval.not_yields_throw
  | startsWith => exact absurd h Eval.not_yields_throw
  | endsWith => exact absurd h Eval.not_yields_throw
  | _ => rfl

namespace Expr

variable {s : Scope}

lemma calls_of_evalStages_yields {stages : List Stage} {v w : Value}
    (h : (evalStages s v stages).Yields w) :
    ∀ stage ∈ stages, ∃ f, s.functions.find? stage.name = some f ∧ f.Takes (stage.args.length + 1) := by
  induction stages generalizing v with
  | nil => nofun
  | cons stage rest ih =>
    obtain ⟨span, name, args⟩ := stage
    rw [evalStages] at h
    obtain ⟨f, hf, h⟩ := h.bind
    obtain ⟨extra, hextra, h⟩ := h.bind
    obtain ⟨u, hu, h⟩ := h.bind
    have htakes : f.Takes (extra.length + 1) := Registration.takes_of_yields hu
    rw [length_of_yields hextra] at htakes
    exact List.forall_mem_cons.2 ⟨⟨f, Scope.find?_of_yields hf, htakes⟩, ih h⟩

theorem serves_of_yields {x : Expr} {v : Value} (h : (x.eval s).Yields v) : s.functions.Serves x := by
  obtain ⟨rest, hrest⟩ := x.eval_count s
  constructor
  · intro call hcall
    cases x with
    | call span name args =>
      rw [callSites, List.mem_singleton] at hcall
      subst hcall
      rw [eval] at h
      obtain ⟨-, -, h⟩ := h.bind
      obtain ⟨f, hf, h⟩ := h.bind
      obtain ⟨values, hvalues, h⟩ := h.bind
      have htakes := Registration.takes_of_yields h
      rw [length_of_yields hvalues] at htakes
      exact ⟨f, Scope.find?_of_yields hf, htakes⟩
    | pipeline span input stages =>
      rw [callSites, List.mem_map] at hcall
      obtain ⟨stage, hstage, rfl⟩ := hcall
      rw [eval] at h
      obtain ⟨-, -, h⟩ := h.bind
      obtain ⟨u, -, h⟩ := h.bind
      exact calls_of_evalStages_yields h stage hstage
    | _ => cases hcall
  · rintro span op left right rfl
    rw [eval] at h
    obtain ⟨-, -, h⟩ := h.bind
    obtain ⟨a, -, h⟩ := h.bind
    obtain ⟨b, -, h⟩ := h.bind
    exact BinaryOp.isSupported_of_yields h

end Expr

/-! ## What cannot fail -/

/-- No run of the evaluation ends in a fault that validation can foretell. -/
def Eval.Unforetold {α : Type} (m : Eval α) : Prop :=
  ∀ t fault t', m.runFrom t = (.error fault, t') → ¬ fault.IsForetold

lemma relates_unforetold (s : Scope) : Relates (fun _ m _ => m.Unforetold) s s :=
  relates_failsOnly s (fun _ => id) (fun _ => id) (fun _ => id)

/-- A call of a function with as many arguments as it takes fails over their kinds or in the function
itself. -/
lemma Registration.invoke_unforetold {f : Registration} {args : List Value} {span : Span}
    (h : f.Takes args.length) : (f.invoke args span).Unforetold := by
  apply invoke_failsOnly
  · intro fault hb
    obtain ⟨p, type, kind, rfl⟩ := mismatch_of_bind h hb
    exact id
  · exact fun _ => id
  · exact fun _ _ => id

lemma Registry.Serves.node_unforetold {s : Scope} {x : Expr} (h : s.functions.Serves x) :
    NodeRelated (fun _ m _ => m.Unforetold) s s x := by
  refine ⟨?_, ?_, ?_⟩
  · intro _ _ _ _
    exact Eval.FailsOnly.lift fun _ _ => id
  · intro call hcall
    obtain ⟨f, hf, htakes⟩ := h.call hcall
    refine ⟨?_, ?_⟩
    · unfold Scope.function
      rw [hf]
      exact Eval.FailsOnly.pure f
    · intro g args hg hlen
      rw [or_self, hf] at hg
      cases hg
      exact Registration.invoke_unforetold (hlen ▸ htakes)
  · intro span op left right hx hop
    rw [h.operator hx] at hop
    cases hop

/-! ## What is found -/

namespace Template

section

variable {t : Template} {r : Rules} (own : r.registry.getD t.functions = t.functions)

include own

/-- An issue that foretells a failure is of a call whose function is not registered, or does not take
as many arguments, or of an operator that is not supported. -/
lemma found_of_mem_issues {i : Issue} (hi : i ∈ (t.validate r).issues)
    (hv : i.violation.Foretells) :
    (∃ call ∈ t.calls, t.functions.find? call.name = none ∧
      i = .ofSpan t.source call.span (.unknownFunction call.name t.functions.bound)) ∨
    (∃ call ∈ t.calls, ∃ f s, t.functions.find? call.name = some f ∧ f.signature = some s ∧
      ¬ s.Allows call.args ∧
      i = .ofSpan t.source call.span (.arity call.name call.args s.least s.most?)) ∨
    ∃ span op left right, .binary span op left right ∈ t.nodes ∧ op.isSupported = false ∧
      i = .ofSpan t.source span (.unsupported op) := by
  rw [mem_issues, own] at hi
  -- by the check that finds the issue; only those of operators and of calls foretell a failure
  obtain hi | hi | hi | hi | hi := hi
  · obtain ⟨count, limit, h⟩ := Rules.exists_of_mem_nodeIssues hi
    rw [h] at hv
    simpa using hv.cases
  · obtain ⟨visits, -, hi⟩ := List.mem_flatMap.1 hi
    obtain ⟨depth, limit, h⟩ := Rules.exists_of_mem_depthIssues hi
    rw [h] at hv
    simpa using hv.cases
  · exact .inr (.inr (Rules.mem_operatorIssues.1 hi))
  · obtain ⟨call, hcall, v, rfl, hname | harity⟩ := Rules.exists_of_mem_callIssues hi
    · obtain ⟨-, rfl⟩ | ⟨-, rfl⟩ | ⟨hf, rfl⟩ := Rules.mem_nameViolations.1 hname
      · simpa [Issue.ofSpan] using hv.cases
      · simpa [Issue.ofSpan] using hv.cases
      · exact .inl ⟨call, hcall, hf, rfl⟩
    · obtain ⟨f, s, hf, hs, hcount, rfl⟩ := Rules.arityViolation?_eq_some.1 harity
      exact .inr (.inl ⟨call, hcall, f, s, hf, hs, hcount, rfl⟩)
  · obtain ⟨kind, h | h⟩ := Rules.exists_of_mem_sourceIssues hi
    · rw [h] at hv
      simpa using hv.cases
    · rw [h] at hv
      simpa using hv.cases

lemma serves_of_no_issue (h : ∀ i ∈ (t.validate r).issues, ¬ i.violation.Foretells) {x : Expr}
    (hx : x ∈ t.nodes) : t.functions.Serves x := by
  have hissues {i : Issue} (hi : i ∈ r.callIssues t.functions t.source [] t.calls) :
      i ∈ (t.validate r).issues := by
    rw [mem_issues, own]
    exact .inr (.inr (.inr (.inl hi)))
  constructor
  · intro call hcall
    have hmem : call ∈ t.calls := List.mem_flatMap.2 ⟨x, hx, hcall⟩
    -- a name is reported at its first call only, a number of arguments at every call
    cases hf : t.functions.find? call.name with
    | none =>
      have hname : .unknownFunction call.name t.functions.bound ∈
          r.nameViolations t.functions call.name :=
        Rules.mem_nameViolations.2 (.inr (.inr ⟨hf, rfl⟩))
      obtain ⟨span, hi⟩ := Rules.callIssues_name hmem List.not_mem_nil hname
      exact absurd (.inl rfl) (h _ (hissues hi))
    | some f =>
      cases ha : Rules.arityViolation? t.functions call with
      | none => exact ⟨f, rfl, Rules.takes_of_arityViolation? ha hf⟩
      | some v =>
        have hi := hissues (Rules.callIssues_arity hmem ha)
        obtain ⟨_, _, _, _, _, rfl⟩ := Rules.arityViolation?_eq_some.1 ha
        exact absurd (.inr (.inl rfl)) (h _ hi)
  · rintro span op left right rfl
    by_contra hop
    rw [Bool.not_eq_true] at hop
    have hi : Issue.ofSpan t.source span (.unsupported op) ∈ (t.validate r).issues := by
      rw [mem_issues]
      exact .inr (.inr (.inl (Rules.mem_operatorIssues.2 ⟨span, op, left, right, hx, hop, rfl⟩)))
    exact h _ hi (.inr (.inr rfl))

lemma exists_flagged {i : Issue} (hi : i ∈ (t.validate r).issues) (hv : i.violation.Foretells) :
    ∃ x ∈ t.nodes, i.Flags t.source x := by
  obtain ⟨call, hcall, -, rfl⟩ | ⟨call, hcall, _, _, -, -, -, rfl⟩ | ⟨_, _, _, _, hx, -, rfl⟩ :=
    found_of_mem_issues own hi hv
  · obtain ⟨x, hx, hc⟩ := List.mem_flatMap.1 hcall
    exact ⟨x, hx, .unknown hc⟩
  · obtain ⟨x, hx, hc⟩ := List.mem_flatMap.1 hcall
    exact ⟨x, hx, .arity hc⟩
  · exact ⟨_, hx, .operator⟩

lemma not_serves_of_flags {i : Issue} (hi : i ∈ (t.validate r).issues) {x : Expr}
    (hx : i.Flags t.source x) : ¬ t.functions.Serves x := by
  intro hserves
  cases hx with
  | unknown hcall =>
    obtain ⟨f, hf, -⟩ := hserves.call hcall
    obtain ⟨c, -, hnone, heq⟩ | ⟨_, -, _, _, -, -, -, heq⟩ | ⟨_, _, _, _, -, -, heq⟩ :=
      found_of_mem_issues own hi (.inl rfl)
    · injection heq with heq
      injection heq with hname
      rw [hname, hnone] at hf
      cases hf
    · injection heq with heq
      cases heq
    · injection heq with heq
      cases heq
  | arity hcall =>
    obtain ⟨f, hf, htakes⟩ := hserves.call hcall
    obtain ⟨_, -, -, heq⟩ | ⟨c, -, g, s, hg, hs, hcount, heq⟩ | ⟨_, _, _, _, -, -, heq⟩ :=
      found_of_mem_issues own hi (.inr (.inl rfl))
    · injection heq with heq
      cases heq
    · injection heq with heq
      injection heq with hname hargs
      rw [hname, hg] at hf
      cases hf
      rw [hargs] at htakes
      exact hcount (htakes s hs)
    · injection heq with heq
      cases heq
  | operator =>
    obtain ⟨_, -, -, heq⟩ | ⟨_, -, _, _, -, -, -, heq⟩ | ⟨_, _, _, _, -, hop, heq⟩ :=
      found_of_mem_issues own hi (.inr (.inr rfl))
    · injection heq with heq
      cases heq
    · injection heq with heq
      cases heq
    · injection heq with heq
      injection heq with heq
      rw [← heq, hserves.operator rfl] at hop
      cases hop

end

/-- A validation against the own registry of a template foretells which calls and operators fail. If
it finds none, no rendering fails in that way; the nodes of those that it finds never have a value. -/
theorem validate_foretells (t : Template) (r : Rules)
    (own : r.registry.getD t.functions = t.functions) :
    ((∀ i ∈ (t.validate r).issues, ¬ i.violation.Foretells) →
      ∀ (c : Context) (fault : EvalFault) (trace : Trace),
        (t.render c).runFrom {} = (.error fault, trace) → ¬ fault.IsForetold) ∧
    ∀ i ∈ (t.validate r).issues, i.violation.Foretells →
      (∃ x ∈ t.nodes, i.Flags t.source x) ∧
      ∀ x ∈ t.nodes, i.Flags t.source x → ∀ (c : Context) (limit : Option Quantity) (v : Value),
        ¬ (x.eval ⟨c, t.functions, limit⟩).Yields v := by
  constructor
  · intro hnone c
    have hrender : (t.render c).Unforetold := by
      apply render_related (relates_unforetold (t.scope c)) t
      intro x hx
      have hserves : (t.scope c).functions.Serves x := serves_of_no_issue own hnone hx
      exact hserves.node_unforetold
    exact hrender {}
  · intro i hi hv
    refine ⟨exists_flagged own hi hv, ?_⟩
    intro x _ hflags c limit v hyields
    exact not_serves_of_flags own hi hflags (Expr.serves_of_yields hyields)

theorem validate_foretells_arity :
    let f : Registration := ⟨"f", fun _ => .ok .null, some ⟨[⟨"a", .any, true, none⟩], false⟩⟩
    let x : Expr := .call ⟨2, 5⟩ "f" []
    let t : Template := ⟨"{{f()}}", [.expression "f()" x ⟨0, 7⟩], ⟨[("f", f)], true, 1⟩, {}⟩
    let i : Issue := .ofSpan t.source ⟨2, 5⟩ (.arity "f" 0 1 (some 1))
    ({} : Rules).registry.getD t.functions = t.functions ∧ i ∈ (t.validate {}).issues ∧
      ∀ (c : Context) (limit : Option Quantity) (v : Value),
        ¬ (x.eval ⟨c, t.functions, limit⟩).Yields v := by
  intro f x t i
  have hcall : ⟨"f", 0, ⟨2, 5⟩⟩ ∈ x.callSites := List.mem_singleton.2 rfl
  have hi : i ∈ (t.validate {}).issues := by
    rw [mem_issues]
    exact .inr (.inr (.inr (.inl (Rules.callIssues_arity hcall rfl))))
  have hflags : i.Flags t.source x := .arity hcall
  obtain ⟨-, hconv⟩ := validate_foretells t {} rfl
  exact ⟨rfl, hi, (hconv i hi (.inr (.inl rfl))).2 x (List.mem_singleton.2 rfl) hflags⟩

end Template

end Stencil
