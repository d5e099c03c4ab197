import Stencil.Eval.Report
import Stencil.Proofs.Eval.Relation
import Stencil.Proofs.Expr.Dependencies

/-!
# What evaluation depends on

Evaluation reads nothing but the dependencies of its expression. Main statement:
`Dependencies.noninterference`: in contexts and registries that agree on the dependencies, evaluation
counts the same operations, makes the same calls, and ends in the same value or in faults that differ
only in the references that they offer instead.
-/

namespace Stencil

/-- The diagnostic without the references that could be used instead, and without the hint that is
built from them. -/
def Diagnostic.bare (d : Diagnostic) : Diagnostic :=
  match d.category with
  | .dataNotFound path _ => { d with category := .dataNotFound path [], hint := none }
  | _ => d

/-- The fault without the references that could be used instead. -/
def EvalFault.bare : EvalFault → EvalFault
  | .unresolved miss => .unresolved ⟨miss.path, []⟩
  | fault => fault

/-- The faults differ at most in the references that could be used instead, and so do the
diagnostics that are told of them. -/
structure EvalFault.Alike (f f' : EvalFault) : Prop where
  fault : f.bare = f'.bare
  diagnostic (source : Option Text) : (f.diagnostic source).bare = (f'.diagnostic source).bare

namespace EvalFault

lemma Alike.refl (f : EvalFault) : f.Alike f := ⟨rfl, fun _ => rfl⟩

/-- References of one path that do not resolve are faults alike. -/
lemma Alike.unresolved (path : Text) (available available' : List Text) :
    (EvalFault.unresolved ⟨path, available⟩).Alike (.unresolved ⟨path, available'⟩) :=
  ⟨rfl, fun _ => rfl⟩

end EvalFault

/-- The outcomes are the same value, or faults alike. -/
inductive Outcome.Alike {α : Type} : Except EvalFault α → Except EvalFault α → Prop where
  | ok (a : α) : Alike (.ok a) (.ok a)
  | error {f f' : EvalFault} : f.Alike f' → Alike (.error f) (.error f')

/-- The runs count the same operations, make the same calls, and have outcomes alike. -/
structure Run.Alike {α : Type} (r r' : Except EvalFault α × Trace) : Prop where
  outcome : Outcome.Alike r.1 r'.1
  trace : r.2 = r'.2

/-- The evaluations run alike from every trace. -/
def Eval.Alike : Eval.Relation := fun _ m m' => ∀ t, Run.Alike (m.runFrom t) (m'.runFrom t)

lemma Eval.Alike.refl {α : Type} (m : Eval α) : Eval.Alike m m := by
  intro t
  refine ⟨?_, rfl⟩
  cases (m.runFrom t).1 with
  | ok a => exact .ok a
  | error f => exact .error (.refl f)

lemma Eval.Alike.bind {α β : Type} {m m' : Eval α} {f f' : α → Eval β} (h : Eval.Alike m m')
    (hf : ∀ a, m.Yields a ∨ m'.Yields a → Eval.Alike (f a) (f' a)) :
    Eval.Alike (m >>= f) (m' >>= f') := by
  intro t
  rw [runFrom_bind, runFrom_bind]
  obtain ⟨hout, htrace⟩ := h t
  rcases hm : m.runFrom t with ⟨r, u⟩
  rcases hm' : m'.runFrom t with ⟨r', u'⟩
  rw [hm, hm'] at hout htrace
  cases htrace
  cases hout with
  | ok a => exact hf a (.inl ⟨t, u, hm⟩) u
  | error hff => exact ⟨.error hff, rfl⟩

namespace Dependencies

/-- Two contexts and two registries agree on the dependencies. Of the input only the parts at the
paths count, and whether it is set, if anything of it is among the dependencies at all. -/
structure Agree (d : Dependencies) (c c' : Context) (r r' : Registry) : Prop where
  input : d.inputPaths ≠ [] → c.input.isSome = c'.input.isSome
  path : ∀ path ∈ d.inputPaths,
    c.input.bind (·.navigate? path) = c'.input.bind (·.navigate? path)
  node : ∀ id ∈ d.nodes, c.nodes.find? id = c'.nodes.find? id
  environment : ∀ name ∈ d.environment, c.environment.find? name = c'.environment.find? name
  function : ∀ name ∈ d.functions, r.find? name = r'.find? name
  system : d.system → c.system = c'.system
  execution : d.execution → c.execution = c'.execution
  workflow : d.workflow → c.workflow = c'.workflow

section

variable {d : Dependencies} {c c' : Context} {r r' : Registry}

/-- References among the dependencies resolve alike. -/
lemma Agree.resolve (h : d.Agree c c' r r') {source : DataSource} {path : Text}
    (hd : d.Has source path) :
    Eval.Alike (Eval.lift .unresolved (c.resolve source path))
      (Eval.lift .unresolved (c'.resolve source path)) := by
  cases source with
  | input =>
    have hset := h.input (List.ne_nil_of_mem hd)
    have hpath := h.path path hd
    simp only [Context.resolve]
    cases hc : c.input with
    | none =>
      cases hc' : c'.input with
      | none => exact .refl _
      | some v' => rw [hc, hc'] at hset; cases hset
    | some v =>
      cases hc' : c'.input with
      | none => rw [hc, hc'] at hset; cases hset
      | some v' =>
        have hv : v.navigate? path = v'.navigate? path := by rwa [hc, hc'] at hpath
        dsimp only
        rw [Context.descend, Context.descend, hv]
        exact .refl _
  | node id =>
    simp only [Context.resolve]
    rw [h.node id hd]
    cases c'.nodes.find? id with
    | some v => exact .refl _
    | none => exact fun t => ⟨.error (.unresolved _ _ _), rfl⟩
  | system =>
    simp only [Context.resolve]
    rw [h.system hd]
    exact .refl _
  | execution =>
    simp only [Context.resolve]
    rw [h.execution hd]
    exact .refl _
  | environment =>
    simp only [Context.resolve]
    rw [h.environment path hd]
    cases c'.environment.find? path with
    | some v => exact .refl _
    | none => exact fun t => ⟨.error (.unresolved _ _ _), rfl⟩
  | workflow =>
    simp only [Context.resolve]
    rw [h.workflow hd]
    exact .refl _

/-- Scopes of one limit that agree on dependencies do the same at each node that those cover. -/
lemma Agree.node_related (h : d.Agree c c' r r') (limit : Option Quantity) {x : Expr}
    (hx : d.Covers x) : NodeRelated Eval.Alike ⟨c, r, limit⟩ ⟨c', r', limit⟩ x := by
  refine ⟨?_, ?_, ?_⟩
  · intro span source path hxa
    exact h.resolve (hx.reference hxa)
  · intro call hc
    refine ⟨?_, fun _ _ => .refl _⟩
    unfold Scope.function
    rw [h.function call.name (hx.call hc)]
    exact .refl _
  · intro _ _ _ _ _ _
    exact .refl _

end

lemma relates_alike (c c' : Context) (r r' : Registry) (limit : Option Quantity) :
    Relates Eval.Alike ⟨c, r, limit⟩ ⟨c', r', limit⟩ where
  pure _ := .refl _
  bind := .bind
  -- the count goes by the limit alone
  count _ := .refl _
  value _ := .refl _
  division _ := .refl _

/-- Evaluation depends only on the dependencies of its expression, and rendering only on those of its
template, also where it fails. -/
theorem noninterference (c c' : Context) (r r' : Registry) :
    (∀ (e : Expr) (limit : Option Quantity) (t : Trace), (of [e]).Agree c c' r r' →
      Run.Alike ((e.eval ⟨c, r, limit⟩).runFrom t) ((e.eval ⟨c', r', limit⟩).runFrom t)) ∧
    ∀ t : Template, t.dependencies.Agree c c' r r' →
      Run.Alike (({ t with functions := r }.render c).runFrom {})
        (({ t with functions := r' }.render c').runFrom {}) := by
  constructor
  · intro e limit t h
    apply Expr.eval_related (relates_alike c c' r r' limit)
    intro x hx
    apply h.node_related
    apply covers_of
    rwa [List.flatMap_singleton]
  · intro t h
    apply Template.render_related (relates_alike c c' r r' t.limits.operations) t
    intro x hx
    exact h.node_related _ (covers_of hx)

theorem noninterference_missing :
    let e : Expr := .binary ⟨0, 21⟩ .add (.access ⟨0, 8⟩ .input "a") (.access ⟨11, 21⟩ (.node "z") "")
    let c : Context := ⟨some (.object [("a", .null), ("b", .null)]), [("x", .null)], [], [], [], []⟩
    let c' : Context := ⟨some (.object [("a", .null)]), [("y", .null)], [], [], [], []⟩
    (of [e]).Agree c c' .empty .unbound ∧
    (e.eval ⟨c, .empty, none⟩).runFrom {} =
      (.error (.unresolved ⟨"$node('z')", ["$node('x')"]⟩), ⟨3, []⟩) ∧
    (e.eval ⟨c', .unbound, none⟩).runFrom {} =
      (.error (.unresolved ⟨"$node('z')", ["$node('y')"]⟩), ⟨3, []⟩) ∧
    Run.Alike ((e.eval ⟨c, .empty, none⟩).runFrom {}) ((e.eval ⟨c', .unbound, none⟩).runFrom {}) := by
  intro e c c'
  have h : (of [e]).Agree c c' .empty .unbound := by
    constructor
    · exact fun _ => rfl
    · exact List.forall_mem_singleton.2 rfl
    · exact List.forall_mem_singleton.2 rfl
    · exact nofun
    · exact nofun
    · nofun
    · nofun
    · nofun
  exact ⟨h, rfl, rfl, (noninterference c c' .empty .unbound).1 e none {} h⟩

end Dependencies

end Stencil
