import Stencil.Proofs.Eval.Run
import Stencil.Proofs.Expr.Nodes
import Stencil.Proofs.Validation.Issues

/-!
# Relations between evaluations

A relation that sequencing respects, and that holds of the steps of single nodes, holds of whole
evaluations. Main statements: `Expr.eval_related_steps`, `Expr.eval_related` and
`Template.render_related`. What a node does itself is to count, to look up a reference or the functions
that it calls, and to apply an operator.
-/

namespace Stencil

/-- A relation between evaluations, such as between those in two scopes. -/
abbrev Eval.Relation := ∀ ⦃α : Type⦄, Eval α → Eval α → Prop

/-- The relation respects sequences, where the second parts need to be related only for what the
first parts yield, and relates what looks at no scope to itself. -/
structure Sequential (R : Eval.Relation) : Prop where
  pure {α : Type} (a : α) : R (pure a) (pure a)
  bind {α β : Type} {m m' : Eval α} {f f' : α → Eval β} :
    R m m' → (∀ a, m.Yields a ∨ m'.Yields a → R (f a) (f' a)) → R (m >>= f) (m' >>= f')
  value {α : Type} (result : Except ValueFault α) :
    R (Eval.lift .value result) (Eval.lift .value result)

/-- The relation respects sequences and relates two scopes in what every expression may do, wherever
it stands. -/
structure Relates (R : Eval.Relation) (s s' : Scope) : Prop extends Sequential R where
  count (offset : Nat) : R (s.count offset) (s'.count offset)
  division {α : Type} (span : Span) :
    R (throw (.divisionByZero span) : Eval α) (throw (.divisionByZero span))

/-- The relation relates two scopes in a call: in the look-up of its function, and in the function
itself on as many arguments as the call has. -/
structure CallRelated (R : Eval.Relation) (s s' : Scope) (call : CallSite) : Prop where
  function : R (s.function call.name call.span) (s'.function call.name call.span)
  invoke {f : Registration} {args : List Value} :
    s.functions.find? call.name = some f ∨ s'.functions.find? call.name = some f →
    args.length = call.args → R (f.invoke args call.span) (f.invoke args call.span)

/-- The relation relates two scopes in what a node does itself. -/
structure NodeRelated (R : Eval.Relation) (s s' : Scope) (x : Expr) : Prop where
  reference {span : Span} {source : DataSource} {path : Text} :
    x = .access span source path →
    R (Eval.lift .unresolved (s.context.resolve source path))
      (Eval.lift .unresolved (s'.context.resolve source path))
  call {call : CallSite} : call ∈ x.callSites → CallRelated R s s' call
  operator {span : Span} {op : BinaryOp} {left right : Expr} :
    x = .binary span op left right → op.isSupported = false →
    R (throw (.unsupported op span) : Eval Value) (throw (.unsupported op span))

/-- The relation relates two scopes in all that a node does itself, with the places where it stands:
its own place when it counts, and that of its right operand when it divides. -/
structure StepRelated (R : Eval.Relation) (s s' : Scope) (x : Expr) : Prop extends
    NodeRelated R s s' x where
  count : R (s.count x.span.start) (s'.count x.span.start)
  division {α : Type} {span : Span} {left right : Expr} :
    x = .binary span .divide left right →
    R (throw (.divisionByZero right.span) : Eval α) (throw (.divisionByZero right.span))

/-- Evaluations that are the same are related, in scopes whose limits count the same. -/
lemma relates_of_effective {s s' : Scope} (h : effective s.maxOperations = effective s'.maxOperations) :
    Relates (fun _ m m' => m = m') s s' where
  pure _ := rfl
  bind {_ _ m m' f f'} hm hf := by
    subst hm
    apply Eval.ext
    intro t
    rw [Eval.runFrom_bind, Eval.runFrom_bind]
    split
    · next a t' ha => rw [hf a (.inl ⟨t, t', ha⟩)]
    · rfl
  count _ := by
    apply Eval.ext
    intro t
    rw [Scope.runFrom_count, Scope.runFrom_count, h]
  value _ := rfl
  division _ := rfl

/-- Sequencing respects what is said of all faults, if it holds of those over values. -/
lemma sequential_failsOnly {P : EvalFault → Prop} (hvalue : ∀ fault, P (.value fault)) :
    Sequential (fun _ m _ => m.FailsOnly P) where
  pure := .pure
  bind hm hf := hm.bind fun a ha => hf a (.inl ha)
  value _ := .lift fun fault _ => hvalue fault

/-- What is said of the faults of the single steps of a node is said of its steps. -/
lemma step_failsOnly {P : EvalFault → Prop} {s : Scope} {x : Expr}
    (hcount : (s.count x.span.start).FailsOnly P) (hunresolved : ∀ miss, P (.unresolved miss))
    (hreported : ∀ d, P (.reported d))
    (hfunction : ∀ call ∈ x.callSites, P (.unknownFunction call.name call.span))
    (harguments : ∀ call ∈ x.callSites, ∀ name fault, P (.arguments name fault call.span))
    (hfailed : ∀ call ∈ x.callSites, ∀ name failure args, P (.failed name failure args call.span))
    (hoperator : ∀ op, P (.unsupported op x.span))
    (hdivision : ∀ span left right, x = .binary span .divide left right →
      P (.divisionByZero right.span)) :
    StepRelated (fun _ m _ => m.FailsOnly P) s s x where
  count := hcount
  reference _ := .lift fun miss _ => hunresolved miss
  call {call} hcall := by
    refine ⟨s.function_failsOnly (hfunction call hcall), ?_⟩
    intro f args _ _
    exact f.invoke_failsOnly (fun fault _ => harguments call hcall f.name fault) hreported
      (hfailed call hcall f.name)
  operator hx _ := by
    subst hx
    exact .throw (hoperator _)
  division hx := .throw (hdivision _ _ _ hx)

/-- Sequencing respects what is said of all faults, if it holds of those that any expression may end
in. -/
lemma relates_failsOnly {P : EvalFault → Prop} (s : Scope)
    (hexhausted : ∀ offset, P (.exhausted offset)) (hvalue : ∀ fault, P (.value fault))
    (hdivision : ∀ span, P (.divisionByZero span)) :
    Relates (fun _ m _ => m.FailsOnly P) s s where
  toSequential := sequential_failsOnly hvalue
  count offset := s.count_failsOnly (hexhausted offset)
  division span := .throw (hdivision span)

section

variable {R : Eval.Relation} {s s' : Scope}

lemma UnaryOp.apply_related (hR : Sequential R) (op : UnaryOp) (v : Value) :
    R (op.apply v) (op.apply v) := by
  cases op with
  | not => exact hR.pure _
  | negate =>
    apply hR.bind (hR.value _)
    intro x _
    exact hR.pure _

/-- A pair of numbers is taken from two values, and then something is done with it. -/
lemma Sequential.operands (hR : Sequential R) (a b : Value) {f : Number → Number → Eval Value}
    (hf : ∀ x y, R (f x y) (f x y)) :
    R (do let x ← a.operand; let y ← b.operand; f x y)
      (do let x ← a.operand; let y ← b.operand; f x y) := by
  apply hR.bind (hR.value _)
  intro x _
  apply hR.bind (hR.value _)
  intro y _
  exact hf x y

lemma BinaryOp.plus_related (hR : Sequential R) (a b : Value) : R (plus a b) (plus a b) := by
  unfold plus
  split
  · exact hR.pure _
  · apply hR.bind (hR.value _)
    intro s _
    apply hR.bind (hR.value _)
    intro t _
    exact hR.pure _

lemma BinaryOp.apply_related (hR : Sequential R) {op : BinaryOp} {span right : Span}
    (hop : op.isSupported = false →
      R (throw (.unsupported op span) : Eval Value) (throw (.unsupported op span)))
    (hdivision : op = .divide →
      R (throw (.divisionByZero right) : Eval PUnit) (throw (.divisionByZero right)))
    (a b : Value) : R (op.apply a b span right) (op.apply a b span right) := by
  cases op with
  | add => exact plus_related hR a b
  | subtract => exact hR.operands a b fun _ _ => hR.pure _
  | multiply => exact hR.operands a b fun _ _ => hR.pure _
  | divide =>
    apply hR.operands a b
    intro x y
    split
    · apply hR.bind (hdivision rfl)
      intro _ _
      exact hR.pure _
    · exact hR.pure _
  | equal => exact hR.pure _
  | notEqual => exact hR.pure _
  | less => exact hR.operands a b fun _ _ => hR.pure _
  | and => exact hR.pure _
  | or => exact hR.pure _
  | modulo => exact hop rfl
  | lessEqual => exact hop rfl
  | greater => exact hop rfl
  | greaterEqual => exact hop rfl
  | contains => exact hop rfl
  | startsWith => exact hop rfl
  | endsWith => exact hop rfl

namespace Expr

lemma evalAll_related (hR : Sequential R) {es : List Expr}
    (h : ∀ e ∈ es, R (e.eval s) (e.eval s')) : R (evalAll s es) (evalAll s' es) := by
  induction es with
  | nil =>
    rw [evalAll, evalAll]
    exact hR.pure []
  | cons e rest ih =>
    obtain ⟨he, hrest⟩ := List.forall_mem_cons.1 h
    rw [evalAll, evalAll]
    apply hR.bind he
    intro v _
    apply hR.bind (ih hrest)
    intro more _
    exact hR.pure _

/-- A call: its function is looked up, then its arguments are evaluated, then it is invoked on them,
after `given`. -/
lemma call_related (hR : Sequential R) {call : CallSite} (hcall : CallRelated R s s' call)
    {given : List Value} {args : List Expr} (hlen : given.length + args.length = call.args)
    (h : ∀ e ∈ args, R (e.eval s) (e.eval s')) :
    R (do
        let f ← s.function call.name call.span
        let values ← evalAll s args
        f.invoke (given ++ values) call.span)
      (do
        let f ← s'.function call.name call.span
        let values ← evalAll s' args
        f.invoke (given ++ values) call.span) := by
  apply hR.bind hcall.function
  intro f hf
  apply hR.bind (evalAll_related hR h)
  intro values hvalues
  apply hcall.invoke (hf.imp Scope.find?_of_yields Scope.find?_of_yields)
  have : values.length = args.length := hvalues.elim length_of_yields length_of_yields
  rw [List.length_append, this, hlen]

lemma evalStages_related (hR : Sequential R) {stages : List Stage} {v : Value}
    (hcall : ∀ stage ∈ stages,
      CallRelated R s s' ⟨stage.name, stage.args.length + 1, stage.span⟩)
    (h : ∀ e ∈ stages.flatMap Stage.args, R (e.eval s) (e.eval s')) :
    R (evalStages s v stages) (evalStages s' v stages) := by
  induction stages generalizing v with
  | nil =>
    rw [evalStages, evalStages]
    exact hR.pure v
  | cons stage rest ih =>
    obtain ⟨span, name, args⟩ := stage
    obtain ⟨hstage, hrest⟩ := List.forall_mem_cons.1 hcall
    rw [List.flatMap_cons] at h
    obtain ⟨hargs, hmore⟩ := List.forall_mem_append.1 h
    have hlen : [v].length + args.length = args.length + 1 := Nat.add_comm ..
    have hinvoke := call_related hR hstage hlen hargs
    rw [evalStages, evalStages]
    have := hR.bind hinvoke fun v _ => ih hrest hmore (v := v)
    simp only [bind_assoc] at this
    exact this

/-- Evaluations of an expression in two scopes are related if the scopes are, in the steps of each
node. -/
theorem eval_related_steps (hR : Sequential R) (s s' : Scope) (e : Expr)
    (h : ∀ x ∈ e.nodes, StepRelated R s s' x) : R (e.eval s) (e.eval s') := by
  induction e using induct_children with
  | step e ih =>
    have self := h e (self_mem_nodes e)
    have parts : ∀ c ∈ e.children, R (c.eval s) (c.eval s') := by
      intro c hc
      apply ih c hc
      intro x hx
      exact h x (mem_nodes_of_child hc hx)
    clear h ih
    cases e with
    | literal span value raw =>
      rw [eval, eval]
      apply hR.bind self.count
      intro _ _
      exact hR.pure _
    | access span source path =>
      rw [eval, eval]
      apply hR.bind self.count
      intro _ _
      exact self.reference rfl
    | call span name args =>
      rw [eval, eval]
      apply hR.bind self.count
      intro _ _
      have hcall : CallRelated R s s' ⟨name, args.length, span⟩ :=
        self.call (List.mem_singleton.2 rfl)
      have hlen : ([] : List Value).length + args.length = args.length := Nat.zero_add _
      have hinvoke := call_related hR hcall hlen parts
      exact hinvoke
    | pipeline span input stages =>
      obtain ⟨hinput, hargs⟩ := List.forall_mem_cons.1 parts
      rw [eval, eval]
      apply hR.bind self.count
      intro _ _
      apply hR.bind hinput
      intro v _
      apply evalStages_related hR _ hargs
      intro stage hstage
      exact self.call (List.mem_map.2 ⟨stage, hstage, rfl⟩)
    | binary span op left right =>
      rw [eval, eval]
      apply hR.bind self.count
      intro _ _
      apply hR.bind (parts left (by simp [children]))
      intro a _
      apply hR.bind (parts right (by simp [children]))
      intro b _
      apply BinaryOp.apply_related hR (self.operator rfl)
      rintro rfl
      exact self.division rfl
    | unary span op operand =>
      rw [eval, eval]
      apply hR.bind self.count
      intro _ _
      apply hR.bind (parts operand (by simp [children]))
      intro v _
      exact UnaryOp.apply_related hR op v
    | ternary span condition consequent alternate =>
      rw [eval, eval]
      apply hR.bind self.count
      intro _ _
      apply hR.bind (parts condition (by simp [children]))
      intro c _
      split
      · exact parts consequent (by simp [children])
      · exact parts alternate (by simp [children])
    | conditional span condition consequent alternate =>
      cases alternate with
      | none =>
        rw [eval, eval]
        apply hR.bind self.count
        intro _ _
        apply hR.bind (parts condition (by simp [children]))
        intro c _
        split
        · exact parts consequent (by simp [children])
        · exact hR.pure _
      | some alternate =>
        rw [eval, eval]
        apply hR.bind self.count
        intro _ _
        apply hR.bind (parts condition (by simp [children]))
        intro c _
        split
        · exact parts consequent (by simp [children])
        · exact parts alternate (by simp [children])

/-- Evaluations of an expression in two scopes are related if the scopes are, at each node. -/
theorem eval_related (hR : Relates R s s') (e : Expr) (h : ∀ x ∈ e.nodes, NodeRelated R s s' x) :
    R (e.eval s) (e.eval s') := by
  apply eval_related_steps hR.toSequential s s'
  intro x hx
  exact ⟨h x hx, hR.count _, fun _ => hR.division _⟩

end Expr

namespace Template

lemma renderAll_related (hR : Sequential R) (s s' : Scope) (els : List Element)
    (h : ∀ e ∈ els.filterMap Element.expr?, R (e.eval s) (e.eval s')) :
    R (renderAll s els) (renderAll s' els) := by
  induction els with
  | nil =>
    rw [renderAll, renderAll]
    exact hR.pure []
  | cons el rest ih =>
    have hel : R (renderElement s el) (renderElement s' el) := by
      cases el with
      | text value => exact hR.pure value
      | expression source expr span =>
        apply hR.bind (h expr (by simp [Element.expr?]))
        intro v _
        exact hR.value _
    have hrest : ∀ e ∈ rest.filterMap Element.expr?, R (e.eval s) (e.eval s') := by
      intro e he
      apply h
      rw [List.mem_filterMap] at he ⊢
      obtain ⟨a, ha, hae⟩ := he
      exact ⟨a, List.mem_cons_of_mem _ ha, hae⟩
    rw [renderAll, renderAll]
    apply hR.bind hel
    intro head _
    apply hR.bind (ih hrest)
    intro tail _
    exact hR.pure _

/-- Renderings of the same elements in two scopes are related if the scopes are, at each node. -/
theorem render_related (hR : Relates R s s') (t : Template)
    (h : ∀ x ∈ t.nodes, NodeRelated R s s' x) :
    R (renderAll s t.elements) (renderAll s' t.elements) := by
  apply renderAll_related hR.toSequential s s'
  intro e he
  apply Expr.eval_related hR
  intro x hx
  exact h x (List.mem_flatMap.2 ⟨e, he, hx⟩)

end Template

end

end Stencil
