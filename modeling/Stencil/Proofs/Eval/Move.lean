import Stencil.Proofs.Eval.Relation
import Stencil.Proofs.Grammar.Move

/-!
# Evaluation in another place

What an expression evaluates to does not depend on where it stands, nor on what was evaluated
before. Main statements: `Expr.eval_move` says that moving an expression moves the faults that it
can end in and changes nothing else, and `Template.renderAll_additive` that without a limit on
operations a rendering only adds to the trace it begins with.
-/

namespace Stencil

/-- The fault with the offset and the span it tells moved. A diagnostic of a function has no place
in the source. -/
def EvalFault.move (f : Nat → Nat) : EvalFault → EvalFault
  | .exhausted offset => .exhausted (f offset)
  | .unresolved miss => .unresolved miss
  | .unknownFunction name span => .unknownFunction name (span.move f)
  | .arguments name fault span => .arguments name fault (span.move f)
  | .value fault => .value fault
  | .unsupported op span => .unsupported op (span.move f)
  | .divisionByZero span => .divisionByZero (span.move f)
  | .reported d => .reported d
  | .failed name failure args span => .failed name failure args (span.move f)

namespace Eval

variable {α β : Type} {g : EvalFault → EvalFault}

/-- The evaluation with a map applied to its fault. -/
def mapFault (g : EvalFault → EvalFault) (m : Eval α) : Eval α := ExceptT.adapt g m

lemma runFrom_mapFault (m : Eval α) (t : Trace) :
    (m.mapFault g).runFrom t = ((m.runFrom t).1.mapError g, (m.runFrom t).2) := rfl

@[simp]
lemma mapFault_pure (a : α) : (pure a : Eval α).mapFault g = pure a := rfl

@[simp]
lemma mapFault_throw (fault : EvalFault) :
    (throw fault : Eval α).mapFault g = throw (g fault) := rfl

@[simp]
lemma mapFault_bind (m : Eval α) (f : α → Eval β) :
    (m >>= f).mapFault g = m.mapFault g >>= fun a => (f a).mapFault g := by
  apply ext
  intro t
  rw [runFrom_mapFault, runFrom_bind, runFrom_bind, runFrom_mapFault]
  rcases m.runFrom t with ⟨_ | a, t'⟩ <;> rfl

@[simp]
lemma mapFault_lift {ε : Type} (wrap : ε → EvalFault) (result : Except ε α) :
    (lift wrap result).mapFault g = lift (g ∘ wrap) result := by
  cases result <;> rfl

@[simp]
lemma mapFault_ite {p : Prop} [Decidable p] (m m' : Eval α) :
    (if p then m else m').mapFault g = if p then m.mapFault g else m'.mapFault g :=
  apply_ite (mapFault g) p m m'

end Eval

section

variable {f : Nat → Nat} (s : Scope)

lemma Scope.count_move (span : Span) :
    s.count (span.move f).start = (s.count span.start).mapFault (.move f) := by
  apply Eval.ext
  intro t
  rw [Eval.runFrom_mapFault, runFrom_count, runFrom_count]
  split
  · split <;> rfl
  · rfl

lemma Scope.function_move (name : Text) (span : Span) :
    s.function name (span.move f) = (s.function name span).mapFault (.move f) := by
  unfold function
  cases s.functions.find? name <;> rfl

lemma Registration.outcome_move (r : Registration) (bound : List Value) (span : Span) :
    r.outcome bound (span.move f) = (r.outcome bound span).mapError (.move f) := by
  unfold outcome
  rcases r.run bound with (_ | _ | _) | _ <;> rfl

lemma Registration.invoke_move (r : Registration) (args : List Value) (span : Span) :
    r.invoke args (span.move f) = (r.invoke args span).mapFault (.move f) := by
  apply Eval.ext
  intro t
  rw [Eval.runFrom_mapFault, runFrom_invoke, runFrom_invoke]
  cases r.bind args with
  | error fault => rfl
  | ok bound => exact congrArg (·, _) (r.outcome_move bound span)

lemma Value.operand_move (v : Value) : v.operand.mapFault (.move f) = v.operand :=
  Eval.mapFault_lift _ _

lemma UnaryOp.apply_move (op : UnaryOp) (v : Value) :
    (op.apply v).mapFault (.move f) = op.apply v := by
  cases op with
  | not => rfl
  | negate => simp only [apply, Eval.mapFault_bind, Eval.mapFault_pure, Value.operand_move]

lemma BinaryOp.plus_move (a b : Value) : (plus a b).mapFault (.move f) = plus a b := by
  unfold plus
  split
  · rfl
  · simp only [Eval.mapFault_bind, Eval.mapFault_lift, Eval.mapFault_pure]
    rfl

lemma BinaryOp.apply_move (op : BinaryOp) (a b : Value) (span right : Span) :
    op.apply a b (span.move f) (right.move f) = (op.apply a b span right).mapFault (.move f) := by
  cases op with
  | add => exact (plus_move a b).symm
  | divide =>
    simp only [apply, Eval.mapFault_bind, Value.operand_move]
    refine bind_congr fun x => bind_congr fun y => ?_
    split <;> rfl
  | subtract | multiply | less =>
    simp only [apply, Eval.mapFault_bind, Eval.mapFault_pure, Value.operand_move]
  | _ => rfl

end

namespace Expr

variable {f : Nat → Nat} {s : Scope}

lemma evalAll_move {es : List Expr}
    (h : ∀ e ∈ es, (e.move f).eval s = (e.eval s).mapFault (.move f)) :
    evalAll s (moveAll f es) = (evalAll s es).mapFault (.move f) := by
  induction es with
  | nil => rfl
  | cons e rest ih =>
    obtain ⟨he, hrest⟩ := List.forall_mem_cons.1 h
    rw [moveAll, evalAll, evalAll, he, ih hrest]
    simp only [Eval.mapFault_bind, Eval.mapFault_pure]

lemma evalStages_move {stages : List Stage} {v : Value}
    (h : ∀ e ∈ stages.flatMap Stage.args,
      (e.move f).eval s = (e.eval s).mapFault (.move f)) :
    evalStages s v (moveStages f stages) = (evalStages s v stages).mapFault (.move f) := by
  induction stages generalizing v with
  | nil => rfl
  | cons stage rest ih =>
    obtain ⟨span, name, args⟩ := stage
    rw [List.flatMap_cons] at h
    obtain ⟨hargs, hrest⟩ := List.forall_mem_append.1 h
    have hextra : evalAll s (moveAll f args) = (evalAll s args).mapFault (.move f) :=
      evalAll_move hargs
    rw [moveStages, evalStages, evalStages, hextra]
    simp only [Eval.mapFault_bind, Scope.function_move, Registration.invoke_move, ih hrest]

/-- A moved expression evaluates as before, with its faults moved along. -/
theorem eval_move (e : Expr) : (e.move f).eval s = (e.eval s).mapFault (.move f) := by
  induction e using induct_children with
  | step e ih =>
    cases e with
    | literal span value raw =>
      rw [move, eval, eval, Scope.count_move]
      simp only [Eval.mapFault_bind, Eval.mapFault_pure]
    | access span source path =>
      rw [move, eval, eval, Scope.count_move]
      simp only [Eval.mapFault_bind, Eval.mapFault_lift]
      rfl
    | call span name args =>
      have hargs : evalAll s (moveAll f args) = (evalAll s args).mapFault (.move f) :=
        evalAll_move ih
      rw [move, eval, eval, Scope.count_move, Scope.function_move, hargs]
      simp only [Eval.mapFault_bind, Registration.invoke_move]
    | pipeline span input stages =>
      obtain ⟨hinput, hargs⟩ := List.forall_mem_cons.1 ih
      rw [move, eval, eval, Scope.count_move, hinput]
      simp only [Eval.mapFault_bind, evalStages_move hargs]
    | binary span op left right =>
      have hleft := ih left (by simp [children])
      have hright := ih right (by simp [children])
      rw [move, eval, eval, Scope.count_move, hleft, hright, span_move]
      simp only [Eval.mapFault_bind, BinaryOp.apply_move]
    | unary span op operand =>
      have hoperand := ih operand (by simp [children])
      rw [move, eval, eval, Scope.count_move, hoperand]
      simp only [Eval.mapFault_bind, UnaryOp.apply_move]
    | ternary span condition consequent alternate =>
      have hcondition := ih condition (by simp [children])
      have hconsequent := ih consequent (by simp [children])
      have halternate := ih alternate (by simp [children])
      rw [move, eval, eval, Scope.count_move, hcondition, hconsequent, halternate]
      simp only [Eval.mapFault_bind, Eval.mapFault_ite]
    | conditional span condition consequent alternate =>
      have hcondition := ih condition (by simp [children])
      have hconsequent := ih consequent (by simp [children])
      cases alternate with
      | none =>
        rw [move, eval, eval, Scope.count_move, hcondition, hconsequent]
        simp only [Eval.mapFault_bind, Eval.mapFault_ite, Eval.mapFault_pure]
      | some alternate =>
        have halternate := ih alternate (by simp [children])
        rw [move, eval, eval, Scope.count_move, hcondition, hconsequent, halternate]
        simp only [Eval.mapFault_bind, Eval.mapFault_ite]

end Expr

namespace Template

variable {f : Nat → Nat} {s : Scope}

/-- Moved elements render as before, with their faults moved along. -/
lemma renderAll_move (els : List Element) :
    renderAll s (els.map (Element.move f)) = (renderAll s els).mapFault (.move f) := by
  induction els with
  | nil => rfl
  | cons el rest ih =>
    have hel : renderElement s (el.move f) = (renderElement s el).mapFault (.move f) := by
      cases el with
      | text value => rfl
      | expression source expr span =>
        rw [Element.move, renderElement, renderElement, Expr.eval_move]
        simp only [Eval.mapFault_bind, Eval.mapFault_lift]
        rfl
    rw [List.map_cons, renderAll, renderAll, hel, ih]
    simp only [Eval.mapFault_bind, Eval.mapFault_pure]

end Template

/-- What was done first, and then what was done after it. -/
def Trace.append (t t' : Trace) : Trace := ⟨t.operations + t'.operations, t.calls ++ t'.calls⟩

@[simp]
lemma Trace.append_empty (t : Trace) : t.append {} = t := by
  rw [append, List.append_nil]
  rfl

lemma Trace.append_assoc (t t' t'' : Trace) :
    (t.append t').append t'' = t.append (t'.append t'') := by
  simp only [append, Nat.add_assoc, List.append_assoc]

/-- A run from any trace has the outcome of the run from the empty trace, and adds to the trace what
that run leaves. -/
def Eval.Additive {α : Type} (m : Eval α) : Prop :=
  ∀ t, m.runFrom t = ((m.runFrom {}).1, t.append (m.runFrom {}).2)

namespace Eval.Additive

variable {α β : Type}

/-- What leaves the trace as it is adds nothing to it. -/
lemma still {m : Eval α} {r : Except EvalFault α} (h : ∀ t, m.runFrom t = (r, t)) :
    m.Additive := by
  intro t
  rw [h, h, Trace.append_empty]

lemma bind {m : Eval α} {f : α → Eval β} (h : m.Additive)
    (hf : ∀ a, m.Yields a → (f a).Additive) : (m >>= f).Additive := by
  intro t
  rw [runFrom_bind, runFrom_bind, h t]
  rcases hm : m.runFrom {} with ⟨_ | a, t'⟩
  · rfl
  -- the second part begins with what the first one adds, once after `t` and once alone
  · have hnext := hf a ⟨{}, t', hm⟩
    dsimp only
    rw [hnext (t.append t'), hnext t', Trace.append_assoc]

end Eval.Additive

section

variable {s : Scope} (hs : effective s.maxOperations = none)

include hs

lemma relates_additive : Relates (fun _ m _ => m.Additive) s s where
  pure _ := .still fun _ => rfl
  bind h hf := h.bind fun a ha => hf a (.inl ha)
  count offset := by
    intro t
    rw [Scope.runFrom_count, Scope.runFrom_count, hs]
    dsimp only
    rw [Trace.append, List.append_nil]
  value result := by cases result <;> exact .still fun _ => rfl
  division _ := .still fun _ => rfl

omit hs in
lemma node_additive (x : Expr) : NodeRelated (fun _ m _ => m.Additive) s s x := by
  refine ⟨?_, ?_, ?_⟩
  · intro _ source path _
    cases s.context.resolve source path <;> exact .still fun _ => rfl
  · intro call _
    refine ⟨?_, ?_⟩
    · unfold Scope.function
      cases s.functions.find? call.name <;> exact .still fun _ => rfl
    · intro f args _ _ t
      rw [Registration.runFrom_invoke, Registration.runFrom_invoke]
      split
      · rw [Trace.append_empty]
      · rfl
  · intro _ _ _ _ _ _
    exact .still fun _ => rfl

/-- Without a limit on operations a rendering only adds to the trace. -/
theorem Template.renderAll_additive (els : List Element) : (renderAll s els).Additive := by
  apply renderAll_related (relates_additive hs).toSequential s s
  intro e _
  exact Expr.eval_related (relates_additive hs) e fun x _ => node_additive x

end

end Stencil
