import Mathlib.Tactic.Lemma
import Stencil.Eval.Basic

/-!
# Runs of evaluations

What a run of an evaluation from a trace is, step by step, and which values an evaluation can end
in. Later proofs read evaluations through these laws only.
-/

namespace Stencil

namespace Eval

variable {α β : Type}

@[simp]
lemma runFrom_pure (a : α) (t : Trace) : (pure a : Eval α).runFrom t = (.ok a, t) := rfl

@[simp]
lemma runFrom_throw (fault : EvalFault) (t : Trace) :
    (throw fault : Eval α).runFrom t = (.error fault, t) := rfl

lemma runFrom_bind (m : Eval α) (f : α → Eval β) (t : Trace) :
    (m >>= f).runFrom t =
      match m.runFrom t with
      | (.ok a, t') => (f a).runFrom t'
      | (.error fault, t') => (.error fault, t') := by
  change StateT.run (ExceptT.run (m >>= f)) t = _
  unfold runFrom
  rw [ExceptT.run_bind, StateT.run_bind]
  change (match StateT.run (ExceptT.run m) t with | (a, t') => _) = _
  rcases StateT.run (ExceptT.run m) t with ⟨_ | a, t'⟩ <;> rfl

/-- Evaluations with the same runs are the same. -/
lemma ext {m m' : Eval α} (h : ∀ t, m.runFrom t = m'.runFrom t) : m = m' := funext h

@[simp]
lemma runFrom_lift_ok {ε : Type} (wrap : ε → EvalFault) (a : α) (t : Trace) :
    (lift wrap (.ok a)).runFrom t = (.ok a, t) := rfl

end Eval

lemma Scope.runFrom_count (s : Scope) (offset : Nat) (t : Trace) :
    (s.count offset).runFrom t =
      match effective s.maxOperations with
      | some limit =>
        if limit.lt (t.operations + 1 : Nat) then
          (.error (.exhausted offset), { t with operations := t.operations + 1 })
        else (.ok (), { t with operations := t.operations + 1 })
      | none => (.ok (), { t with operations := t.operations + 1 }) := by
  change Eval.runFrom (match effective s.maxOperations with
      | some limit => if limit.lt (t.operations + 1 : Nat) then throw (.exhausted offset) else pure ()
      | none => pure ()) { t with operations := t.operations + 1 } = _
  cases effective s.maxOperations with
  | none => rfl
  | some limit => dsimp only; split <;> rfl

lemma Scope.runFrom_function (s : Scope) (name : Text) (span : Span) (t : Trace) :
    (s.function name span).runFrom t =
      match s.functions.find? name with
      | some f => (.ok f, t)
      | none => (.error (.unknownFunction name span), t) := by
  unfold function
  cases s.functions.find? name <;> rfl

/-- The outcome of a function on its bound arguments, called at a part of the source. -/
def Registration.outcome (f : Registration) (bound : List Value) (span : Span) :
    Except EvalFault Value :=
  match f.run bound with
  | .ok v => .ok v
  | .error (.diagnostic d) => .error (.reported d)
  | .error failure => .error (.failed f.name failure bound span)

lemma Registration.runFrom_invoke (f : Registration) (args : List Value) (span : Span) (t : Trace) :
    (f.invoke args span).runFrom t =
      match f.bind args with
      | .error fault => (.error (.arguments f.name fault span), t)
      | .ok bound => (f.outcome bound span, { t with calls := t.calls ++ [(f.name, bound)] }) := by
  unfold invoke outcome
  rw [Eval.runFrom_bind]
  cases f.bind args with
  | error fault => rfl
  | ok bound =>
    rw [Eval.runFrom_lift_ok]
    dsimp only
    rw [Eval.runFrom_bind]
    change Eval.runFrom (match f.run bound with | _ => _) _ = _
    rcases f.run bound with (_ | _ | _) | _ <;> rfl

namespace Eval

variable {α β : Type}

/-- The evaluation can end in the value. -/
def Yields (m : Eval α) (a : α) : Prop := ∃ t t', m.runFrom t = (.ok a, t')

lemma yields_pure {a b : α} (h : (pure a : Eval α).Yields b) : b = a := by
  obtain ⟨t, t', h⟩ := h
  rw [runFrom_pure] at h
  cases h
  rfl

/-- A sequence ends in what its second part yields after its first part. -/
lemma Yields.bind {m : Eval α} {f : α → Eval β} {b : β} (h : (m >>= f).Yields b) :
    ∃ a, m.Yields a ∧ (f a).Yields b := by
  obtain ⟨t, t', h⟩ := h
  rw [runFrom_bind] at h
  split at h
  · next a t₁ hm => exact ⟨a, ⟨t, t₁, hm⟩, t₁, t', h⟩
  · cases h

lemma not_yields_throw {fault : EvalFault} {a : α} : ¬ (throw fault : Eval α).Yields a := by
  rintro ⟨t, t', h⟩
  rw [runFrom_throw] at h
  cases h

end Eval

namespace Eval

/-- Every fault that a run of the evaluation can end in has the property. -/
def FailsOnly (P : EvalFault → Prop) {α : Type} (m : Eval α) : Prop :=
  ∀ t fault t', m.runFrom t = (.error fault, t') → P fault

namespace FailsOnly

variable {P : EvalFault → Prop} {α β : Type}

lemma pure (a : α) : (pure a : Eval α).FailsOnly P := by
  intro t fault t' hrun
  rw [runFrom_pure] at hrun
  cases hrun

lemma throw {fault : EvalFault} (h : P fault) : (throw fault : Eval α).FailsOnly P := by
  intro t fault' t' hrun
  rw [runFrom_throw] at hrun
  cases hrun
  exact h

lemma lift {ε : Type} {wrap : ε → EvalFault} {result : Except ε α}
    (h : ∀ e, result = .error e → P (wrap e)) : (Eval.lift wrap result).FailsOnly P := by
  cases result with
  | ok a => exact pure a
  | error e => exact throw (h e rfl)

lemma mono {Q : EvalFault → Prop} {m : Eval α} (h : m.FailsOnly P)
    (hPQ : ∀ fault, P fault → Q fault) : m.FailsOnly Q :=
  fun t fault t' hrun => hPQ fault (h t fault t' hrun)

lemma bind {m : Eval α} {f : α → Eval β} (hm : m.FailsOnly P)
    (hf : ∀ a, m.Yields a → (f a).FailsOnly P) : (m >>= f).FailsOnly P := by
  intro t fault t' hrun
  rw [runFrom_bind] at hrun
  split at hrun
  · next a t₁ ha => exact hf a ⟨t, t₁, ha⟩ t₁ fault t' hrun
  · next fault₁ t₁ hfault =>
    cases hrun
    exact hm t fault t' hfault

end FailsOnly

end Eval

section

variable {P : EvalFault → Prop} {name : Text} {span : Span}

/-- A count fails over the limit only. -/
lemma Scope.count_failsOnly (s : Scope) {offset : Nat} (h : P (.exhausted offset)) :
    (s.count offset).FailsOnly P := by
  intro t fault t' hrun
  rw [runFrom_count] at hrun
  split at hrun
  · split at hrun
    · cases hrun
      exact h
    · cases hrun
  · cases hrun

lemma Scope.function_failsOnly (s : Scope) (h : P (.unknownFunction name span)) :
    (s.function name span).FailsOnly P := by
  unfold function
  split
  · exact .pure _
  · exact .throw h

/-- A call fails over its arguments, or in the function itself. -/
lemma Registration.invoke_failsOnly {f : Registration} {args : List Value}
    (hbind : ∀ fault, f.bind args = .error fault → P (.arguments f.name fault span))
    (hreported : ∀ d, P (.reported d))
    (hfailed : ∀ failure bound, P (.failed f.name failure bound span)) :
    (f.invoke args span).FailsOnly P := by
  intro t fault t' hrun
  rw [runFrom_invoke] at hrun
  cases hb : f.bind args with
  | error bindFault =>
    rw [hb] at hrun
    cases hrun
    exact hbind bindFault hb
  | ok bound =>
    rw [hb] at hrun
    simp only [outcome] at hrun
    split at hrun
    · cases hrun
    · cases hrun
      exact hreported _
    · cases hrun
      exact hfailed _ _

end

/-- The function of a name is the registered one. -/
lemma Scope.find?_of_yields {s : Scope} {name : Text} {span : Span} {f : Registration}
    (h : (s.function name span).Yields f) : s.functions.find? name = some f := by
  obtain ⟨t, t', h⟩ := h
  rw [runFrom_function] at h
  cases hf : s.functions.find? name with
  | none => rw [hf] at h; cases h
  | some g => rw [hf] at h; cases h; rfl

/-- A call that has a value binds its arguments. -/
lemma Registration.bind_of_yields {f : Registration} {args : List Value} {span : Span} {v : Value}
    (h : (f.invoke args span).Yields v) : ∃ bound, f.bind args = .ok bound := by
  obtain ⟨t, t', h⟩ := h
  rw [runFrom_invoke] at h
  cases hb : f.bind args with
  | error fault => rw [hb] at h; cases h
  | ok bound => exact ⟨bound, rfl⟩

/-- Every evaluation begins with a count. -/
lemma Expr.eval_count (e : Expr) (s : Scope) :
    ∃ rest, e.eval s = s.count e.span.start >>= fun _ => rest := by
  cases e with
  | conditional _ _ _ alternate =>
    cases alternate with
    | none => exact ⟨_, by rw [eval]; rfl⟩
    | some => exact ⟨_, by rw [eval]; rfl⟩
  | _ => exact ⟨_, by rw [eval]; rfl⟩

/-- Expressions have one value each. -/
lemma Expr.length_of_yields {s : Scope} {es : List Expr} {vs : List Value}
    (h : (evalAll s es).Yields vs) : vs.length = es.length := by
  induction es generalizing vs with
  | nil =>
    rw [evalAll] at h
    rw [Eval.yields_pure h]
    rfl
  | cons e rest ih =>
    rw [evalAll] at h
    obtain ⟨v, -, h⟩ := h.bind
    obtain ⟨more, hmore, h⟩ := h.bind
    rw [Eval.yields_pure h, List.length_cons, List.length_cons, ih hmore]

end Stencil
