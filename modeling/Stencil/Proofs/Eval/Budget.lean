import Mathlib.Data.List.Infix
import Stencil.Eval.Report
import Stencil.Proofs.Eval.Relation
import Stencil.Proofs.Number.Quantity

/-!
# The budget of operations

A limit on operations cuts a run exactly where it is exceeded and changes nothing else. Main
statement: `Run.budget`. Every evaluation under the limit is related to the one without by `Eval.Cut`,
which sequencing respects because traces only grow.
-/

namespace Stencil

/-- The evaluation `m` is `m₀` cut at a limit: while the trace that `m₀` leaves is within the limit the
runs are the same, and otherwise `m` stops one operation after the limit, having made some of the
calls of `m₀`. -/
structure Eval.Cut (limit : Quantity) {α : Type} (m m₀ : Eval α) : Prop where
  operations (t : Trace) : t.operations ≤ (m₀.runFrom t).2.operations
  calls (t : Trace) : t.calls <+: (m₀.runFrom t).2.calls
  same {t : Trace} :
    limit.lt (m₀.runFrom t).2.operations = false → m.runFrom t = m₀.runFrom t
  stops {t : Trace} :
    limit.lt t.operations = false → limit.lt (m₀.runFrom t).2.operations →
    ∃ offset t', m.runFrom t = (.error (.exhausted offset), t') ∧
      t'.operations = limit.times + 1 ∧ t'.calls <+: (m₀.runFrom t).2.calls

namespace Eval.Cut

variable {limit : Quantity} {α β : Type}

/-- What counts no operation is the same under the limit. -/
lemma uncounted {m : Eval α} (hops : ∀ t, (m.runFrom t).2.operations = t.operations)
    (hcalls : ∀ t, t.calls <+: (m.runFrom t).2.calls) : Cut limit m m where
  operations t := Nat.le_of_eq (hops t).symm
  calls := hcalls
  same _ := rfl
  stops {t} h hlt := by
    rw [hops, h] at hlt
    cases hlt

/-- What leaves the trace as it is is the same under the limit. -/
lemma still {m : Eval α} (h : ∀ t, (m.runFrom t).2 = t) : Cut limit m m := by
  apply uncounted
  · intro t
    rw [h]
  · intro t
    rw [h]

lemma bind {m m₀ : Eval α} {f f₀ : α → Eval β} (h : Cut limit m m₀)
    (hf : ∀ a, m.Yields a ∨ m₀.Yields a → Cut limit (f a) (f₀ a)) :
    Cut limit (m >>= f) (m₀ >>= f₀) := by
  have next {t t₁ : Trace} {a : α} (hm : m₀.runFrom t = (.ok a, t₁)) : Cut limit (f a) (f₀ a) :=
    hf a (.inr ⟨t, t₁, hm⟩)
  refine ⟨?_, ?_, ?_, ?_⟩
  · intro t
    have hgrow := h.operations t
    rw [runFrom_bind]
    rcases hm : m₀.runFrom t with ⟨_ | a, t₁⟩
    · rwa [hm] at hgrow
    · rw [hm] at hgrow
      exact hgrow.trans ((next hm).operations t₁)
  · intro t
    have hgrow := h.calls t
    rw [runFrom_bind]
    rcases hm : m₀.runFrom t with ⟨_ | a, t₁⟩
    · rwa [hm] at hgrow
    · rw [hm] at hgrow
      exact hgrow.trans ((next hm).calls t₁)
  · intro t hend
    rw [runFrom_bind] at hend ⊢
    rw [runFrom_bind]
    rcases hm : m₀.runFrom t with ⟨_ | a, t₁⟩
    · rw [hm] at hend
      rw [h.same (by rwa [hm]), hm]
    · rw [hm] at hend
      have hmid : limit.lt t₁.operations = false := by
        rw [Bool.eq_false_iff] at hend ⊢
        intro hlt
        exact hend (Quantity.lt_mono hlt ((next hm).operations t₁))
      rw [h.same (by rwa [hm]), hm]
      exact (next hm).same hend
  · intro t hstart hend
    rw [runFrom_bind] at hend ⊢
    rw [runFrom_bind]
    rcases hm : m₀.runFrom t with ⟨_ | a, t₁⟩
    · rw [hm] at hend
      obtain ⟨offset, t', hrun, hops, hcalls⟩ := h.stops hstart (by rwa [hm])
      rw [hm] at hcalls
      rw [hrun]
      exact ⟨offset, t', rfl, hops, hcalls⟩
    · rw [hm] at hend
      -- the limit is exceeded in the first part or in the second
      cases hmid : limit.lt t₁.operations with
      | false =>
        rw [h.same (by rwa [hm]), hm]
        exact (next hm).stops hmid hend
      | true =>
        obtain ⟨offset, t', hrun, hops, hcalls⟩ := h.stops hstart (by rwa [hm])
        rw [hm] at hcalls
        rw [hrun]
        exact ⟨offset, t', rfl, hops, hcalls.trans ((next hm).calls t₁)⟩

end Eval.Cut

section

variable {limit : Quantity} (hlimit : (Quantity.whole 0).le limit) (c : Context) (r : Registry)

include hlimit

/-- A limit that some count exceeds is exceeded by the counts above its integer part. -/
lemma Quantity.lt_iff_of_lt {k : Nat} (h : limit.lt k) {n : Nat} :
    limit.lt n ↔ limit.times < n := by
  apply lt_iff_times_lt hlimit
  rintro rfl
  rw [infinite_lt] at h
  cases h

/-- Under the limit the run of a count fails if it is one operation more than allowed. -/
lemma runFrom_count_some (offset : Nat) (t : Trace) :
    (Scope.count ⟨c, r, some limit⟩ offset).runFrom t =
      if limit.lt (t.operations + 1 : Nat) then
        (.error (.exhausted offset), { t with operations := t.operations + 1 })
      else (.ok (), { t with operations := t.operations + 1 }) := by
  rw [Scope.runFrom_count]
  simp only [effective_of_le hlimit]

lemma count_cut (offset : Nat) :
    Eval.Cut limit (Scope.count ⟨c, r, some limit⟩ offset) (Scope.count ⟨c, r, none⟩ offset) := by
  have hfree (t : Trace) : (Scope.count ⟨c, r, none⟩ offset).runFrom t =
      (.ok (), { t with operations := t.operations + 1 }) := rfl
  refine ⟨?_, ?_, ?_, ?_⟩
  · intro t
    rw [hfree]
    exact Nat.le_succ _
  · intro t
    rw [hfree]
  · intro t hend
    rw [hfree] at hend ⊢
    rw [runFrom_count_some hlimit, hend]
    rfl
  · intro t hstart hend
    rw [hfree] at hend ⊢
    have hle := (Quantity.lt_iff_of_lt hlimit hend).1 hend
    rw [Bool.eq_false_iff, Ne, Quantity.lt_iff_of_lt hlimit hend] at hstart
    refine ⟨offset, _, ?_, ?_, List.prefix_rfl⟩
    · rw [runFrom_count_some hlimit, if_pos hend]
    · dsimp only at hle ⊢
      omega

lemma relates_cut : Relates (fun _ => Eval.Cut limit) ⟨c, r, some limit⟩ ⟨c, r, none⟩ where
  pure _ := .still fun _ => rfl
  bind := .bind
  count := count_cut hlimit c r
  value result := .still fun _ => by cases result <;> rfl
  division _ := .still fun _ => rfl

omit hlimit in
lemma node_cut (x : Expr) :
    NodeRelated (fun _ => Eval.Cut limit) ⟨c, r, some limit⟩ ⟨c, r, none⟩ x := by
  refine ⟨?_, ?_, ?_⟩
  · intro _ source path _
    apply Eval.Cut.still
    intro t
    dsimp only
    cases c.resolve source path <;> rfl
  · intro call _
    refine ⟨?_, ?_⟩
    · apply Eval.Cut.still (m := Scope.function ⟨c, r, some limit⟩ call.name call.span)
      intro t
      rw [Scope.runFrom_function]
      split <;> rfl
    · intro f args _ _
      apply Eval.Cut.uncounted
      · intro t
        rw [Registration.runFrom_invoke]
        split <;> rfl
      · intro t
        rw [Registration.runFrom_invoke]
        split
        · exact List.prefix_rfl
        · exact List.prefix_append _ _
  · intro _ _ _ _ _ _
    exact .still fun _ => rfl

end

/-- The run `r` from a trace of `o` operations is the run `r₀` cut at a limit: it is the same if that
is within the limit, and otherwise it fails one operation after the limit, or at once if the limit was
exceeded before. -/
structure Run.Cut {α : Type} (limit : Quantity) (o : Nat) (r r₀ : Except EvalFault α × Trace) :
    Prop where
  same : limit.lt r₀.2.operations = false → r = r₀
  stops : limit.lt r₀.2.operations →
    ∃ offset t, r = (.error (.exhausted offset), t) ∧ t.operations = max o limit.times + 1 ∧
      t.calls <+: r₀.2.calls

/-- The fault of a limit that is exceeded is told as such. -/
lemma EvalFault.diagnostic_exhausted (offset : Nat) (source : Option Text) :
    ((exhausted offset).diagnostic source).category = .limit ∧
      ((exhausted offset).diagnostic source).message = "Maximum evaluation operations exceeded" := by
  cases source <;> exact ⟨rfl, rfl⟩

namespace Run

variable {limit : Quantity}

/-- A run from within the limit is cut at it. -/
lemma cut_of_within (hlimit : (Quantity.whole 0).le limit) {α : Type} {m m₀ : Eval α}
    (h : Eval.Cut limit m m₀) {t : Trace} (ht : limit.lt t.operations = false) :
    Cut limit t.operations (m.runFrom t) (m₀.runFrom t) := by
  refine ⟨h.same, ?_⟩
  intro hend
  obtain ⟨offset, t', hrun, hops, hcalls⟩ := h.stops ht hend
  rw [Bool.eq_false_iff, Ne, Quantity.lt_iff_of_lt hlimit hend] at ht
  refine ⟨offset, t', hrun, ?_, hcalls⟩
  rw [hops, Nat.max_eq_right (Nat.le_of_not_lt ht)]

/-- From beyond the limit an expression fails at its first count. -/
lemma cut_of_beyond (hlimit : (Quantity.whole 0).le limit) (e : Expr) (c : Context) (r : Registry)
    {t : Trace} (ht : limit.lt t.operations) :
    Cut limit t.operations ((e.eval ⟨c, r, some limit⟩).runFrom t)
      ((e.eval ⟨c, r, none⟩).runFrom t) := by
  have hcut : Eval.Cut limit (e.eval ⟨c, r, some limit⟩) (e.eval ⟨c, r, none⟩) :=
    Expr.eval_related (relates_cut hlimit c r) e fun x _ => node_cut c r x
  refine ⟨hcut.same, fun _ => ?_⟩
  obtain ⟨rest, hrest⟩ := e.eval_count ⟨c, r, some limit⟩
  have hnext : limit.lt (t.operations + 1 : Nat) := Quantity.lt_mono ht (Nat.le_succ _)
  have hle := (Quantity.lt_iff_of_lt hlimit ht).1 ht
  refine ⟨e.span.start, { t with operations := t.operations + 1 }, ?_, ?_, hcut.calls t⟩
  · rw [hrest, Eval.runFrom_bind, runFrom_count_some hlimit, if_pos hnext]
  · rw [Nat.max_eq_left (Nat.le_of_lt hle)]

/-- A limit on operations cuts the runs of expressions and of templates exactly where it is exceeded,
and changes nothing else. One count runs through all expressions of a template. -/
theorem budget (hlimit : (Quantity.whole 0).le limit) :
    (∀ (e : Expr) (c : Context) (r : Registry) (t : Trace),
      Cut limit t.operations ((e.eval ⟨c, r, some limit⟩).runFrom t)
        ((e.eval ⟨c, r, none⟩).runFrom t)) ∧
    (∀ (t : Template) (c : Context),
      Cut limit 0
        (({ t with limits := { t.limits with operations := some limit } }.render c).runFrom {})
        (({ t with limits := { t.limits with operations := none } }.render c).runFrom {})) ∧
    ∀ offset source, ((EvalFault.exhausted offset).diagnostic source).category = .limit ∧
      ((EvalFault.exhausted offset).diagnostic source).message =
        "Maximum evaluation operations exceeded" := by
  refine ⟨?_, ?_, EvalFault.diagnostic_exhausted⟩
  · intro e c r t
    cases ht : limit.lt t.operations with
    | true => exact cut_of_beyond hlimit e c r ht
    | false =>
      apply cut_of_within hlimit _ ht
      exact Expr.eval_related (relates_cut hlimit c r) e fun x _ => node_cut c r x
  · intro t c
    have hzero : limit.lt ({} : Trace).operations = false := Quantity.not_lt_of_le hlimit
    apply cut_of_within hlimit _ hzero
    exact Template.render_related (relates_cut hlimit c t.functions) t fun x _ =>
      node_cut c t.functions x

theorem budget_two :
    let e : Expr := .binary ⟨0, 9⟩ .add (.call ⟨0, 3⟩ "f" []) (.call ⟨6, 9⟩ "f" [])
    let r : Registry := ⟨[("f", ⟨"f", fun _ => .ok .null, none⟩)], true, 1⟩
    let c : Context := ⟨none, [], [], [], [], []⟩
    (Quantity.whole 0).le (.whole 2) ∧
    (e.eval ⟨c, r, none⟩).runFrom {} = (.ok (.string "nullnull"), ⟨3, [("f", []), ("f", [])]⟩) ∧
    (e.eval ⟨c, r, some (.whole 2)⟩).runFrom {} = (.error (.exhausted 6), ⟨3, [("f", [])]⟩) ∧
    Cut (.whole 2) 0 ((e.eval ⟨c, r, some (.whole 2)⟩).runFrom {})
      ((e.eval ⟨c, r, none⟩).runFrom {}) := by
  intro e r c
  have hlimit : (Quantity.whole 0).le (.whole 2) := rfl
  exact ⟨hlimit, rfl, rfl, (budget hlimit).1 e c r {}⟩

end Run

end Stencil
