import Stencil.Proofs.Eval.Budget
import Stencil.Proofs.Eval.Report
import Stencil.Proofs.Expr.Analysis

/-!
# The cost of an evaluation

An evaluation counts no node twice, and without branches it counts every node. Main statement:
`Run.nodes_bound`: the number of nodes bounds the operations of every run, so a limit on operations
is never exceeded by a template whose nodes a validation has found to be as few. It rests on
`Expr.eval_visits`, which says which nodes are counted by where a limit stops the evaluation.
-/

namespace Stencil

/-- Without a limit the evaluation counts exactly the nodes `visited` in turn: a limit that is lower
stops it at the first of them too many. -/
structure Eval.Counts (visited : List Expr) {α : Type} (m : Option Quantity → Eval α) (t : Trace) :
    Prop where
  total : ((m none).runFrom t).2.operations = t.operations + visited.length
  stops {limit : Quantity} (hlimit : (Quantity.whole 0).le limit) {k : Nat}
    (hk : k < visited.length) : limit.lt (t.operations + k : Nat) = false →
    limit.lt (t.operations + k + 1 : Nat) →
    ∃ t', (m (some limit)).runFrom t = (.error (.exhausted visited[k].span.start), t')

/-- The evaluation counts some of the nodes, in their order, and a limit changes nothing else. If it
ends in a value and nothing is left out, it counts all of them. -/
structure Eval.Visits (nodes : List Expr) (all : Prop) {α : Type} (m : Option Quantity → Eval α) :
    Prop where
  cut {limit : Quantity} : (Quantity.whole 0).le limit → Eval.Cut limit (m (some limit)) (m none)
  visits (t : Trace) : ∃ visited, visited.Sublist nodes ∧ Counts visited m t ∧
    (all → ∀ a t', (m none).runFrom t = (.ok a, t') → visited = nodes)

namespace Eval.Visits

variable {nodes more : List Expr} {all some : Prop} {α β : Type}

/-- What counts no operation visits no node. -/
lemma free {m : Eval α} (hops : ∀ t, (m.runFrom t).2.operations = t.operations)
    (hcalls : ∀ t, t.calls <+: (m.runFrom t).2.calls) : Visits [] all fun _ => m := by
  refine ⟨fun _ => .uncounted hops hcalls, ?_⟩
  intro t
  exact ⟨[], List.Sublist.refl [], ⟨hops t, fun _ _ hk => absurd hk (Nat.not_lt_zero _)⟩,
    fun _ _ _ _ => rfl⟩

/-- What leaves the trace as it is visits no node. -/
lemma still {m : Eval α} (h : ∀ t, (m.runFrom t).2 = t) : Visits [] all fun _ => m := by
  apply free
  · intro t
    rw [h]
  · intro t
    rw [h]

/-- The nodes of the second part are visited after those of the first, if it ends in a value. -/
lemma bind {m : Option Quantity → Eval α} {f : Option Quantity → α → Eval β}
    (h : Visits nodes all m) (hf : ∀ a, (∃ q, (m q).Yields a) → Visits more all fun q => f q a) :
    Visits (nodes ++ more) all fun q => m q >>= f q := by
  refine ⟨?_, ?_⟩
  · intro limit hlimit
    apply (h.cut hlimit).bind
    intro a ha
    exact (hf a (ha.elim (⟨_, ·⟩) (⟨_, ·⟩))).cut hlimit
  -- what is visited depends on whether the first part ends in a value
  intro t
  obtain ⟨first, hsub, hcounts, hall⟩ := h.visits t
  rcases hm : (m none).runFrom t with ⟨fault | a, t₁⟩
  · refine ⟨first, hsub.trans (List.sublist_append_left _ _), ⟨?_, ?_⟩, ?_⟩
    · have := hcounts.total
      rw [hm] at this
      rwa [runFrom_bind, hm]
    · intro limit hlimit k hk hlt hnext
      obtain ⟨t', hrun⟩ := hcounts.stops hlimit hk hlt hnext
      exact ⟨t', by rw [runFrom_bind, hrun]⟩
    · intro _ b t' hrun
      rw [runFrom_bind, hm] at hrun
      cases hrun
  · obtain ⟨second, hsub', hcounts', hall'⟩ := (hf a ⟨none, t, t₁, hm⟩).visits t₁
    have hops : t₁.operations = t.operations + first.length := by
      have := hcounts.total
      rwa [hm] at this
    refine ⟨first ++ second, hsub.append hsub', ⟨?_, ?_⟩, ?_⟩
    · rw [runFrom_bind, hm, List.length_append]
      dsimp only
      rw [hcounts'.total, hops, Nat.add_assoc]
    · intro limit hlimit k hk hlt hnext
      by_cases hfirst : k < first.length
      · obtain ⟨t', hrun⟩ := hcounts.stops hlimit hfirst hlt hnext
        rw [List.getElem_append_left hfirst]
        exact ⟨t', by rw [runFrom_bind, hrun]⟩
      · -- the first part is within the limit, so the second runs from where it ends
        have hwithin : limit.lt t₁.operations = false := Quantity.not_lt_mono hlt (by omega)
        have hsame := (h.cut hlimit).same (t := t) (by rwa [hm])
        have hsum : t₁.operations + (k - first.length) = t.operations + k := by omega
        rw [List.length_append] at hk
        rw [← hsum] at hlt hnext
        obtain ⟨t', hrun⟩ := hcounts'.stops hlimit (by omega) hlt hnext
        rw [List.getElem_append_right (Nat.le_of_not_lt hfirst)]
        exact ⟨t', by rw [runFrom_bind, hsame, hm]; exact hrun⟩
    · intro h b t' hrun
      rw [runFrom_bind, hm] at hrun
      rw [hall h a t₁ hm, hall' h b t' hrun]

/-- Whatever is left out of the whole is left out of no part. -/
lemma imp {m : Option Quantity → Eval α} (h : Visits nodes all m) (hall : some → all) :
    Visits nodes some m := by
  refine ⟨h.cut, ?_⟩
  intro t
  obtain ⟨visited, hsub, hcounts, hvisited⟩ := h.visits t
  exact ⟨visited, hsub, hcounts, fun hsome => hvisited (hall hsome)⟩

/-- What is one of several branches visits no more than their nodes. -/
lemma branch {m : Option Quantity → Eval α} (h : Visits nodes all m) (hsub : nodes.Sublist more)
    (hall : ¬ all) : Visits more all m := by
  refine ⟨h.cut, ?_⟩
  intro t
  obtain ⟨visited, hvisited, hcounts, -⟩ := h.visits t
  exact ⟨visited, hvisited.trans hsub, hcounts, fun h => absurd h hall⟩

end Eval.Visits

section

variable {all : Prop} {c : Context} {r : Registry}

lemma Scope.count_visits (c : Context) (r : Registry) (x : Expr) :
    Eval.Visits [x] all fun q => Scope.count ⟨c, r, q⟩ x.span.start := by
  refine ⟨fun hlimit => count_cut hlimit c r _, ?_⟩
  intro t
  refine ⟨[x], List.Sublist.refl _, ⟨rfl, ?_⟩, fun _ _ _ _ => rfl⟩
  intro limit hlimit k hk _ hnext
  obtain rfl := Nat.lt_one_iff.1 hk
  rw [runFrom_count_some hlimit, if_pos hnext]
  exact ⟨_, rfl⟩

/-- Operators, and whatever else looks at no scope, visit no node. -/
lemma sequential_visits : Sequential (fun _ m _ => Eval.Visits [] all fun _ => m) where
  pure _ := .still fun _ => rfl
  bind hm hf := hm.bind fun a ⟨_, ha⟩ => hf a (.inl ha)
  value result := .still fun _ => by cases result <;> rfl

lemma Scope.function_visits (c : Context) (r : Registry) (name : Text) (span : Span) :
    Eval.Visits [] all fun q => Scope.function ⟨c, r, q⟩ name span := by
  apply Eval.Visits.still (m := Scope.function ⟨c, r, none⟩ name span)
  intro t
  rw [runFrom_function]
  split <;> rfl

lemma Registration.invoke_visits (f : Registration) (args : List Value) (span : Span) :
    Eval.Visits [] all fun _ => f.invoke args span := by
  apply Eval.Visits.free
  · intro t
    rw [runFrom_invoke]
    split <;> rfl
  · intro t
    rw [runFrom_invoke]
    split
    · exact List.prefix_rfl
    · exact List.prefix_append _ _

lemma BinaryOp.apply_visits (op : BinaryOp) (a b : Value) (span right : Span) :
    Eval.Visits [] all fun _ => op.apply a b span right :=
  apply_related sequential_visits (fun _ => .still fun _ => rfl) (fun _ => .still fun _ => rfl) a b

namespace Expr

/-- No node of the expression leaves a branch out. -/
def Straight (e : Expr) : Prop := ∀ x ∈ e.nodes, x.form ≠ .ternary ∧ x.form ≠ .conditional

instance (e : Expr) : Decidable e.Straight :=
  inferInstanceAs (Decidable (∀ x ∈ e.nodes, x.form ≠ .ternary ∧ x.form ≠ .conditional))

lemma Straight.child {e x : Expr} (h : e.Straight) (hx : x ∈ e.children) : x.Straight :=
  fun _ hy => h _ (mem_nodes_of_child hx hy)

lemma evalAll_visits {es : List Expr}
    (h : ∀ e ∈ es, Eval.Visits e.nodes all fun q => e.eval ⟨c, r, q⟩) :
    Eval.Visits (es.flatMap nodes) all fun q => evalAll ⟨c, r, q⟩ es := by
  induction es with
  | nil =>
    simp only [evalAll]
    exact sequential_visits.pure []
  | cons e rest ih =>
    obtain ⟨he, hrest⟩ := List.forall_mem_cons.1 h
    simp only [evalAll, List.flatMap_cons]
    apply he.bind
    intro v _
    have := (ih hrest).bind fun more _ => sequential_visits.pure (v :: more)
    rwa [List.append_nil] at this

/-- A call visits what its arguments do. -/
lemma call_visits (name : Text) (span : Span) (given : List Value) {args : List Expr}
    (h : ∀ e ∈ args, Eval.Visits e.nodes all fun q => e.eval ⟨c, r, q⟩) :
    Eval.Visits (args.flatMap nodes) all fun q => (do
      let f ← Scope.function ⟨c, r, q⟩ name span
      let values ← evalAll ⟨c, r, q⟩ args
      f.invoke (given ++ values) span) := by
  have hvisits := (Scope.function_visits c r name span).bind fun f _ =>
    (evalAll_visits h).bind fun values _ => f.invoke_visits (given ++ values) span
  rwa [List.append_nil] at hvisits

lemma evalStages_visits {stages : List Stage} {v : Value}
    (h : ∀ e ∈ stages.flatMap Stage.args, Eval.Visits e.nodes all fun q => e.eval ⟨c, r, q⟩) :
    Eval.Visits ((stages.flatMap Stage.args).flatMap nodes) all
      fun q => evalStages ⟨c, r, q⟩ v stages := by
  induction stages generalizing v with
  | nil =>
    simp only [evalStages]
    exact sequential_visits.pure v
  | cons stage rest ih =>
    obtain ⟨span, name, args⟩ := stage
    rw [List.flatMap_cons] at h
    obtain ⟨hargs, hrest⟩ := List.forall_mem_append.1 h
    have hvisits := (call_visits name span [v] hargs).bind fun w _ => ih hrest (v := w)
    simp only [bind_assoc] at hvisits
    simp only [evalStages, List.flatMap_cons, List.flatMap_append]
    exact hvisits

/-- An evaluation visits the nodes of the expression, each before its parts, without those of branches
that are not taken. -/
theorem eval_visits (e : Expr) : Eval.Visits e.nodes e.Straight fun q => e.eval ⟨c, r, q⟩ := by
  induction e using induct_children with
  | step e ih =>
    have parts : ∀ x ∈ e.children, Eval.Visits x.nodes e.Straight fun q => x.eval ⟨c, r, q⟩ :=
      fun x hx => (ih x hx).imp fun h => h.child hx
    clear ih
    have self : Eval.Visits [e] e.Straight fun q => Scope.count ⟨c, r, q⟩ e.span.start :=
      Scope.count_visits c r e
    have hbranch : e.form = .ternary ∨ e.form = .conditional → ¬ e.Straight := by
      intro hform h
      obtain ⟨hternary, hconditional⟩ := h e e.self_mem_nodes
      exact hform.elim hternary hconditional
    rw [nodes_eq]
    cases e with
    | literal span value raw =>
      simp only [eval]
      exact self.bind fun _ _ => sequential_visits.pure value
    | access span source path =>
      simp only [eval]
      apply self.bind
      intro _ _
      apply Eval.Visits.still
      intro t
      cases c.resolve source path <;> rfl
    | call span name args =>
      simp only [eval]
      exact self.bind fun _ _ => call_visits name span [] parts
    | pipeline span input stages =>
      obtain ⟨hinput, hargs⟩ := List.forall_mem_cons.1 parts
      simp only [eval]
      apply self.bind
      intro _ _
      apply hinput.bind
      intro v _
      exact evalStages_visits hargs
    | binary span op left right =>
      simp only [eval]
      apply self.bind
      intro _ _
      apply (parts left (by simp [children])).bind
      intro a _
      apply (parts right (by simp [children])).bind
      intro b _
      exact op.apply_visits a b span right.span
    | unary span op operand =>
      simp only [eval]
      apply self.bind
      intro _ _
      apply (parts operand (by simp [children])).bind
      intro v _
      exact op.apply_related sequential_visits v
    -- the branch that is not taken is left out
    | ternary span condition consequent alternate =>
      simp only [eval]
      apply self.bind
      intro _ _
      apply (parts condition (by simp [children])).bind
      intro v _
      split
      · exact (parts consequent (by simp [children])).branch (by simp) (hbranch (.inl rfl))
      · exact (parts alternate (by simp [children])).branch (by simp) (hbranch (.inl rfl))
    | conditional span condition consequent alternate =>
      cases alternate with
      | none =>
        simp only [eval]
        apply self.bind
        intro _ _
        apply (parts condition (by simp [children])).bind
        intro v _
        split
        · exact (parts consequent (by simp [children])).branch (by simp) (hbranch (.inr rfl))
        · exact (sequential_visits.pure Value.null).branch (by simp) (hbranch (.inr rfl))
      | some alternate =>
        simp only [eval]
        apply self.bind
        intro _ _
        apply (parts condition (by simp [children])).bind
        intro v _
        split
        · exact (parts consequent (by simp [children])).branch (by simp) (hbranch (.inr rfl))
        · exact (parts alternate (by simp [children])).branch (by simp) (hbranch (.inr rfl))

end Expr

namespace Template

/-- A rendering visits the nodes of the expressions in turn. -/
lemma renderAll_visits (els : List Element) :
    Eval.Visits ((els.filterMap Element.expr?).flatMap Expr.nodes) False
      fun q => renderAll ⟨c, r, q⟩ els := by
  induction els with
  | nil =>
    simp only [renderAll]
    exact sequential_visits.pure []
  | cons el rest ih =>
    have more (head : Text) := ih.bind fun tail _ => sequential_visits.pure (head ++ tail)
    simp only [List.append_nil] at more
    cases el with
    | text value =>
      simp only [renderAll, renderElement]
      exact (sequential_visits.pure value).bind fun head _ => more head
    | expression source e span =>
      have hvisits := ((e.eval_visits (c := c) (r := r)).imp False.elim).bind fun v _ =>
        sequential_visits.value v.asString
      simp only [List.append_nil] at hvisits
      simp only [renderAll, renderElement]
      exact hvisits.bind fun head _ => more head

end Template

/-- A limit that does not count is as none. -/
lemma Expr.eval_effective (e : Expr) (q : Option Quantity) :
    e.eval ⟨c, r, q⟩ = e.eval ⟨c, r, effective q⟩ := by
  apply eval_related (relates_of_effective (effective_effective q).symm)
  intro x _
  exact ⟨fun _ => rfl, fun _ => ⟨rfl, fun _ _ => rfl⟩, fun _ _ => rfl⟩

end

namespace Run

/-- The operations of a run grow by at most the number of nodes, whatever the limit, and by as many if
it ends in a value and no branch is left out. -/
lemma cost (e : Expr) (s : Scope) (t : Trace) :
    t.operations ≤ ((e.eval s).runFrom t).2.operations ∧
    ((e.eval s).runFrom t).2.operations ≤ t.operations + e.nodes.length ∧
    (e.Straight → ∀ v t', (e.eval s).runFrom t = (.ok v, t') →
      t'.operations = t.operations + e.nodes.length) := by
  obtain ⟨c, r, q⟩ := s
  have hvisits := e.eval_visits (c := c) (r := r)
  obtain ⟨visited, hsub, hcounts, hall⟩ := hvisits.visits t
  have hlength := hsub.length_le
  have htotal := hcounts.total
  have hfree : e.Straight → ∀ v t', (e.eval ⟨c, r, none⟩).runFrom t = (.ok v, t') →
      t'.operations = t.operations + e.nodes.length := by
    intro hstraight v t' hrun
    rw [hrun] at htotal
    rw [← hall hstraight v t' hrun]
    exact htotal
  rw [e.eval_effective]
  cases hq : effective q with
  | none => exact ⟨by omega, by omega, hfree⟩
  | some limit =>
    have hlimit := le_of_effective hq
    cases hend : limit.lt ((e.eval ⟨c, r, none⟩).runFrom t).2.operations with
    | false =>
      rw [(hvisits.cut hlimit).same hend]
      exact ⟨by omega, by omega, hfree⟩
    | true =>
      -- the run is cut one operation after the limit, or after its start
      have hcut : Cut limit t.operations ((e.eval ⟨c, r, some limit⟩).runFrom t)
          ((e.eval ⟨c, r, none⟩).runFrom t) := by
        cases ht : limit.lt t.operations with
        | true => exact cut_of_beyond hlimit e c r ht
        | false => exact cut_of_within hlimit (hvisits.cut hlimit) ht
      obtain ⟨offset, t', hrun, hops, -⟩ := hcut.stops hend
      have htimes := (Quantity.lt_iff_of_lt hlimit hend).1 hend
      have hpos : 1 ≤ e.nodes.length := by
        rw [e.length_nodes]
        exact Nat.le_add_right 1 _
      rw [hrun, hops]
      refine ⟨by omega, by omega, ?_⟩
      intro _ v t' hok
      cases hok

/-- Without a limit no rendering exceeds it. -/
lemma render_unlimited (c : Context) (r : Registry) (els : List Element) :
    (Template.renderAll ⟨c, r, none⟩ els).FailsOnly fun fault =>
      ∀ offset, fault ≠ .exhausted offset := by
  have hsequential := sequential_failsOnly (P := fun fault => ∀ offset, fault ≠ .exhausted offset)
    fun _ _ => nofun
  apply Template.renderAll_related hsequential ⟨c, r, none⟩ ⟨c, r, none⟩
  intro e _
  apply Expr.eval_related_steps hsequential
  intro x _
  apply step_failsOnly
  · intro t fault t' hrun
    cases hrun
  · exact fun _ _ => nofun
  · exact fun _ _ => nofun
  · exact fun _ _ _ => nofun
  · exact fun _ _ _ _ _ => nofun
  · exact fun _ _ _ _ _ _ => nofun
  · exact fun _ _ => nofun
  · exact fun _ _ _ _ _ => nofun

/-- A rendering does not exceed a limit that is not below the number of nodes. -/
lemma render_within {t : Template} {c : Context} {limit : Quantity}
    (hlimit : (Quantity.whole 0).le limit) (hoperations : t.limits.operations = some limit)
    (hnodes : limit.lt t.nodes.length = false) :
    (t.render c).runFrom {} = (Template.renderAll ⟨c, t.functions, none⟩ t.elements).runFrom {} := by
  have hvisits := Template.renderAll_visits (c := c) (r := t.functions) t.elements
  obtain ⟨visited, hsub, hcounts, -⟩ := hvisits.visits {}
  rw [Template.render, Template.scope, hoperations]
  apply (hvisits.cut hlimit).same
  apply Quantity.not_lt_mono hnodes
  rw [hcounts.total, Nat.zero_add]
  exact hsub.length_le

/-- Every run counts some of the nodes in their order, each at most once. So the number of nodes bounds
the operations, and they are as many if the run ends in a value and no branch is left out. A template
in which a validation finds no more than a number of nodes does not exceed a limit on operations that
is not below this number. -/
theorem nodes_bound :
    (∀ (e : Expr) (c : Context) (r : Registry) (t : Trace), ∃ visited, visited.Sublist e.nodes ∧
      Eval.Counts visited (fun q => e.eval ⟨c, r, q⟩) t) ∧
    (∀ (e : Expr) (s : Scope) (t : Trace),
      t.operations ≤ ((e.eval s).runFrom t).2.operations ∧
      ((e.eval s).runFrom t).2.operations ≤ t.operations + e.analyze.nodes ∧
      (e.Straight → ∀ v t', (e.eval s).runFrom t = (.ok v, t') →
        t'.operations = t.operations + e.analyze.nodes)) ∧
    ∀ (t : Template) (rules : Rules) (n limit : Quantity), (Quantity.whole 0).le n →
      rules.maxNodes = some n →
      (∀ i ∈ (t.validate rules).issues, i.violation.code ≠ "VAL_MAX_NODE_COUNT") →
      n.le limit → t.limits.operations = some limit →
      ∀ c fault trace, (t.render c).runFrom {} = (.error fault, trace) → fault.isOwn →
        ∀ text, (fault.diagnostic text).category ≠ .limit := by
  refine ⟨?_, ?_, ?_⟩
  · intro e c r t
    obtain ⟨visited, hsub, hcounts, -⟩ := e.eval_visits.visits t
    exact ⟨visited, hsub, hcounts⟩
  · intro e s t
    rw [e.nodes_analyze]
    exact cost e s t
  · intro t rules n limit hn hmax hissues hle hoperations c fault trace hrun hown text hcategory
    have hlimit := Quantity.zero_le_of_le hn hle
    have hnone : rules.nodeIssues t.source t.nodes = [] := by
      apply List.eq_nil_iff_forall_not_mem.2
      intro i hi
      obtain ⟨count, most, hviolation⟩ := Rules.exists_of_mem_nodeIssues hi
      apply hissues i (Template.mem_issues.2 (.inl hi))
      rw [hviolation]
      rfl
    have hnodes := Rules.length_of_nodeIssues hn hmax hnone
    rw [render_within hlimit hoperations (Quantity.not_lt_of_le_of_not_lt hle hnodes)] at hrun
    obtain ⟨offset, hfault⟩ := EvalFault.eq_exhausted hown hcategory
    exact render_unlimited c t.functions t.elements _ _ _ hrun offset hfault

theorem nodes_bound_two :
    let e : Expr := .unary ⟨2, 11⟩ .not (.access ⟨3, 11⟩ .input "a")
    let t : Template := ⟨"{{!$input.a}}", [.expression "!$input.a" e ⟨0, 13⟩], .unbound,
      { operations := some (.whole 2) }⟩
    let rules : Rules := { maxNodes := some (.whole 2) }
    let c : Context := ⟨none, [], [], [], [], []⟩
    let s : Scope := ⟨c.setInput (.object [("a", .null)]), .unbound, none⟩
    let miss : Miss := ⟨"$input", ["No input data available"]⟩
    e.analyze.nodes = 2 ∧ e.Straight ∧
    (e.eval s).runFrom {} = (.ok (.bool true), ⟨2, []⟩) ∧ (2 : Nat) = 0 + e.analyze.nodes ∧
    (t.validate rules).issues = [] ∧
    (t.render c).runFrom {} = (.error (.unresolved miss), ⟨2, []⟩) ∧
    ((EvalFault.unresolved miss).diagnostic none).category ≠ .limit := by
  intro e t rules c s miss
  have hstraight : e.Straight := by decide
  have hok : (e.eval s).runFrom {} = (.ok (.bool true), ⟨2, []⟩) := rfl
  have hissues : (t.validate rules).issues = [] := List.mergeSort_nil
  have hrun : (t.render c).runFrom {} = (.error (.unresolved miss), ⟨2, []⟩) := rfl
  obtain ⟨-, hcost, hlimit⟩ := nodes_bound
  refine ⟨rfl, hstraight, hok, (hcost e s {}).2.2 hstraight _ _ hok, hissues, hrun, ?_⟩
  have hfree : ∀ i ∈ (t.validate rules).issues, i.violation.code ≠ "VAL_MAX_NODE_COUNT" := by
    intro i hi
    rw [hissues] at hi
    cases hi
  exact hlimit t rules (.whole 2) (.whole 2) rfl rfl hfree rfl rfl c _ _ hrun rfl none

end Run

end Stencil
