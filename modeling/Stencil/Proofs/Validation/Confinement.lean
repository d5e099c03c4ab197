import Stencil.Proofs.Eval.Relation
import Stencil.Proofs.Registry.Built

/-!
# What a validation confines

The lists of a validation confine what a template can read and call. Main statement:
`Template.validate_confines`: if no list is violated, a rendering is the same in all contexts that
agree on the data sources that the lists admit, and it calls no function that they do not admit.
-/

namespace Stencil

/-- The violation is of a list of data sources or of functions. -/
def Violation.IsOfList (v : Violation) : Prop :=
  v.code = "VAL_DATA_SOURCE_NOT_ALLOWED" ∨ v.code = "VAL_DATA_SOURCE_FORBIDDEN" ∨
    v.code = "VAL_FUNCTION_NOT_ALLOWED" ∨ v.code = "VAL_FUNCTION_FORBIDDEN"

/-- A name is admitted by a list of what is allowed, unless that is empty, and by a list of what is
forbidden. -/
structure Admitted (allowed forbidden : List Text) (name : Text) : Prop where
  allowed : allowed ≠ [] → name ∈ allowed
  forbidden : name ∉ forbidden

/-- The lists admit data sources of the kind. -/
def Rules.AdmitsSource (r : Rules) : Text → Prop := Admitted r.allowedSources r.forbiddenSources

/-- The lists admit functions of the name. -/
def Rules.AdmitsFunction (r : Rules) : Text → Prop :=
  Admitted r.allowedFunctions r.forbiddenFunctions

lemma Admitted.of_lists {allowed forbidden : List Text} {name : Text}
    (h : lacks allowed name ≠ true) (h' : forbidden.contains name ≠ true) :
    Admitted allowed forbidden name where
  allowed hne := by
    by_contra hmem
    exact h (lacks_eq_true.2 ⟨hne, hmem⟩)
  forbidden := mt List.contains_iff_mem.2 h'

namespace Rules

variable {r : Rules} {source : Text}

/-- A list of kinds that is violated is reported at the first use of the kind. -/
theorem sourceIssues_kind {nodes : List Expr} {seen : List Text} {x : Expr} {kind : Text}
    (hx : x ∈ nodes) (hkind : x.sourceKind? = some kind) (hseen : kind ∉ seen) :
    ∃ span,
      (lacks r.allowedSources kind = true →
        .ofSpan source span (.sourceNotAllowed kind) ∈ r.sourceIssues source seen nodes) ∧
      (r.forbiddenSources.contains kind = true →
        .ofSpan source span (.sourceForbidden kind) ∈ r.sourceIssues source seen nodes) := by
  obtain ⟨first, hfirst, hfirstKind⟩ := exists_mem_firsts Expr.sourceKind? hx hkind hseen
  have hmem {i : Issue} (hi : i ∈
      (if lacks r.allowedSources kind then
        [Issue.ofSpan source first.span (.sourceNotAllowed kind)] else []) ++
      (if r.forbiddenSources.contains kind then
        [Issue.ofSpan source first.span (.sourceForbidden kind)] else [])) :
      i ∈ r.sourceIssues source seen nodes := by
    rw [sourceIssues_eq]
    refine List.mem_flatMap.2 ⟨first, hfirst, ?_⟩
    rwa [hfirstKind, Option.toList_some, List.flatMap_singleton]
  refine ⟨first.span, fun h => hmem ?_, fun h => hmem ?_⟩
  · rw [if_pos h]
    exact List.mem_append_left _ (List.mem_singleton.2 rfl)
  · rw [if_pos h]
    exact List.mem_append_right _ (List.mem_singleton.2 rfl)

end Rules

namespace Template

variable {t : Template} {r : Rules}

/-- Where no list of data sources is violated, all references are to admitted kinds. -/
lemma admitsSource_of_no_issue (h : ∀ i ∈ (t.validate r).issues, ¬ i.violation.IsOfList)
    {span : Span} {source : DataSource} {path : Text} (hx : .access span source path ∈ t.nodes) :
    r.AdmitsSource source.kind := by
  have hissues {i : Issue} (hi : i ∈ r.sourceIssues t.source [] t.nodes) :
      i ∈ (t.validate r).issues := by
    rw [mem_issues]
    exact .inr (.inr (.inr (.inr hi)))
  -- the first use of the kind is where its issues would be
  obtain ⟨use, hallowed, hforbidden⟩ := Rules.sourceIssues_kind hx rfl List.not_mem_nil
  apply Admitted.of_lists
  · intro hlacks
    exact h _ (hissues (hallowed hlacks)) (.inl rfl)
  · intro hcontains
    exact h _ (hissues (hforbidden hcontains)) (.inr (.inl rfl))

/-- Where no list of functions is violated, all calls are of admitted functions. -/
lemma admitsFunction_of_no_issue (h : ∀ i ∈ (t.validate r).issues, ¬ i.violation.IsOfList)
    {call : CallSite} (hcall : call ∈ t.calls) : r.AdmitsFunction call.name := by
  have hreport {v : Violation}
      (hv : v ∈ r.nameViolations (r.registry.getD t.functions) call.name) : ¬ v.IsOfList := by
    obtain ⟨span, hi⟩ := Rules.callIssues_name hcall List.not_mem_nil hv
    apply h (.ofSpan t.source span v)
    rw [mem_issues]
    exact .inr (.inr (.inr (.inl hi)))
  apply Admitted.of_lists
  · intro hlacks
    exact hreport (Rules.mem_nameViolations.2 (.inl ⟨hlacks, rfl⟩)) (.inr (.inr (.inl rfl)))
  · intro hcontains
    exact hreport (Rules.mem_nameViolations.2 (.inr (.inl ⟨hcontains, rfl⟩)))
      (.inr (.inr (.inr rfl)))

end Template

/-! ## What is read -/

/-- The contexts have the same data in all sources of the kinds. -/
structure Context.AgreeOn (kinds : Text → Prop) (c c' : Context) : Prop where
  input : kinds "input" → c.input = c'.input
  node : kinds "node" → c.nodes = c'.nodes
  system : kinds "system" → c.system = c'.system
  execution : kinds "execution" → c.execution = c'.execution
  environment : kinds "environment" → c.environment = c'.environment
  workflow : kinds "workflow" → c.workflow = c'.workflow

section

variable {kinds : Text → Prop} {c c' : Context}

/-- References to sources of the kinds resolve to the same, also where they fail. -/
lemma Context.AgreeOn.resolve (h : c.AgreeOn kinds c') {source : DataSource} (path : Text)
    (hsource : kinds source.kind) : c.resolve source path = c'.resolve source path := by
  cases source with
  | input => rw [Context.resolve, Context.resolve, h.input hsource]
  | node => rw [Context.resolve, Context.resolve, h.node hsource]
  | system => rw [Context.resolve, Context.resolve, h.system hsource]
  | execution => rw [Context.resolve, Context.resolve, h.execution hsource]
  | environment => rw [Context.resolve, Context.resolve, h.environment hsource]
  | workflow => rw [Context.resolve, Context.resolve, h.workflow hsource]

lemma relates_eq (functions : Registry) (limit : Option Quantity) :
    Relates (fun _ m m' => m = m') ⟨c, functions, limit⟩ ⟨c', functions, limit⟩ :=
  relates_of_effective rfl

lemma Context.AgreeOn.node_eq (h : c.AgreeOn kinds c') (functions : Registry)
    (limit : Option Quantity) {x : Expr}
    (hx : ∀ span source path, x = .access span source path → kinds source.kind) :
    NodeRelated (fun _ m m' => m = m') ⟨c, functions, limit⟩ ⟨c', functions, limit⟩ x := by
  refine ⟨?_, ?_, ?_⟩
  · intro span source path hxa
    dsimp only
    rw [h.resolve path (hx span source path hxa)]
  · intro _ _
    exact ⟨rfl, fun _ _ => rfl⟩
  · intro _ _ _ _ _ _
    rfl

end

/-! ## What is called -/

/-- Every run of the evaluation calls functions of such names only. -/
def Eval.CallsOnly (names : Text → Prop) {α : Type} (m : Eval α) : Prop :=
  ∀ t, ∀ call ∈ (m.runFrom t).2.calls, call ∈ t.calls ∨ names call.1

namespace Eval.CallsOnly

variable {names : Text → Prop} {α β : Type}

/-- What leaves the calls as they are calls nothing. -/
lemma still {m : Eval α} (h : ∀ t, (m.runFrom t).2.calls = t.calls) : m.CallsOnly names := by
  intro t call hcall
  rw [h] at hcall
  exact .inl hcall

lemma bind {m : Eval α} {f : α → Eval β} (hm : m.CallsOnly names)
    (hf : ∀ a, m.Yields a → (f a).CallsOnly names) : (m >>= f).CallsOnly names := by
  intro t call hcall
  rw [runFrom_bind] at hcall
  rcases hrun : m.runFrom t with ⟨_ | a, t'⟩
  · rw [hrun] at hcall
    apply hm t call
    rwa [hrun]
  · rw [hrun] at hcall
    -- a call of the second part, or one that the first part has made
    obtain hcall | hname := hf a ⟨t, t', hrun⟩ t' call hcall
    · apply hm t call
      rwa [hrun]
    · exact .inr hname

lemma lift {ε : Type} {wrap : ε → EvalFault} {result : Except ε α} :
    (Eval.lift wrap result).CallsOnly names :=
  still fun _ => by cases result <;> rfl

end Eval.CallsOnly

section

variable {names : Text → Prop} (s : Scope)

lemma relates_callsOnly : Relates (fun _ m _ => m.CallsOnly names) s s where
  pure _ := .still fun _ => rfl
  bind hm hf := hm.bind fun a ha => hf a (.inl ha)
  count offset := .still fun t => by
    rw [Scope.runFrom_count]
    split
    · split <;> rfl
    · rfl
  value _ := .lift
  division _ := .still fun _ => rfl

/-- A node calls functions under the names that stand in it. -/
lemma node_callsOnly (hbuilt : s.functions.Built) {x : Expr}
    (hx : ∀ call ∈ x.callSites, names call.name) :
    NodeRelated (fun _ m _ => m.CallsOnly names) s s x := by
  refine ⟨?_, ?_, ?_⟩
  · intro _ _ _ _
    exact .lift
  · intro call hcall
    refine ⟨?_, ?_⟩
    · apply Eval.CallsOnly.still
      intro t
      rw [Scope.runFrom_function]
      split <;> rfl
    · intro f args hf _ t noted hnoted
      rw [or_self] at hf
      rw [Registration.runFrom_invoke] at hnoted
      split at hnoted
      · exact .inl hnoted
      · rw [List.mem_append, List.mem_singleton] at hnoted
        obtain hnoted | rfl := hnoted
        · exact .inl hnoted
        · rw [hbuilt.name_eq hf]
          exact .inr (hx call hcall)
  · intro _ _ _ _ _ _
    exact .still fun _ => rfl

end

namespace Template

/-- A validation that finds no list violated confines every rendering. Contexts that agree on the data
sources admitted by the lists are rendered to the same text, or to the same fault with the same
references offered instead; and only admitted functions are called. -/
theorem validate_confines (t : Template) (r : Rules) (hbuilt : t.functions.Built)
    (h : ∀ i ∈ (t.validate r).issues, ¬ i.violation.IsOfList) :
    (∀ c c' : Context, c.AgreeOn r.AdmitsSource c' →
      (t.render c).runFrom {} = (t.render c').runFrom {}) ∧
    ∀ c : Context, ∀ call ∈ ((t.render c).runFrom {}).2.calls, r.AdmitsFunction call.1 := by
  constructor
  · intro c c' hagree
    have hrender : t.render c = t.render c' := by
      apply render_related (relates_eq t.functions t.limits.operations) t
      intro x hx
      apply hagree.node_eq
      rintro span source path rfl
      exact admitsSource_of_no_issue h hx
    rw [hrender]
  · intro c call hcall
    have hrender : (t.render c).CallsOnly r.AdmitsFunction := by
      apply render_related (relates_callsOnly (t.scope c)) t
      intro x hx
      apply node_callsOnly (t.scope c) hbuilt
      intro site hsite
      exact admitsFunction_of_no_issue h (List.mem_flatMap.2 ⟨x, hx, hsite⟩)
    exact (hrender {} call hcall).resolve_left List.not_mem_nil

theorem validate_confines_environment :
    let f : Registration := ⟨"f", fun _ => .ok .null, none⟩
    let x : Expr := .binary ⟨2, 20⟩ .add
      (.call ⟨2, 11⟩ "f" [.access ⟨4, 10⟩ .environment "A"]) (.access ⟨14, 20⟩ .environment "B")
    let t : Template := ⟨"\x7b\x7bf($env.A) + $env.B\x7d\x7d",
      [.expression "f($env.A) + $env.B" x ⟨0, 22⟩], ⟨[("f", f)], true, 1⟩, {}⟩
    let r : Rules :=
      { allowedFunctions := ["f"], forbiddenFunctions := ["g"]
        allowedSources := ["environment"], forbiddenSources := ["system"] }
    let c : Context := ⟨none, [], [("A", "1")], [], [], []⟩
    let c' : Context := ⟨some .null, [("n", .null)], [("A", "1")], [], [], []⟩
    t.functions.Built ∧ (∀ i ∈ (t.validate r).issues, ¬ i.violation.IsOfList) ∧
    c.AgreeOn r.AdmitsSource c' ∧
    (t.render c).runFrom {} =
      (.error (.unresolved ⟨"$env.B", ["$env.A"]⟩), ⟨4, [("f", [.string "1"])]⟩) ∧
    (t.render c').runFrom {} =
      (.error (.unresolved ⟨"$env.B", ["$env.A"]⟩), ⟨4, [("f", [.string "1"])]⟩) ∧
    r.AdmitsFunction "f" := by
  intro f x t r c c'
  have hbuilt : t.functions.Built := .insert (f := f) .empty rfl
  have hissues : ∀ i ∈ (t.validate r).issues, ¬ i.violation.IsOfList := by
    intro i hi
    rw [mem_issues] at hi
    change i ∈ [] ∨ i ∈ [] ∨ i ∈ [] ∨ i ∈ [] ∨ i ∈ [] at hi
    simp at hi
  have hagree : c.AgreeOn r.AdmitsSource c' := by
    refine ⟨?_, ?_, ?_, ?_, ?_, ?_⟩
    · exact fun h => absurd (h.allowed (by decide)) (by decide)
    · exact fun h => absurd (h.allowed (by decide)) (by decide)
    all_goals exact fun _ => rfl
  obtain ⟨hsame, hcalls⟩ := validate_confines t r hbuilt hissues
  have hrun : (t.render c).runFrom {} =
      (.error (.unresolved ⟨"$env.B", ["$env.A"]⟩), ⟨4, [("f", [.string "1"])]⟩) := rfl
  refine ⟨hbuilt, hissues, hagree, hrun, (hsame c c' hagree).symm.trans hrun, ?_⟩
  apply hcalls c ("f", [.string "1"])
  rw [hrun]
  exact List.mem_singleton.2 rfl

end Template

end Stencil
