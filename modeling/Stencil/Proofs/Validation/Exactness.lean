import Mathlib.Data.List.Perm.Basic
import Stencil.Proofs.Grammar.Level
import Stencil.Proofs.Template.Elements
import Stencil.Proofs.Token.Layout
import Stencil.Proofs.Validation.Limit
import Stencil.Proofs.Validation.Order

/-!
# A validation finds what there is

The issues of a validation are those that the rules call for, each once, and they are in order. Main
statement: `Template.validate_exact`.
-/

namespace Stencil

/-- The list is set and lacks the name. -/
def Omitted (list : List Text) (name : Text) : Prop := list ≠ [] ∧ name ∉ list

/-- The function of the call is registered with a signature, which does not allow its number of
arguments. -/
structure Misfit (registry : Registry) (call : CallSite) (s : Signature) : Prop where
  registered : ∃ f, registry.find? call.name = some f ∧ f.signature = some s
  count : ¬ s.Allows call.args

/-- The violation is of a list of kinds of data sources. -/
def Violation.isOfSource : Violation → Bool
  | .sourceNotAllowed _ | .sourceForbidden _ => true
  | _ => false

namespace Template

/-- The registry that a template is checked against. -/
def checkedBy (t : Template) (r : Rules) : Registry := r.registry.getD t.functions

/-- The names of the functions that are called, each once. -/
def functionNames (t : Template) : List Text := (t.calls.map CallSite.name).eraseDups

/-- The kinds of the data sources that are referred to, each once. -/
def sourceKinds (t : Template) : List Text := (t.nodes.filterMap Expr.sourceKind?).eraseDups

/-- The issue has the violation of the name, at the first call of it. -/
def AtFirstCall (t : Template) (violation : Text → Violation) (name : Text) (i : Issue) : Prop :=
  ∃ call, First (fun c => c.name = name) t.calls call ∧
    i = .ofSpan t.source call.span (violation name)

/-- The issue has the violation of the kind of data source, at the first reference to it. -/
def AtFirstUse (t : Template) (violation : Text → Violation) (kind : Text) (i : Issue) : Prop :=
  ∃ x, First (fun y => y.sourceKind? = some kind) t.nodes x ∧
    i = .ofSpan t.source x.span (violation kind)

end Template

/-- The issues of a validation, by what they report. -/
structure Findings where
  tooManyNodes : List Issue
  tooDeep : List Issue
  unsupported : List Issue
  functionsNotAllowed : List Issue
  functionsForbidden : List Issue
  functionsUnknown : List Issue
  arities : List Issue
  sourcesNotAllowed : List Issue
  sourcesForbidden : List Issue

/-- All the issues. -/
def Findings.all (f : Findings) : List Issue :=
  f.tooManyNodes ++ f.tooDeep ++ f.unsupported ++
    (f.functionsNotAllowed ++ f.functionsForbidden ++ f.functionsUnknown ++ f.arities) ++
    (f.sourcesNotAllowed ++ f.sourcesForbidden)

/-- The issues are those that the rules call for. -/
structure Findings.Exact (f : Findings) (t : Template) (r : Rules) : Prop where
  /-- One if there are too many nodes, at the first node too many. -/
  tooManyNodes : OnePer
    (fun t => ∃ limit, Exceeded r.maxNodes limit (Expr.sizeAll t.exprs))
    (fun t i => ∃ limit before x after, t.nodes = before ++ x :: after ∧
      ¬ Exceeded r.maxNodes limit before.length ∧ Exceeded r.maxNodes limit (before.length + 1) ∧
      i = .ofSpan t.source x.span (.tooManyNodes (before.length + 1) limit))
    [t] f.tooManyNodes
  /-- One for each expression that is too high, at its first node too deep. -/
  tooDeep : OnePer
    (fun e => ∃ limit, Exceeded r.maxDepth limit e.height)
    (fun e i => ∃ limit x depth,
      First (fun visit => Exceeded r.maxDepth limit visit.2) e.visits (x, depth) ∧
      i = .ofSpan t.source x.span (.tooDeep depth limit))
    t.exprs f.tooDeep
  /-- One for each node whose operator cannot be evaluated. -/
  unsupported : OnePer
    (fun x => ∃ span op left right, x = .binary span op left right ∧ op.isSupported = false)
    (fun x i => ∃ span op left right, x = .binary span op left right ∧
      i = .ofSpan t.source span (.unsupported op))
    t.nodes f.unsupported
  functionsNotAllowed : OnePer (Omitted r.allowedFunctions) (t.AtFirstCall .functionNotAllowed)
    t.functionNames f.functionsNotAllowed
  functionsForbidden : OnePer (· ∈ r.forbiddenFunctions) (t.AtFirstCall .functionForbidden)
    t.functionNames f.functionsForbidden
  functionsUnknown : OnePer (fun name => (t.checkedBy r).find? name = none)
    (t.AtFirstCall fun name => .unknownFunction name (t.checkedBy r).bound)
    t.functionNames f.functionsUnknown
  /-- One for each call whose number of arguments the signature of the function does not allow. -/
  arities : OnePer
    (fun call => ∃ s, Misfit (t.checkedBy r) call s)
    (fun call i => ∃ s, Misfit (t.checkedBy r) call s ∧
      i = .ofSpan t.source call.span (.arity call.name call.args s.least s.most?))
    t.calls f.arities
  sourcesNotAllowed : OnePer (Omitted r.allowedSources) (t.AtFirstUse .sourceNotAllowed)
    t.sourceKinds f.sourcesNotAllowed
  sourcesForbidden : OnePer (· ∈ r.forbiddenSources) (t.AtFirstUse .sourceForbidden)
    t.sourceKinds f.sourcesForbidden

namespace Template

variable (t : Template) {offends : Text → Prop} {test : Text → Bool}

/-- The issues of a check of names at their first calls. -/
def firstCallIssues (test : Text → Bool) (violation : Text → Violation) : List Issue :=
  (firsts (fun call : CallSite => some call.name) [] t.calls).flatMap fun call =>
    if test call.name then [.ofSpan t.source call.span (violation call.name)] else []

/-- The issues of a check of kinds of data sources at their first uses. -/
def firstUseIssues (test : Text → Bool) (violation : Text → Violation) : List Issue :=
  (firsts Expr.sourceKind? [] t.nodes).flatMap fun x => x.sourceKind?.toList.flatMap fun kind =>
    if test kind then [.ofSpan t.source x.span (violation kind)] else []

lemma onePer_firstCalls (htest : ∀ name, test name = true ↔ offends name)
    (violation : Text → Violation) :
    OnePer offends (t.AtFirstCall violation) t.functionNames (t.firstCallIssues test violation) := by
  have hnames : t.functionNames = (t.calls.filterMap fun call => some call.name).eraseDups := by
    rw [functionNames, List.filterMap_eq_map']
  rw [hnames]
  apply OnePer.of_firsts
  · rintro call _ ⟨⟩ hclean
    exact if_neg (mt (htest _).1 hclean)
  · intro call name hfirst hoffends
    obtain ⟨-, ⟨⟩⟩ := hfirst.mem
    refine ⟨_, if_pos ((htest _).2 hoffends), call, ?_, rfl⟩
    simpa using hfirst

lemma onePer_firstUses (htest : ∀ kind, test kind = true ↔ offends kind)
    (violation : Text → Violation) :
    OnePer offends (t.AtFirstUse violation) t.sourceKinds (t.firstUseIssues test violation) := by
  apply OnePer.of_firsts
  · intro x kind hkind hclean
    rw [hkind, Option.toList_some, List.flatMap_singleton, if_neg (mt (htest _).1 hclean)]
  · intro x kind hfirst hoffends
    refine ⟨_, ?_, x, hfirst, rfl⟩
    rw [hfirst.mem.2, Option.toList_some, List.flatMap_singleton, if_pos ((htest _).2 hoffends)]

/-- What the checks find, by what they report. -/
def findings (r : Rules) : Findings where
  tooManyNodes := r.nodeIssues t.source t.nodes
  tooDeep := t.exprs.flatMap fun e => r.depthIssues t.source e.visits
  unsupported := Rules.operatorIssues t.source t.nodes
  functionsNotAllowed := t.firstCallIssues (lacks r.allowedFunctions) .functionNotAllowed
  functionsForbidden := t.firstCallIssues r.forbiddenFunctions.contains .functionForbidden
  functionsUnknown := t.firstCallIssues (fun name => !(t.checkedBy r).has name)
    fun name => .unknownFunction name (t.checkedBy r).bound
  arities := t.calls.flatMap fun call =>
    (Rules.arityViolation? (t.checkedBy r) call).toList.map (Issue.ofSpan t.source call.span)
  sourcesNotAllowed := t.firstUseIssues (lacks r.allowedSources) .sourceNotAllowed
  sourcesForbidden := t.firstUseIssues r.forbiddenSources.contains .sourceForbidden

/-- The checks of calls are the four of the findings. -/
lemma callIssues_findings (r : Rules) :
    (r.callIssues (t.checkedBy r) t.source [] t.calls).Perm
      ((t.findings r).functionsNotAllowed ++ (t.findings r).functionsForbidden ++
        (t.findings r).functionsUnknown ++ (t.findings r).arities) := by
  refine (Rules.callIssues_perm [] t.calls).trans (.append_right _ ?_)
  simp only [Rules.map_nameViolations]
  exact ((List.flatMap_append_perm ..).symm.trans
    ((List.flatMap_append_perm ..).symm.append_right _))

lemma sourceIssues_findings (r : Rules) :
    (r.sourceIssues t.source [] t.nodes).Perm
      ((t.findings r).sourcesNotAllowed ++ (t.findings r).sourcesForbidden) := by
  rw [Rules.sourceIssues_eq]
  refine .trans (.of_eq ?_) (List.flatMap_append_perm ..).symm
  apply List.flatMap_congr
  intro x _
  cases x.sourceKind? <;> simp

/-- The issues of a validation are the findings. -/
lemma issues_perm (r : Rules) : (t.validate r).issues.Perm (t.findings r).all := by
  have hdepth : (t.exprs.map Expr.visits).flatMap (r.depthIssues t.source) =
      t.exprs.flatMap fun e => r.depthIssues t.source e.visits := List.flatMap_map ..
  rw [validate]
  refine (List.mergeSort_perm ..).trans ?_
  rw [nodes_eq, hdepth]
  exact ((t.callIssues_findings r).append_left _).append (t.sourceIssues_findings r)

lemma length_nodes (t : Template) : t.nodes.length = Expr.sizeAll t.exprs :=
  Expr.length_flatMap_nodes fun e _ => e.length_nodes_eq_size

/-- The findings are those that the rules call for. -/
theorem findings_exact (r : Rules) : (t.findings r).Exact t r where
  tooManyNodes := by
    have hissues : (t.findings r).tooManyNodes =
        [t].flatMap fun t => r.nodeIssues t.source t.nodes := (List.flatMap_singleton ..).symm
    rw [hissues]
    apply OnePer.of_items
    · intro t' _ h
      rw [← length_nodes] at h
      exact Rules.nodeIssues_eq_nil h
    · rintro t' ht ⟨limit, h⟩
      obtain rfl := List.mem_singleton.1 ht
      rw [← length_nodes] at h
      obtain ⟨i, hissues, hi⟩ := Rules.exists_of_nodeIssues h
      exact ⟨i, hissues, limit, hi⟩
  tooDeep := by
    apply OnePer.of_items
    · intro e _ h
      exact Rules.depthIssues_eq_nil h
    · rintro e _ ⟨limit, h⟩
      obtain ⟨i, hissues, hi⟩ := Rules.exists_of_depthIssues h
      exact ⟨i, hissues, limit, hi⟩
  unsupported := by
    have hissues : (t.findings r).unsupported =
        t.nodes.flatMap fun x => (x.unsupported?.map (Issue.ofSpan t.source x.span)).toList :=
      List.filterMap_eq_flatMap_toList ..
    rw [hissues]
    apply OnePer.of_items
    · intro x _ h
      cases hx : x.unsupported? with
      | none => rfl
      | some v =>
        obtain ⟨span, op, left, right, hbinary, hop, -⟩ := Rules.unsupported?_eq_some.1 hx
        exact absurd ⟨span, op, left, right, hbinary, hop⟩ h
    · rintro x _ ⟨span, op, left, right, rfl, hop⟩
      rw [Rules.unsupported?_eq_some.2 ⟨span, op, left, right, rfl, hop, rfl⟩]
      exact ⟨_, rfl, span, op, left, right, rfl, rfl⟩
  functionsNotAllowed := t.onePer_firstCalls (fun _ => lacks_eq_true) _
  functionsForbidden := t.onePer_firstCalls (fun _ => List.contains_iff_mem) _
  functionsUnknown := by
    have hhas (name : Text) :
        (!(t.checkedBy r).has name) = true ↔ (t.checkedBy r).find? name = none := by
      rw [Bool.not_eq_true']
      exact Option.isSome_eq_false_iff.trans Option.isNone_iff_eq_none
    exact t.onePer_firstCalls hhas _
  arities := by
    apply OnePer.of_items
    · intro call _ h
      cases hcall : Rules.arityViolation? (t.checkedBy r) call with
      | none => rfl
      | some v =>
        obtain ⟨f, s, hf, hs, hcount, -⟩ := Rules.arityViolation?_eq_some.1 hcall
        exact absurd ⟨s, ⟨f, hf, hs⟩, hcount⟩ h
    · rintro call _ ⟨s, ⟨f, hf, hs⟩, hcount⟩
      rw [Rules.arityViolation?_eq_some.2 ⟨f, s, hf, hs, hcount, rfl⟩]
      exact ⟨_, rfl, s, ⟨⟨f, hf, hs⟩, hcount⟩, rfl⟩
  sourcesNotAllowed := t.onePer_firstUses (fun _ => lacks_eq_true) _
  sourcesForbidden := t.onePer_firstUses (fun _ => List.contains_iff_mem) _

end Template

namespace Findings.Exact

variable {f : Findings} {t : Template} {r : Rules}

/-- Everything that is found lies in the source. -/
lemma located (h : f.Exact t r) {i : Issue} (hi : i ∈ f.all) : i.Located := by
  simp only [Findings.all, List.mem_append, or_assoc] at hi
  obtain hi | hi | hi | hi | hi | hi | hi | hi | hi := hi
  · obtain ⟨_, -, -, _, _, _, _, -, -, -, rfl⟩ := h.tooManyNodes.exists_of_mem hi
    exact Issue.located_ofSpan ..
  · obtain ⟨_, -, -, _, _, _, -, rfl⟩ := h.tooDeep.exists_of_mem hi
    exact Issue.located_ofSpan ..
  · obtain ⟨_, -, -, _, _, _, _, -, rfl⟩ := h.unsupported.exists_of_mem hi
    exact Issue.located_ofSpan ..
  · obtain ⟨_, -, -, _, -, rfl⟩ := h.functionsNotAllowed.exists_of_mem hi
    exact Issue.located_ofSpan ..
  · obtain ⟨_, -, -, _, -, rfl⟩ := h.functionsForbidden.exists_of_mem hi
    exact Issue.located_ofSpan ..
  · obtain ⟨_, -, -, _, -, rfl⟩ := h.functionsUnknown.exists_of_mem hi
    exact Issue.located_ofSpan ..
  · obtain ⟨_, -, -, _, -, rfl⟩ := h.arities.exists_of_mem hi
    exact Issue.located_ofSpan ..
  · obtain ⟨_, -, -, _, -, rfl⟩ := h.sourcesNotAllowed.exists_of_mem hi
    exact Issue.located_ofSpan ..
  · obtain ⟨_, -, -, _, -, rfl⟩ := h.sourcesForbidden.exists_of_mem hi
    exact Issue.located_ofSpan ..

end Findings.Exact

namespace Template

lemma getD_max?_le {ns : List Nat} {m : Nat} (h : ∀ n ∈ ns, n ≤ m) : ns.max?.getD 0 ≤ m := by
  cases hmax : ns.max? with
  | none => exact Nat.zero_le m
  | some n => exact h n (List.max?_mem hmax)

/-- The depth that is counted is the height of the highest expression. -/
lemma depth_validate (t : Template) (r : Rules) :
    (t.validate r).counts.depth = ((t.exprs.map Expr.height).max?).getD 0 := by
  have hfold : (t.validate r).counts.depth =
      (((t.exprs.map Expr.visits).flatten.map Prod.snd).max?).getD 0 :=
    List.foldl_max.trans (Nat.zero_max _)
  rw [hfold, ← List.flatMap_def, List.map_flatMap]
  apply Nat.le_antisymm
  · apply getD_max?_le
    intro depth hdepth
    obtain ⟨e, he, hdepth⟩ := List.mem_flatMap.1 hdepth
    obtain ⟨visit, hvisit, rfl⟩ := List.mem_map.1 hdepth
    exact (Expr.depth_le_height hvisit).trans (List.le_max?_getD_of_mem (List.mem_map_of_mem he))
  · apply getD_max?_le
    intro height hheight
    obtain ⟨e, he, rfl⟩ := List.mem_map.1 hheight
    obtain ⟨visit, hvisit, hdepth⟩ := e.exists_depth_eq_height
    rw [← hdepth]
    exact List.le_max?_getD_of_mem (List.mem_flatMap.2 ⟨e, he, List.mem_map_of_mem hvisit⟩)

/-- The issues of a validation are those that the rules call for, errors first, then by their offsets,
then by their codes. The template is in order if there is no error, and the counts are those of its
expressions, nodes, calls and references, with the height of the highest expression. -/
theorem validate_exact (t : Template) (r : Rules) :
    (∃ f : Findings, f.Exact t r ∧ (t.validate r).issues.Perm f.all) ∧
    (t.validate r).issues.Pairwise Issue.Precedes ∧
    ((t.validate r).ok = true ↔ ¬ ∃ i ∈ (t.validate r).issues, i.violation.severity = .error) ∧
    (t.validate r).counts =
      { expressions := t.exprs.length
        nodes := Expr.sizeAll t.exprs
        depth := ((t.exprs.map Expr.height).max?).getD 0
        calls := t.calls.length
        accesses := (t.nodes.filter Expr.isAccess).length } := by
  have hexact := t.findings_exact r
  have hperm := t.issues_perm r
  refine ⟨⟨_, hexact, hperm⟩, ?_, ?_, ?_⟩
  · apply Issue.pairwise_sort
    intro i hi
    apply hexact.located
    rw [← hperm.mem_iff, validate]
    exact List.mem_mergeSort.2 hi
  · rw [Validation.ok, List.all_eq_true]
    simp
  · rw [← depth_validate t r, ← length_nodes, validate, nodes_eq]
    rfl

open Element in
/-- A data source that two lists rule out is reported by both, so its kind has two issues. -/
theorem validate_source_twice :
    let t : Template := ⟨"\x7b\x7b$input\x7d\x7d",
      [.expression "$input" (.access ⟨2, 8⟩ .input []) ⟨0, 10⟩], .unbound, {}⟩
    let r : Rules := { allowedSources := ["node"], forbiddenSources := ["input"] }
    Template.parse "\x7b\x7b$input\x7d\x7d" .unbound {} = .ok t ∧
    t.sourceKinds = ["input"] ∧
    ¬ OnePer (fun kind => Omitted r.allowedSources kind ∨ kind ∈ r.forbiddenSources)
      (fun kind i => t.AtFirstUse .sourceNotAllowed kind i ∨ t.AtFirstUse .sourceForbidden kind i)
      t.sourceKinds ((t.validate r).issues.filter fun i => i.violation.isOfSource) := by
  intro t r
  have hspelled : Spelled 2 "$input" [⟨.reference .input [], "$input", ⟨2, 8⟩⟩] :=
    .single ⟨_, _, rfl, rfl⟩ rfl
  have hderives : Derives 0 [⟨.reference .input [], "$input", ⟨2, 8⟩⟩]
      (Level.primary.phrase (.access ⟨2, 8⟩ .input [])) := .access
  have hgap : Gap.Skips ("\x7b\x7b" ++ ("$input" ++ ("\x7d\x7d" ++ ([] : Text)))) [] [] := .done
  have hsplits : Splits none 0 t.source t.elements :=
    .expression hgap hspelled hderives.lower_pipeline within_none (.text .done)
  have hparse : Element.parse t.source none none = .ok t.elements := parseFrom_iff.2 hsplits
  have hlength : ((t.validate r).issues.filter fun i => i.violation.isOfSource).length = 2 :=
    ((List.mergeSort_perm ..).filter _).length_eq.trans rfl
  refine ⟨congrArg (Except.map _) hparse, rfl, fun h => ?_⟩
  have hle := h.length_le
  rw [hlength] at hle
  exact absurd hle (by decide)

end Template

end Stencil
