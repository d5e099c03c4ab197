import Stencil.Proofs.Expr.Nodes
import Stencil.Proofs.Number.Quantity
import Stencil.Proofs.Registry.Signature
import Stencil.Proofs.Validation.FirstUse

/-!
# Issues of a validation

Which issues the single checks of a validation find. Main statements: `Rules.mem_operatorIssues`,
`Rules.exists_of_mem_callIssues` and its converses `Rules.callIssues_arity` and
`Rules.callIssues_name`; `Template.mem_issues` joins the checks.
-/

namespace Stencil

/-- The nodes of all expressions, in the order in which a traversal visits them. -/
def Template.nodes (t : Template) : List Expr := t.exprs.flatMap Expr.nodes

/-- The calls of all expressions. -/
def Template.calls (t : Template) : List CallSite := t.nodes.flatMap Expr.callSites

lemma lacks_eq_true {list : List Text} {name : Text} :
    lacks list name = true ↔ list ≠ [] ∧ name ∉ list := by
  rw [lacks, Bool.and_eq_true, Bool.not_eq_true', List.isEmpty_eq_false_iff, Bool.not_eq_true',
    ← Bool.not_eq_true, List.contains_iff_mem]

namespace Rules

variable {r : Rules} {registry : Registry} {source : Text}

lemma exists_of_mem_nodeIssues {nodes : List Expr} {i : Issue}
    (h : i ∈ r.nodeIssues source nodes) : ∃ count limit, i.violation = .tooManyNodes count limit := by
  unfold nodeIssues at h
  split at h
  · cases h
  · split at h
    · rw [List.mem_singleton] at h
      subst h
      exact ⟨_, _, rfl⟩
    · cases h

/-- Where no node is one too many, the nodes do not exceed the limit on their number. -/
lemma length_of_nodeIssues {nodes : List Expr} {limit : Quantity}
    (hlimit : (Quantity.whole 0).le limit) (hmax : r.maxNodes = some limit)
    (h : r.nodeIssues source nodes = []) : limit.lt nodes.length = false := by
  rw [nodeIssues, hmax, effective_of_le hlimit] at h
  dsimp only at h
  split at h
  · cases h
  · next hnone =>
    cases hn : nodes.length with
    | zero => exact Quantity.not_lt_of_le hlimit
    | succ k =>
      -- the last node has all others before it
      have hlast : (nodes[k], k) ∈ nodes.zipIdx := by
        rw [List.mk_mem_zipIdx_iff_getElem?]
        exact List.getElem?_eq_getElem _
      exact Bool.eq_false_iff.2 (List.find?_eq_none.1 hnone _ hlast)

lemma exists_of_mem_depthIssues {visits : List (Expr × Nat)} {i : Issue}
    (h : i ∈ r.depthIssues source visits) : ∃ depth limit, i.violation = .tooDeep depth limit := by
  unfold depthIssues at h
  split at h
  · cases h
  · split at h
    · rw [List.mem_singleton] at h
      subst h
      exact ⟨_, _, rfl⟩
    · cases h

lemma exists_of_mem_sourceIssues {nodes : List Expr} {seen : List Text} {i : Issue}
    (h : i ∈ r.sourceIssues source seen nodes) :
    ∃ kind, i.violation = .sourceNotAllowed kind ∨ i.violation = .sourceForbidden kind := by
  rw [sourceIssues_eq] at h
  obtain ⟨x, -, h⟩ := List.mem_flatMap.1 h
  obtain ⟨kind, -, h⟩ := List.mem_flatMap.1 h
  obtain h | h := List.mem_append.1 h
  · obtain ⟨-, hi⟩ := List.mem_ite_nil_right.1 h
    exact ⟨kind, .inl (List.mem_singleton.1 hi ▸ rfl)⟩
  · obtain ⟨-, hi⟩ := List.mem_ite_nil_right.1 h
    exact ⟨kind, .inr (List.mem_singleton.1 hi ▸ rfl)⟩

lemma unsupported?_eq_some {x : Expr} {v : Violation} :
    x.unsupported? = some v ↔
      ∃ span op left right, x = .binary span op left right ∧ op.isSupported = false ∧
        v = .unsupported op := by
  constructor
  · intro h
    cases x with
    | binary span op left right =>
      rw [Expr.unsupported?] at h
      split at h
      · cases h
      · next hop =>
        cases h
        exact ⟨span, op, left, right, rfl, Bool.eq_false_iff.2 hop, rfl⟩
    | _ => cases h
  · rintro ⟨span, op, left, right, rfl, hop, rfl⟩
    rw [Expr.unsupported?, hop]
    rfl

/-- Exactly the nodes whose operator is not supported are found. -/
theorem mem_operatorIssues {nodes : List Expr} {i : Issue} :
    i ∈ operatorIssues source nodes ↔
      ∃ span op left right, .binary span op left right ∈ nodes ∧ op.isSupported = false ∧
        i = .ofSpan source span (.unsupported op) := by
  rw [operatorIssues, List.mem_filterMap]
  constructor
  · rintro ⟨x, hx, h⟩
    rw [Option.map_eq_some_iff] at h
    obtain ⟨v, hv, rfl⟩ := h
    obtain ⟨span, op, left, right, rfl, hop, rfl⟩ := unsupported?_eq_some.1 hv
    exact ⟨span, op, left, right, hx, hop, rfl⟩
  · rintro ⟨span, op, left, right, hx, hop, rfl⟩
    refine ⟨_, hx, ?_⟩
    rw [unsupported?_eq_some.2 ⟨span, op, left, right, rfl, hop, rfl⟩]
    rfl

lemma mem_nameViolations {name : Text} {v : Violation} :
    v ∈ r.nameViolations registry name ↔
      (lacks r.allowedFunctions name = true ∧ v = .functionNotAllowed name) ∨
      (r.forbiddenFunctions.contains name = true ∧ v = .functionForbidden name) ∨
      (registry.find? name = none ∧ v = .unknownFunction name registry.bound) := by
  have hhas : registry.has name = true ↔ registry.find? name ≠ none := Option.isSome_iff_ne_none
  unfold nameViolations
  rw [List.mem_append, List.mem_append, or_assoc]
  refine or_congr ?_ (or_congr ?_ ?_)
  · split <;> simp_all
  · split <;> simp_all
  · split <;> simp_all

/-- A call has the wrong number of arguments if its function is registered with a signature that does
not allow the number. -/
lemma arityViolation?_eq_some {call : CallSite} {v : Violation} :
    arityViolation? registry call = some v ↔
      ∃ f s, registry.find? call.name = some f ∧ f.signature = some s ∧ ¬ s.Allows call.args ∧
        v = .arity call.name call.args s.least s.most? := by
  have hallows (s : Signature) :
      (call.args < s.least || s.exceeds call.args) = true ↔ ¬ s.Allows call.args := by
    rw [Signature.Allows, not_and_or, Bool.or_eq_true, decide_eq_true_eq, Nat.not_le,
      Bool.not_eq_false]
  unfold arityViolation?
  rw [Option.bind_eq_bind, Option.bind_eq_some_iff]
  constructor
  · rintro ⟨f, hf, h⟩
    rw [Option.bind_eq_bind, Option.bind_eq_some_iff] at h
    obtain ⟨s, hs, h⟩ := h
    split at h
    · next hcount =>
      cases h
      exact ⟨f, s, hf, hs, (hallows s).1 hcount, rfl⟩
    · cases h
  · rintro ⟨f, s, hf, hs, hcount, rfl⟩
    refine ⟨f, hf, ?_⟩
    rw [Option.bind_eq_bind, Option.bind_eq_some_iff]
    exact ⟨s, hs, if_pos ((hallows s).2 hcount)⟩

lemma takes_of_arityViolation? {call : CallSite} {f : Registration}
    (h : arityViolation? registry call = none) (hf : registry.find? call.name = some f) :
    f.Takes call.args := by
  intro s hs
  by_contra hcount
  rw [arityViolation?_eq_some.2 ⟨f, s, hf, hs, hcount, rfl⟩] at h
  cases h

/-- The violations found at calls are those of a name or of a number of arguments. -/
theorem exists_of_mem_callIssues {calls : List CallSite} {seen : List Text} {i : Issue}
    (h : i ∈ r.callIssues registry source seen calls) :
    ∃ call ∈ calls, ∃ v, i = .ofSpan source call.span v ∧
      (v ∈ r.nameViolations registry call.name ∨ arityViolation? registry call = some v) := by
  obtain h | h := List.mem_append.1 ((callIssues_perm seen calls).mem_iff.1 h)
  · obtain ⟨call, hcall, h⟩ := List.mem_flatMap.1 h
    obtain ⟨v, hv, rfl⟩ := List.mem_map.1 h
    exact ⟨call, (firsts_sublist ..).mem hcall, v, rfl, .inl hv⟩
  · obtain ⟨call, hcall, h⟩ := List.mem_flatMap.1 h
    obtain ⟨v, hv, rfl⟩ := List.mem_map.1 h
    exact ⟨call, hcall, v, rfl, .inr (Option.mem_toList.1 hv)⟩

/-- A wrong number of arguments is found at every call. -/
theorem callIssues_arity {calls : List CallSite} {seen : List Text} {call : CallSite}
    {v : Violation} (hcall : call ∈ calls) (hv : arityViolation? registry call = some v) :
    .ofSpan source call.span v ∈ r.callIssues registry source seen calls := by
  have hmem : .ofSpan source call.span v ∈
      (arityViolation? registry call).toList.map (Issue.ofSpan source call.span) :=
    List.mem_map_of_mem (Option.mem_toList.2 hv)
  rw [(callIssues_perm seen calls).mem_iff]
  exact List.mem_append_right _ (List.mem_flatMap.2 ⟨call, hcall, hmem⟩)

/-- A violation of a name is found at its first call. -/
theorem callIssues_name {calls : List CallSite} {seen : List Text} {call : CallSite} {v : Violation}
    (hcall : call ∈ calls) (hseen : call.name ∉ seen)
    (hv : v ∈ r.nameViolations registry call.name) :
    ∃ span, .ofSpan source span v ∈ r.callIssues registry source seen calls := by
  obtain ⟨first, hfirst, hname⟩ :=
    exists_mem_firsts (fun call : CallSite => some call.name) hcall rfl hseen
  refine ⟨first.span, ?_⟩
  rw [← Option.some.inj hname] at hv
  rw [(callIssues_perm seen calls).mem_iff]
  exact List.mem_append_left _ (List.mem_flatMap.2 ⟨first, hfirst, List.mem_map_of_mem hv⟩)

end Rules

namespace Template

lemma nodes_eq (t : Template) :
    (t.exprs.map Expr.visits).flatten.map Prod.fst = t.nodes := by
  rw [nodes, ← List.flatMap_def, List.map_flatMap]
  rfl

/-- The issues of a validation are those of its checks. -/
theorem mem_issues {t : Template} {r : Rules} {i : Issue} :
    i ∈ (t.validate r).issues ↔
      i ∈ r.nodeIssues t.source t.nodes ∨
      i ∈ (t.exprs.map Expr.visits).flatMap (r.depthIssues t.source) ∨
      i ∈ Rules.operatorIssues t.source t.nodes ∨
      i ∈ r.callIssues (r.registry.getD t.functions) t.source [] t.calls ∨
      i ∈ r.sourceIssues t.source [] t.nodes := by
  rw [validate]
  simp only [List.mem_mergeSort, List.mem_append, nodes_eq, or_assoc]
  rfl

end Template

end Stencil
