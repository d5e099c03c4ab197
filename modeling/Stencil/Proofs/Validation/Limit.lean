import Stencil.Proofs.Validation.Issues

/-!
# Limits of a validation

Whether there are too many nodes, or an expression is too high, and where that is reported. Main
statements: `Rules.exists_of_nodeIssues` and `Rules.exists_of_depthIssues`.
-/

namespace Stencil

/-- The limit is set and counts, and the number exceeds it. -/
structure Exceeded (max : Option Quantity) (limit : Quantity) (n : Nat) : Prop where
  isSet : max = some limit
  counts : (Quantity.whole 0).le limit
  lt : limit.lt n

section

variable {max : Option Quantity} {limit : Quantity}

lemma exceeded_iff {n : Nat} : Exceeded max limit n ↔ effective max = some limit ∧ limit.lt n := by
  rw [effective, Option.filter_eq_some_iff, and_assoc]
  constructor
  · exact fun h => ⟨h.isSet, h.counts, h.lt⟩
  · rintro ⟨hset, hcounts, hlt⟩
    exact ⟨hset, hcounts, hlt⟩

lemma Exceeded.mono {m n : Nat} (h : Exceeded max limit m) (hmn : m ≤ n) : Exceeded max limit n :=
  ⟨h.isSet, h.counts, Quantity.lt_mono h.lt hmn⟩

/-- No limit that counts is below zero. -/
lemma not_exceeded_zero : ¬ Exceeded max limit 0 := by
  intro h
  exact Bool.false_ne_true ((Quantity.not_lt_of_le h.counts).symm.trans h.lt)

end

/-- A search by position finds the first item of which the number of items up to it qualifies. -/
lemma split_of_find?_zipIdx {α : Type} {p : Nat → Bool} {xs : List α} {x : α} {k : Nat}
    (h : xs.zipIdx.find? (fun y => p (y.2 + 1)) = some (x, k)) :
    ∃ before after, xs = before ++ x :: after ∧ k = before.length ∧ p (before.length + 1) = true ∧
      (before = [] ∨ p before.length = false) := by
  obtain ⟨hk, left, right, hsplit, hleft⟩ := List.find?_eq_some_iff_append.1 h
  obtain ⟨before, rest, rfl, rfl, hrest⟩ := List.zipIdx_eq_append_iff.1 hsplit
  obtain ⟨x, after, rfl, ⟨⟩, -⟩ := List.zipIdx_eq_cons_iff.1 hrest.symm
  rw [Nat.zero_add] at hk
  refine ⟨before, after, rfl, Nat.zero_add _, hk, ?_⟩
  -- the item before has one item less up to it
  obtain rfl | ⟨init, y, rfl⟩ := before.eq_nil_or_concat'
  · exact .inl rfl
  · have hlast : (y, init.length) ∈ (init ++ [y]).zipIdx := by
      rw [List.mk_mem_zipIdx_iff_getElem?]
      simp
    refine .inr ?_
    rw [List.length_append]
    exact (Bool.not_eq_true' _).mp (hleft _ hlast)

namespace Rules

variable {r : Rules} {source : Text}

/-- The issue of too many nodes lies at the node that follows as many as are allowed. -/
lemma exists_of_nodeIssues {nodes : List Expr} {limit : Quantity}
    (h : Exceeded r.maxNodes limit nodes.length) :
    ∃ i, r.nodeIssues source nodes = [i] ∧
      ∃ before x after, nodes = before ++ x :: after ∧
        ¬ Exceeded r.maxNodes limit before.length ∧ Exceeded r.maxNodes limit (before.length + 1) ∧
        i = .ofSpan source x.span (.tooManyNodes (before.length + 1) limit) := by
  obtain ⟨heffective, hlength⟩ := exceeded_iff.1 h
  have hnonempty : r.nodeIssues source nodes ≠ [] := by
    intro hnil
    rw [length_of_nodeIssues h.counts h.isSet hnil] at hlength
    cases hlength
  rw [nodeIssues, heffective] at hnonempty ⊢
  dsimp only at hnonempty ⊢
  split
  · next x k hfind =>
    obtain ⟨before, after, hnodes, rfl, hlt, hbefore⟩ :=
      split_of_find?_zipIdx (p := fun n => limit.lt (n : Nat)) hfind
    refine ⟨_, rfl, before, x, after, hnodes, ?_, ⟨h.isSet, h.counts, hlt⟩, rfl⟩
    obtain rfl | hwithin := hbefore
    · exact not_exceeded_zero
    · exact fun hexceeded => Bool.false_ne_true (hwithin.symm.trans hexceeded.lt)
  · next hnone =>
    rw [hnone] at hnonempty
    exact absurd rfl hnonempty

lemma nodeIssues_eq_nil {nodes : List Expr}
    (h : ¬ ∃ limit, Exceeded r.maxNodes limit nodes.length) : r.nodeIssues source nodes = [] := by
  unfold nodeIssues
  split
  · rfl
  · next limit heffective =>
    split
    · next x k hfind =>
      obtain ⟨before, after, rfl, rfl, hlt, -⟩ :=
        split_of_find?_zipIdx (p := fun n => limit.lt (n : Nat)) hfind
      refine absurd ⟨limit, (exceeded_iff.2 ⟨heffective, hlt⟩).mono ?_⟩ h
      rw [List.length_append, List.length_cons]
      omega
    · rfl

/-- A node is too deep exactly where the expression is too high. -/
lemma exceeded_height {limit : Quantity} {e : Expr} :
    Exceeded r.maxDepth limit e.height ↔ ∃ visit ∈ e.visits, Exceeded r.maxDepth limit visit.2 := by
  constructor
  · intro h
    obtain ⟨visit, hvisit, hdepth⟩ := e.exists_depth_eq_height
    exact ⟨visit, hvisit, hdepth ▸ h⟩
  · rintro ⟨visit, hvisit, h⟩
    exact h.mono (Expr.depth_le_height hvisit)

lemma exists_of_depthIssues {e : Expr} {limit : Quantity} (h : Exceeded r.maxDepth limit e.height) :
    ∃ i, r.depthIssues source e.visits = [i] ∧
      ∃ x depth, First (fun visit => Exceeded r.maxDepth limit visit.2) e.visits (x, depth) ∧
        i = .ofSpan source x.span (.tooDeep depth limit) := by
  obtain ⟨heffective, -⟩ := exceeded_iff.1 h
  obtain ⟨visit, hvisit, hexceeded⟩ := exceeded_height.1 h
  rw [depthIssues, heffective]
  dsimp only
  split
  · next x depth hfind =>
    refine ⟨_, rfl, x, depth, first_of_find? ?_ hfind, rfl⟩
    intro visit
    rw [exceeded_iff, and_iff_right heffective]
  · next hnone => exact absurd hexceeded.lt (List.find?_eq_none.1 hnone visit hvisit)

lemma depthIssues_eq_nil {e : Expr} (h : ¬ ∃ limit, Exceeded r.maxDepth limit e.height) :
    r.depthIssues source e.visits = [] := by
  unfold depthIssues
  split
  · rfl
  · next limit heffective =>
    split
    · next x depth hfind =>
      obtain ⟨hlt, -⟩ := List.find?_eq_some_iff_append.1 hfind
      have hvisit := List.mem_of_find?_eq_some hfind
      exact absurd ⟨limit, exceeded_height.2 ⟨_, hvisit, exceeded_iff.2 ⟨heffective, hlt⟩⟩⟩ h
    · rfl

end Rules

end Stencil
