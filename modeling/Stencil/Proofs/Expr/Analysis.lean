import Stencil.Expr.Analysis
import Stencil.Proofs.Expr.Dependencies

/-!
# What an analysis lists

An analysis notes the nodes of an expression one after the other. Main statements:
`Expr.nodes_analyze`, it counts all of them; `Expr.functions_analyze` and `Expr.references_analyze`, the
functions and references that it lists are theirs.
-/

namespace Stencil

namespace Analysis

/-- Notes a node that was entered at a depth. -/
def enter (a : Analysis) (visit : Expr × Nat) : Analysis := a.note visit.1 visit.2

/-- Every note is of one node more. -/
lemma nodes_enter (a : Analysis) (visit : Expr × Nat) : (a.enter visit).nodes = a.nodes + 1 := by
  obtain ⟨e, depth⟩ := visit
  cases e <;> rfl

lemma nodes_foldl (visits : List (Expr × Nat)) (a : Analysis) :
    (visits.foldl enter a).nodes = a.nodes + visits.length := by
  induction visits generalizing a with
  | nil => rfl
  | cons visit rest ih =>
    rw [List.foldl_cons, ih, nodes_enter, List.length_cons]
    omega

lemma functions_enter (a : Analysis) (visit : Expr × Nat) :
    (a.enter visit).functions =
      (visit.1.callSites.map CallSite.name).foldl adjoin a.functions := by
  obtain ⟨e, depth⟩ := visit
  cases e with
  | pipeline =>
    rw [Expr.callSites, List.map_map, List.foldl_map]
    rfl
  | _ => rfl

lemma references_enter (a : Analysis) (visit : Expr × Nat) :
    (a.enter visit).references =
      (visit.1.ownReads.map fun x => x.1.reference x.2).foldl adjoin a.references := by
  obtain ⟨e, depth⟩ := visit
  cases e <;> rfl

end Analysis

namespace Expr

/-- An analysis notes the nodes in order, and sorts names at the end. -/
lemma analyze_eq (e : Expr) : e.analyze = (e.visits.foldl Analysis.enter {}).sorted := by
  have hwalk : e.traverse (.noting fun x depth a => Analysis.note x depth a) {} =
      e.visits.foldl Analysis.enter {} := by
    rw [traverse, Visitor.walk_noting, visits_eq]
    rfl
  exact congrArg Analysis.sorted hwalk

/-- An analysis counts the nodes. -/
lemma nodes_analyze (e : Expr) : e.analyze.nodes = e.nodes.length := by
  have hcount : e.analyze.nodes = (e.visits.foldl Analysis.enter {}).nodes := by
    rw [analyze_eq]
    rfl
  rw [hcount, Analysis.nodes_foldl, nodes, List.length_map]
  exact Nat.zero_add _

/-- The functions that an analysis lists are those of the nodes, each once and by name. -/
theorem functions_analyze (e : Expr) :
    e.analyze.functions = e.callNames.eraseDups.mergeSort Text.le := by
  have hsorted : e.analyze.functions =
      (e.visits.foldl Analysis.enter {}).functions.mergeSort Text.le := by
    rw [analyze_eq]
    rfl
  rw [hsorted, foldl_adjoins Analysis.functions_enter, foldl_adjoin, callNames, nodes,
    List.flatMap_map, List.map_flatMap]

/-- The references that an analysis lists are those of the nodes, each text once. -/
theorem references_analyze (e : Expr) :
    e.analyze.references = (e.reads.map fun x => x.1.reference x.2).eraseDups := by
  have hreferences : e.analyze.references = (e.visits.foldl Analysis.enter {}).references := by
    rw [analyze_eq]
    rfl
  rw [hreferences, foldl_adjoins Analysis.references_enter, foldl_adjoin, reads, nodes,
    List.flatMap_map, List.map_flatMap]

lemma mem_references {e : Expr} {r : Text} :
    r ∈ e.analyze.references ↔
      ∃ span source path, .access span source path ∈ e.nodes ∧ r = source.reference path := by
  rw [references_analyze, List.mem_eraseDups, List.mem_map]
  constructor
  · rintro ⟨⟨source, path⟩, hread, rfl⟩
    obtain ⟨span, hx⟩ := mem_reads.1 hread
    exact ⟨span, source, path, hx, rfl⟩
  · rintro ⟨span, source, path, hx, rfl⟩
    exact ⟨(source, path), mem_reads.2 ⟨span, hx⟩, rfl⟩

end Expr

end Stencil
