import Mathlib.Tactic.Lemma
import Stencil.DataSource

/-!
# References are told apart

Main statement: `DataSource.reference_inj`, references with different sources or paths are written
differently as long as no path has a single quote, whatever stands in the identifiers of nodes.
-/

namespace Stencil

/-- Where a unit occurs last, a text is split in one way. -/
lemma append_cons_inj {q : CodeUnit} {a b s t : Text} (hs : q ∉ s) (ht : q ∉ t)
    (h : a ++ q :: s = b ++ q :: t) : a = b ∧ s = t := by
  obtain ⟨w, rfl, hw⟩ | ⟨w, rfl, hw⟩ := List.append_eq_append_iff.1 h
  · cases w with
    | nil => simpa using hw
    | cons u w =>
      obtain ⟨-, rfl⟩ := List.cons_eq_cons.1 hw
      exact absurd (List.mem_append_right _ List.mem_cons_self) hs
  · cases w with
    | nil => simpa using hw.symm
    | cons u w =>
      obtain ⟨-, rfl⟩ := List.cons_eq_cons.1 hw
      exact absurd (List.mem_append_right _ List.mem_cons_self) ht

namespace DataSource

/-- How the path of a reference is written after its source. -/
def written (path : Text) : Text := if path.isEmpty then [] else ('.' : CodeUnit) :: path

/-- By its first three units a label tells its source, up to the identifier of a node. -/
def initials : DataSource → Text
  | .input => "$in"
  | .node _ => "$no"
  | .system => "$sy"
  | .execution => "$ex"
  | .environment => "$en"
  | .workflow => "$wo"

lemma reference_eq_append (source : DataSource) (path : Text) :
    source.reference path = source.label ++ written path := by
  rw [reference, pathLabel, written]
  split
  · rw [List.append_nil]
  · rw [List.append_assoc]
    rfl

lemma take_label (source : DataSource) (t : Text) : (source.label ++ t).take 3 = source.initials := by
  cases source <;> rfl

lemma written_inj {p q : Text} (h : written p = written q) : p = q := by
  cases p <;> cases q
  · rfl
  · cases h
  · cases h
  · exact (List.cons_eq_cons.1 h).2

lemma quote_notMem_written {path : Text} (h : CodeUnit.ofBasic '\'' ∉ path) :
    CodeUnit.ofBasic '\'' ∉ written path := by
  cases path with
  | nil => exact List.not_mem_nil
  | cons u path =>
    intro hmem
    obtain hdot | hmem := List.mem_cons.1 hmem
    · exact absurd hdot (by decide)
    · exact h hmem

lemma label_node_append (id t : Text) :
    (DataSource.node id).label ++ t = "$node('" ++ (id ++ ('\'' : CodeUnit) :: ')' :: t) := by
  simp only [label, List.append_assoc]
  rfl

/-- References with different sources or paths are written differently. -/
theorem reference_inj {source source' : DataSource} {path path' : Text}
    (hpath : CodeUnit.ofBasic '\'' ∉ path) (hpath' : CodeUnit.ofBasic '\'' ∉ path') :
    source.reference path = source'.reference path' ↔ source = source' ∧ path = path' := by
  refine ⟨fun h => ?_, fun ⟨hsource, hpath⟩ => hsource ▸ hpath ▸ rfl⟩
  rw [reference_eq_append, reference_eq_append] at h
  have hinitials : source.initials = source'.initials := by
    rw [← source.take_label (written path), h, take_label]
  cases source <;> cases source'
  case node.node id id' =>
    rw [label_node_append, label_node_append] at h
    -- the quote after the identifier is the last one
    have hclosing {p : Text} (hp : CodeUnit.ofBasic '\'' ∉ p) :
        CodeUnit.ofBasic '\'' ∉ (')' : CodeUnit) :: written p := fun hmem =>
      (List.mem_cons.1 hmem).elim (by decide) (quote_notMem_written hp)
    obtain ⟨rfl, hwritten⟩ :=
      append_cons_inj (hclosing hpath) (hclosing hpath') (List.append_cancel_left h)
    exact ⟨rfl, written_inj (List.cons_eq_cons.1 hwritten).2⟩
  all_goals first
    | exact absurd hinitials (by dsimp only [initials]; decide)
    | exact ⟨rfl, written_inj (List.append_cancel_left h)⟩

/-- A quote in a path could also close an identifier. -/
example : (node "a').b").reference "" = (node "a").reference "b')" := by decide

end DataSource

end Stencil
