import Mathlib.Tactic.Lemma
import Stencil.Text.Basic

/-!
# Splitting, joining and sorting

Text is split at a mark and joined again as lists are. Main statements: `Text.split_join` and
`Text.join_split`. The order by code units is that of lists; `Text.pairwise_sort` says what sorting by
it gives.
-/

namespace Stencil

namespace Text

lemma split_eq_splitOn (mark : CodeUnit) (t : Text) : split mark t = t.splitOn mark := by
  rw [List.splitOn_eq_splitOnP]
  induction t with
  | nil => rfl
  | cons u t ih =>
    rw [split, ih, List.splitOnP_cons_eq_if_modifyHead]
    by_cases hmark : u = mark
    · rw [if_pos hmark, if_pos (beq_iff_eq.2 hmark)]
    · rw [if_neg hmark, if_neg (mt beq_iff_eq.1 hmark)]
      cases h : List.splitOnP (· == mark) t with
      | nil => exact absurd h (List.splitOnP_ne_nil _ _)
      | cons part parts => rfl

lemma join_cons_cons (between s s' : Text) (rest : List Text) :
    join between (s :: s' :: rest) = s ++ between ++ join between (s' :: rest) := rfl

lemma join_eq_intercalate (between : Text) (parts : List Text) :
    join between parts = between.intercalate parts := by
  induction parts with
  | nil => rfl
  | cons part parts ih =>
    cases parts with
    | nil => simp [join, List.intercalate]
    | cons part' parts => rw [join_cons_cons, ih, List.intercalate_cons_cons]

/-- Parts without the mark between them are the parts that the text is split into. -/
lemma split_join {mark : CodeUnit} {parts : List Text} (h : ∀ part ∈ parts, mark ∉ part)
    (hne : parts ≠ []) : split mark (join [mark] parts) = parts := by
  rw [split_eq_splitOn, join_eq_intercalate, List.splitOn_intercalate mark h hne]

/-- The parts of a text with the mark between them are the text. -/
lemma join_split (mark : CodeUnit) (t : Text) : join [mark] (split mark t) = t := by
  rw [split_eq_splitOn, join_eq_intercalate, List.intercalate_splitOn]

lemma split_ne_nil (mark : CodeUnit) (t : Text) : split mark t ≠ [] := by
  rw [split_eq_splitOn]
  exact List.splitOnP_ne_nil _ _

lemma le_iff {s t : Text} : le s t = true ↔ s ≤ t := by
  rw [le, Bool.not_eq_true', decide_eq_false_iff_not, List.not_lt]

/-- Texts that are all different are in strict order when sorted. -/
theorem pairwise_sort {ts : List Text} (h : ts.Nodup) : (ts.mergeSort le).Pairwise (· < ·) := by
  have hsorted : (ts.mergeSort le).Pairwise fun s t => le s t = true := by
    apply List.pairwise_mergeSort
    · intro s t u
      simp only [le_iff]
      exact List.le_trans
    · intro s t
      rw [Bool.or_eq_true, le_iff, le_iff]
      exact List.le_total s t
  have hnodup : (ts.mergeSort le).Nodup := (List.mergeSort_perm ts le).nodup_iff.2 h
  exact hsorted.imp₂ (fun _ _ hle hne => Std.lt_of_le_of_ne (le_iff.1 hle) hne) hnodup

end Text

end Stencil
