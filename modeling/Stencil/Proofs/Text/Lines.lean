import Mathlib.Tactic.Lemma
import Stencil.Proofs.Text
import Stencil.Proofs.Text.Quoted

/-!
# Line feeds

How many lines a text has, and of which lines a text is made that is joined of others. Main statements:
`Text.length_split`, `Text.split_join_flatMap` and `Text.length_lines_iff`.
-/

namespace Stencil

namespace Text

variable {s t : Text}

/-- The parts of a text are one more than the marks in it. -/
lemma length_split (mark : CodeUnit) (t : Text) : (t.split mark).length = t.count mark + 1 := by
  induction t with
  | nil => rfl
  | cons u t ih =>
    rw [split]
    by_cases h : u = mark
    · rw [if_pos h, List.length_cons, ih, h, List.count_cons_self]
    · rw [if_neg h, List.count_cons_of_ne h, ← ih]
      cases hsplit : split mark t with
      | nil => exact absurd hsplit (split_ne_nil mark t)
      | cons part parts => rfl

/-- A mark between two texts parts them. -/
lemma split_append_cons (mark : CodeUnit) (s t : Text) :
    split mark (s ++ mark :: t) = split mark s ++ split mark t := by
  induction s with
  | nil => exact if_pos rfl
  | cons u s ih =>
    rw [List.cons_append, split, split, ih]
    by_cases h : u = mark
    · rw [if_pos h, if_pos h, List.cons_append]
    · rw [if_neg h, if_neg h]
      cases hsplit : split mark s with
      | nil => exact absurd hsplit (split_ne_nil mark s)
      | cons part parts => rfl

/-- The parts of a text that is joined of others are the parts of these, one after the other. -/
lemma split_join_flatMap (mark : CodeUnit) {parts : List Text} (hne : parts ≠ []) :
    split mark (join [mark] parts) = parts.flatMap (split mark) := by
  induction parts with
  | nil => exact absurd rfl hne
  | cons part parts ih =>
    cases parts with
    | nil => rw [List.flatMap_singleton]; rfl
    | cons part' parts =>
      rw [join_cons_cons, List.append_assoc, List.singleton_append, split_append_cons,
        ih (List.cons_ne_nil _ _)]
      rfl

/-- How many line feeds a text has. -/
def lineFeeds (t : Text) : Nat := t.count ('\n' : CodeUnit)

lemma lineFeeds_append (s t : Text) : (s ++ t).lineFeeds = s.lineFeeds + t.lineFeeds := List.count_append

lemma lineFeeds_eq_zero : t.lineFeeds = 0 ↔ ('\n' : CodeUnit) ∉ t := List.count_eq_zero

/-- A text without line feeds is its only line. -/
lemma split_of_lineFeeds (h : t.lineFeeds = 0) : t.split '\n' = [t] :=
  split_join (List.forall_mem_singleton.2 (lineFeeds_eq_zero.1 h)) (List.cons_ne_nil _ _)

lemma lineFeeds_quote (t : Text) : t.quote.lineFeeds = 0 :=
  lineFeeds_eq_zero.2 fun h => absurd (le_of_mem_quote h) (by decide)

/-- The line feeds of a text that is joined of others are theirs and those between them. -/
lemma lineFeeds_join (between : Text) (parts : List Text) :
    (join between parts).lineFeeds =
      (parts.map fun t => t.lineFeeds + between.lineFeeds).sum - between.lineFeeds := by
  induction parts with
  | nil => exact (Nat.zero_sub _).symm
  | cons part rest ih =>
    cases rest with
    | nil => exact (Nat.add_sub_cancel _ _).symm
    | cons part' rest =>
      have hsum (part : Text) (rest : List Text) :
          ((part :: rest).map fun t => t.lineFeeds + between.lineFeeds).sum =
            part.lineFeeds + between.lineFeeds + (rest.map fun t => t.lineFeeds + between.lineFeeds).sum :=
        List.sum_cons
      rw [join_cons_cons, lineFeeds_append, lineFeeds_append, ih, hsum part, hsum part']
      omega

/-- Texts that are joined by line feeds have one line each exactly if no line feeds are in them. -/
lemma length_lines_iff {parts : List Text} (hne : parts ≠ []) :
    ((join "\n" parts).split '\n').length = parts.length ↔ ∀ t ∈ parts, t.lineFeeds = 0 := by
  have hlength (parts : List Text) :
      (parts.flatMap (split '\n')).length = (parts.map lineFeeds).sum + parts.length := by
    induction parts with
    | nil => rfl
    | cons part parts ih =>
      rw [List.flatMap_cons, List.length_append, length_split, ih, List.map_cons, List.sum_cons,
        List.length_cons, lineFeeds]
      omega
  have hlines : (join "\n" parts).split '\n' = parts.flatMap (split '\n') :=
    split_join_flatMap '\n' hne
  rw [hlines, hlength, Nat.add_eq_right, List.sum_eq_zero_iff_forall_eq_nat, List.forall_mem_map]

lemma infix_join {between : Text} {parts : List Text} (h : s ∈ parts) : s <:+: join between parts := by
  induction parts with
  | nil => cases h
  | cons part rest ih =>
    cases rest with
    | nil =>
      rw [List.mem_singleton.1 h]
      exact List.infix_refl _
    | cons part' rest =>
      rw [join_cons_cons]
      obtain rfl | h := List.mem_cons.1 h
      · exact ⟨[], between ++ join between (part' :: rest), by simp⟩
      · exact (ih h).trans ⟨part ++ between, [], by simp⟩

end Text

end Stencil
