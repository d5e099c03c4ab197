import Stencil.Proofs.Text
import Stencil.Validation.Issue

/-!
# The order of issues

Issues that begin at whole offsets are in a total order: errors first, then by the offset, then by the
code. Main statement: `Issue.pairwise_sort`, sorting puts them in this order.
-/

namespace Stencil

namespace Issue

/-- The offset at which an issue begins; zero if it has none. -/
def start (i : Issue) : Int :=
  match i.site.map Site.index with
  | some (.whole n) => n
  | _ => 0

/-- Errors precede warnings. Of issues of the same severity the one that begins first precedes, and
where they begin together, the code decides. -/
inductive Precedes (a b : Issue) : Prop where
  | severity (ha : a.violation.severity = .error) (hb : b.violation.severity = .warning)
  | start (hsame : a.violation.severity = b.violation.severity) (hlt : a.start < b.start)
  | code (hsame : a.violation.severity = b.violation.severity) (hstart : a.start = b.start)
    (hle : a.violation.code ≤ b.violation.code)

/-- The issue begins at a whole offset. -/
def Located (i : Issue) : Prop := ∃ n, i.site.map Site.index = some (.whole n)

lemma located_ofSpan (source : Text) (span : Span) (v : Violation) : (ofSpan source span v).Located :=
  ⟨span.start, rfl⟩

section

variable {a b c : Issue}

lemma Precedes.trans (h : a.Precedes b) (h' : b.Precedes c) : a.Precedes c := by
  cases h with
  | severity ha hb =>
    cases h' with
    | severity hb' => exact absurd (hb.symm.trans hb') nofun
    | start hsame => exact .severity ha (hsame ▸ hb)
    | code hsame => exact .severity ha (hsame ▸ hb)
  | start hsame hlt =>
    cases h' with
    | severity hb hc => exact .severity (hsame.trans hb) hc
    | start hsame' hlt' => exact .start (hsame.trans hsame') (Int.lt_trans hlt hlt')
    | code hsame' hstart' => exact .start (hsame.trans hsame') (hstart' ▸ hlt)
  | code hsame hstart hle =>
    cases h' with
    | severity hb hc => exact .severity (hsame.trans hb) hc
    | start hsame' hlt' => exact .start (hsame.trans hsame') (hstart ▸ hlt')
    | code hsame' hstart' hle' =>
      exact .code (hsame.trans hsame') (hstart.trans hstart') (List.le_trans hle hle')

lemma Precedes.total (a b : Issue) : a.Precedes b ∨ b.Precedes a := by
  cases ha : a.violation.severity <;> cases hb : b.violation.severity
  case error.warning => exact .inl (.severity ha hb)
  case warning.error => exact .inr (.severity hb ha)
  all_goals
    have hsame := ha.trans hb.symm
    obtain hlt | hstart | hlt := Int.lt_trichotomy a.start b.start
    · exact .inl (.start hsame hlt)
    · obtain hle | hle := List.le_total a.violation.code b.violation.code
      · exact .inl (.code hsame hstart hle)
      · exact .inr (.code hsame.symm hstart.symm hle)
    · exact .inr (.start hsame.symm hlt)

/-- The sort compares issues with whole offsets by this order. -/
lemma le_iff (ha : a.Located) (hb : b.Located) : a.le b = true ↔ a.Precedes b := by
  obtain ⟨m, hm⟩ := ha
  obtain ⟨n, hn⟩ := hb
  have hstart : a.start = m := by rw [Issue.start, hm]
  have hstart' : b.start = n := by rw [Issue.start, hn]
  simp only [le, hm, hn, Option.getD_some, Quantity.lt, decide_eq_true_eq]
  constructor
  · intro h
    split at h
    · next hne =>
      refine .severity (of_decide_eq_true h) ?_
      cases hb : b.violation.severity with
      | error => exact absurd ((of_decide_eq_true h).trans hb.symm) hne
      | warning => rfl
    · next hsame =>
      rw [ne_eq, Decidable.not_not] at hsame
      split at h
      · exact .start hsame (by omega)
      · split at h
        · cases h
        · exact .code hsame (by omega) (Text.le_iff.1 h)
  · rintro (⟨ha, hb⟩ | ⟨hsame, hlt⟩ | ⟨hsame, heq, hle⟩)
    · rw [if_pos (by rw [ha, hb]; decide), ha]
      rfl
    · rw [if_neg (Decidable.not_not.2 hsame), if_pos (by omega)]
    · rw [if_neg (Decidable.not_not.2 hsame), if_neg (by omega), if_neg (by omega)]
      exact Text.le_iff.2 hle

end

/-- Sorting puts issues with whole offsets in order. -/
theorem pairwise_sort {issues : List Issue} (h : ∀ i ∈ issues, i.Located) :
    (issues.mergeSort le).Pairwise Precedes := by
  classical
  -- only between issues with whole offsets is the comparison an order
  have hmap : (issues.mergeSort fun a b => decide (a.Precedes b)).map id =
      (issues.map id).mergeSort le := by
    apply List.map_mergeSort
    intro a ha b hb
    exact Bool.eq_iff_iff.2 (decide_eq_true_iff.trans (le_iff (h a ha) (h b hb)).symm)
  rw [List.map_id, List.map_id] at hmap
  rw [← hmap]
  have hsorted : (issues.mergeSort fun a b => decide (a.Precedes b)).Pairwise
      fun a b => decide (a.Precedes b) = true := by
    apply List.pairwise_mergeSort
    · intro a b c
      simp only [decide_eq_true_eq]
      exact Precedes.trans
    · intro a b
      rw [Bool.or_eq_true, decide_eq_true_eq, decide_eq_true_eq]
      exact Precedes.total a b
  exact hsorted.imp of_decide_eq_true

end Issue

end Stencil
