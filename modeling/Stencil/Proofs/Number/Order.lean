import Mathlib.Tactic.Lemma
import Stencil.Proofs.Number.Whole

/-!
# Quantities that are at most an integer

Limits need not be integers. Main statement: `Quantity.ceiling_min_le`, a limit of at most `n` lets at most
`n` parts through.
-/

namespace Stencil

namespace Quantity

variable {q : Quantity} {m n : Nat}

lemma le_whole_iff : q.le n ↔ q.isNaN = false ∧ (whole n).lt q = false := by
  have hn : (whole n).isNaN = false := rfl
  rw [le, hn, Bool.not_false, Bool.and_true, Bool.and_eq_true, Bool.not_eq_true', Bool.not_eq_true']

lemma whole_le_iff {i : Int} : (whole i).le q ↔ q.isNaN = false ∧ q.lt (whole i) = false := by
  have hi : (whole i).isNaN = false := rfl
  rw [le, hi, Bool.not_false, Bool.true_and, Bool.and_eq_true, Bool.not_eq_true', Bool.not_eq_true']

/-- Between an integer below a quantity and one that is not below lies a step. -/
lemma lt_of_lt {i j : Int} (hi : (whole i).lt q) (hj : (whole j).lt q = false) : i < j := by
  cases q with
  | whole k =>
    rw [lt, decide_eq_true_eq] at hi
    rw [lt, decide_eq_false_iff_not] at hj
    omega
  | other x =>
    cases x with
    | nan => cases hi
    | infinite s =>
      rw [lt, Bool.not_eq_true'] at hi
      rw [lt, hi] at hj
      cases hj
    | finite s m =>
      rw [lt, decide_eq_true_eq] at hi
      rw [lt, decide_eq_false_iff_not] at hj
      exact Int.lt_of_mul_lt_mul_right (Int.lt_of_lt_of_le hi (Int.not_lt.1 hj)) (Int.natCast_nonneg _)

lemma le_trans (h : q.le m) (hmn : m ≤ n) : q.le n := by
  rw [le_whole_iff] at h ⊢
  refine ⟨h.1, Bool.eq_false_iff.2 fun hlt => ?_⟩
  have := lt_of_lt hlt h.2
  omega

lemma lt_of_le (h : q.le m) (hmn : m < n) : q.lt n := by
  obtain ⟨hnan, hm⟩ := le_whole_iff.1 h
  cases q with
  | whole k =>
    rw [lt, decide_eq_false_iff_not] at hm
    rw [lt, decide_eq_true_eq]
    omega
  | other x =>
    cases x with
    | nan => cases hnan
    | infinite s =>
      rw [lt, Bool.not_eq_false'] at hm
      exact hm
    | finite s k =>
      rw [lt, decide_eq_false_iff_not, Int.not_lt] at hm
      rw [lt, decide_eq_true_eq]
      refine Int.lt_of_le_of_lt hm ?_
      exact Int.mul_lt_mul_of_pos_right (Int.ofNat_lt.2 hmn) (Int.natCast_pos.2 Number.one_pos)

lemma times_le (h : q.le n) : q.times ≤ n := by
  obtain ⟨hnan, hn⟩ := le_whole_iff.1 h
  rw [times]
  cases q with
  | whole k =>
    rw [lt, decide_eq_false_iff_not] at hn
    change k.toNat ≤ n
    omega
  | other x =>
    cases x with
    | nan => cases hnan
    | infinite => exact Nat.zero_le n
    | finite s m =>
      rw [lt, decide_eq_false_iff_not, Int.not_lt, ← Int.natCast_mul] at hn
      change (Number.signed s (m.units / Number.one)).toNat ≤ n
      cases s with
      | true =>
        rw [Number.signed, if_pos rfl]
        generalize m.units / Number.one = k
        omega
      | false =>
        exact Nat.div_le_of_le_mul (Nat.mul_comm n _ ▸ Int.ofNat_le.1 hn)

lemma ceiling_le (h : q.le n) : q.ceiling ≤ n := by
  obtain ⟨hnan, hn⟩ := le_whole_iff.1 h
  rw [ceiling]
  split
  · next hmore =>
    have := lt_of_lt (Bool.and_eq_true_iff.1 hmore).1 hn
    omega
  · exact times_le h

/-- A limit of at most `n` lets at most `n` parts through. -/
theorem ceiling_min_le (h : q.le n) (size : Nat) : Quantity.ceiling (.min size q) ≤ n := by
  obtain ⟨hnan, hn⟩ := le_whole_iff.1 h
  have hsize : (size : Quantity).isNaN = false := rfl
  rw [min, hsize, hnan, if_neg Bool.false_ne_true, if_neg Bool.false_ne_true]
  split
  · exact ceiling_le h
  · next hlt =>
    have hle : size ≤ n := Nat.le_of_not_lt fun hmore => hlt (lt_of_le h hmore)
    exact ceiling_le (le_whole_iff.2 ⟨rfl, decide_eq_false (by omega)⟩)

end Quantity

end Stencil
