import Mathlib.Algebra.Group.Nat.Defs
import Mathlib.Tactic.Lemma
import Stencil.Text.Basic

/-!
# Decimal digits

The digits of a natural number write that number. Main statements: `Text.toNat_ofNat`, and
`Text.length_padded` for numbers with zeros in front.
-/

namespace Stencil

lemma CodeUnit.ofBasic_digit {c : Char} (h : c.isDigit) :
    (ofBasic c).isDigit ∧ (ofBasic c).digitValue = c.toNat - '0'.toNat := by
  have hrange : 48 ≤ c.toNat ∧ c.toNat ≤ 57 := by
    simp only [Char.isDigit, Bool.and_eq_true, decide_eq_true_eq, ge_iff_le,
      UInt32.le_iff_toNat_le] at h
    exact h
  have hvalue : (ofBasic c).toNat = c.toNat := by
    have hmod : (ofBasic c).toNat = c.toNat % 65536 := UInt32.toNat_toUInt16 c.val
    rw [hmod]
    omega
  constructor
  · simp only [isDigit, Bool.and_eq_true, decide_eq_true_eq, UInt16.le_iff_toNat_le, hvalue,
      UInt16.reduceToNat]
    exact hrange
  · rw [digitValue, hvalue]
    rfl

/-- A number is below the power of ten of as many zeros as it has digits. -/
lemma Digits.lt_pow_length (n : Nat) : n < 10 ^ (Nat.toDigits 10 n).length :=
  (Nat.length_toDigits_le_iff (by decide) Nat.length_toDigits_pos).1 (Nat.le_refl _)

/-- A number is not below the power of ten with one zero less. -/
lemma Digits.pow_le_of_length {n k : Nat} (hn : n ≠ 0) (h : k < (Nat.toDigits 10 n).length) : 10 ^ k ≤ n := by
  rcases Nat.eq_zero_or_pos k with rfl | hpos
  · exact Nat.pos_of_ne_zero hn
  · refine Nat.le_of_not_lt fun hlt => ?_
    exact Nat.not_lt.2 ((Nat.length_toDigits_le_iff (by decide) hpos).2 hlt) h

/-- A power of ten adds as many digits as it has zeros. -/
lemma Digits.length_mul_pow {n : Nat} (hn : n ≠ 0) (k : Nat) :
    (Nat.toDigits 10 (n * 10 ^ k)).length = (Nat.toDigits 10 n).length + k := by
  have hlength := Nat.length_toDigits_pos (b := 10) (n := n)
  have hpow : 0 < 10 ^ k := Nat.pow_pos (by decide)
  have hne : n * 10 ^ k ≠ 0 := Nat.mul_ne_zero hn (Nat.ne_of_gt hpow)
  apply Nat.le_antisymm
  · rw [Nat.length_toDigits_le_iff (by decide) (by omega), Nat.pow_add]
    exact Nat.mul_lt_mul_of_pos_right (lt_pow_length n) hpow
  · refine Nat.le_of_not_lt fun hlt => ?_
    have hhigh := Nat.lt_of_lt_of_le (lt_pow_length (n * 10 ^ k))
      (Nat.pow_le_pow_right (n := 10) (by decide) (Nat.le_pred_of_lt hlt))
    have hlow : 10 ^ ((Nat.toDigits 10 n).length - 1) ≤ n := pow_le_of_length hn (by omega)
    have hmul := Nat.mul_le_mul_right (10 ^ k) hlow
    have hsum : (Nat.toDigits 10 n).length - 1 + k = ((Nat.toDigits 10 n).length + k).pred := by
      rw [Nat.pred_eq_sub_one]
      omega
    rw [← Nat.pow_add, hsum] at hmul
    omega

namespace Text

lemma isDigit_ofNat (n : Nat) : ∀ u ∈ ofNat n, u.isDigit := by
  intro u hu
  obtain ⟨c, hc, rfl⟩ := List.mem_map.1 hu
  exact (CodeUnit.ofBasic_digit (Nat.isDigit_of_mem_toDigits (by decide) (by decide) hc)).1

lemma ofNat_ne_nil (n : Nat) : ofNat n ≠ [] := mt List.map_eq_nil_iff.1 Nat.toDigits_ne_nil

/-- The digits of a number write it. -/
theorem toNat_ofNat (n : Nat) : toNat (ofNat n) = n := by
  have hfold (cs : List Char) (hcs : ∀ c ∈ cs, c.isDigit) (k : Nat) :
      (cs.map CodeUnit.ofBasic).foldl (fun n u => 10 * n + u.digitValue) k =
        Nat.ofDigitChars 10 cs k := by
    induction cs generalizing k with
    | nil => exact Nat.ofDigitChars_nil.symm
    | cons c cs ih =>
      obtain ⟨hc, hcs⟩ := List.forall_mem_cons.1 hcs
      rw [List.map_cons, List.foldl_cons, ih hcs, (CodeUnit.ofBasic_digit hc).2,
        Nat.ofDigitChars_cons]
  rw [toNat, ofNat, hfold _ fun c hc => Nat.isDigit_of_mem_toDigits (by decide) (by decide) hc]
  exact Nat.ofDigitChars_ten_toDigits

lemma toNat_append (s t : Text) : toNat (s ++ t) = 10 ^ t.length * toNat s + toNat t := by
  have hfold (k : Nat) : t.foldl (fun n u => 10 * n + u.digitValue) k = 10 ^ t.length * k + toNat t := by
    unfold toNat
    induction t generalizing k with
    | nil => simp
    | cons u t ih =>
      rw [List.foldl_cons, ih, List.foldl_cons, ih (10 * 0 + _), List.length_cons, Nat.pow_succ,
        Nat.mul_zero, Nat.zero_add, Nat.mul_add, Nat.mul_assoc, Nat.add_assoc]
  rw [toNat, List.foldl_append, hfold, ← toNat]

lemma toNat_zeros (k : Nat) : toNat (List.replicate k '0') = 0 := by
  unfold toNat
  induction k with
  | zero => rfl
  | succ k ih => exact ih

/-- A number below a power of ten has as many places as that has zeros. -/
lemma length_padded {width n : Nat} (hwidth : 0 < width) (h : n < 10 ^ width) :
    (padded width n).length = width := by
  have hle : (ofNat n).length ≤ width := by
    rw [ofNat, List.length_map]
    exact (Nat.length_toDigits_le_iff (by decide) hwidth).2 h
  rw [padded, List.length_append, List.length_replicate]
  omega

end Text

end Stencil
