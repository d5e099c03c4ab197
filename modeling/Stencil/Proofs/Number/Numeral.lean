import Mathlib.Data.List.TakeWhile
import Mathlib.Tactic.Lemma
import Stencil.Number.Numeral

/-!
# Numerals of the exact range

A run of digits reads as the numeral of its value, and the number nearest to an integer of the exact
range is finite.
-/

namespace Stencil

lemma CodeUnit.isDigit_ne_sign {u : CodeUnit} (h : u.isDigit) : u ≠ '-' ∧ u ≠ '+' := by
  constructor
  · rintro rfl; exact absurd h (by decide)
  · rintro rfl; exact absurd h (by decide)

lemma Text.takeWhile_digits {t : Text} (h : t.isDigits) :
    t.takeWhile CodeUnit.isDigit = t ∧ t.dropWhile CodeUnit.isDigit = [] := by
  simp only [Text.isDigits, Bool.and_eq_true, List.all_eq_true] at h
  exact ⟨List.takeWhile_eq_self_iff.2 h.2, List.dropWhile_eq_nil_iff.2 h.2⟩

/-- A run of digits is a numeral without sign, point and exponent. -/
lemma Numeral.read?_digits {t : Text} (h : t.isDigits) : read? t = some ⟨false, t.toNat, 0⟩ := by
  obtain ⟨htake, hdrop⟩ := Text.takeWhile_digits h
  cases t with
  | nil => cases h
  | cons u rest =>
    have hu : u.isDigit := by
      simp only [Text.isDigits, List.all_cons, Bool.and_eq_true] at h
      exact h.2.1
    have hsign : sign (u :: rest) = (false, u :: rest) := by
      rw [sign, if_neg (CodeUnit.isDigit_ne_sign hu).1, if_neg (CodeUnit.isDigit_ne_sign hu).2]
    rw [read?, hsign]
    simp only [readUnsigned?, htake, hdrop]
    simp [exponent?]

/-- Rounding adds less than one step of the last bit. -/
lemma Magnitude.rounded_le (num : Nat) :
    rounded num 1 ≤ num + Nat.pow 2 (spacing num) := by
  have hpos : 0 < Nat.pow 2 (spacing num) := pow_two_pos _
  rw [rounded, Nat.div_one, Nat.one_mul]
  have hlt : num < (num / Nat.pow 2 (spacing num) + 1) * Nat.pow 2 (spacing num) :=
    Nat.lt_mul_of_div_lt (Nat.lt_succ_self _) hpos
  calc nearest num (Nat.pow 2 (spacing num)) * Nat.pow 2 (spacing num)
      ≤ (num / Nat.pow 2 (spacing num) + 1) * Nat.pow 2 (spacing num) :=
        Nat.mul_le_mul_right _ (nearest_le hlt)
    _ = num / Nat.pow 2 (spacing num) * Nat.pow 2 (spacing num) + Nat.pow 2 (spacing num) :=
        Nat.succ_mul _ _
    _ ≤ num + Nat.pow 2 (spacing num) :=
        Nat.add_le_add_right (Nat.div_mul_le_self _ _) _

/-- Rounding carries into the next bit at most. -/
lemma Magnitude.rounded_lt {n a b : Nat} (h : n < Nat.pow 2 a) :
    rounded (n * Nat.pow 2 b) 1 < Nat.pow 2 (a + b + 1) := by
  have hn : n * Nat.pow 2 b < Nat.pow 2 (a + b) := by
    calc n * Nat.pow 2 b < Nat.pow 2 a * Nat.pow 2 b :=
          Nat.mul_lt_mul_of_pos_right h (pow_two_pos _)
      _ = Nat.pow 2 (a + b) := (Nat.pow_add 2 a b).symm
  have hs : Nat.pow 2 (spacing (n * Nat.pow 2 b)) ≤ Nat.pow 2 (a + b) := by
    refine Nat.pow_le_pow_right (by decide) ?_
    rcases Nat.eq_zero_or_pos (n * Nat.pow 2 b) with h0 | hpos
    · rw [h0]; exact Nat.zero_le _
    · have := (Nat.log2_lt (Nat.ne_of_gt hpos)).2 hn
      rw [spacing]; omega
  calc rounded (n * Nat.pow 2 b) 1
      ≤ n * Nat.pow 2 b + Nat.pow 2 (spacing (n * Nat.pow 2 b)) := rounded_le _
    _ < Nat.pow 2 (a + b) + Nat.pow 2 (a + b) := Nat.add_lt_add_of_lt_of_le hn hs
    _ = Nat.pow 2 (a + b + 1) := by rw [← Nat.two_mul, Nat.mul_comm]; rfl

lemma pow_two_mono {a b : Nat} (h : a ≤ b) : Nat.pow 2 a ≤ Nat.pow 2 b :=
  Nat.pow_le_pow_right (by decide) h

/-- Integers of the exact range are far below the least power out of range. -/
lemma Magnitude.rounded_one_lt {n : Nat} (h : n ≤ exactLimit) :
    rounded (n * Number.one) 1 < bound := by
  have hn : n < Nat.pow 2 53 := Nat.lt_of_le_of_lt h (by decide)
  have hbits : 53 + 1074 + 1 ≤ bits := by decide
  unfold Number.one bound
  -- the powers are too large to be computed
  generalize 1074 = b at *
  generalize bits = m at *
  exact Nat.lt_of_lt_of_le (rounded_lt hn) (pow_two_mono hbits)

/-- The number nearest to an integer of the exact range is finite. -/
lemma Numeral.isFinite_toNumber {n : Nat} (h : n ≤ exactLimit) :
    (toNumber ⟨false, n, 0⟩).isFinite := by
  unfold toNumber
  split
  · rfl
  · have hlen : (Nat.toDigits 10 n).length ≤ 16 := by
      rw [Nat.length_toDigits_le_iff (by decide) (by decide)]
      exact Nat.lt_of_le_of_lt h (by decide)
    dsimp only
    rw [if_neg (by omega), if_neg (by omega), Number.ofRatio, Magnitude.round?]
    have hone : n * Nat.pow 10 (0 : Int).toNat * Number.one = n * Number.one := by
      rw [show Nat.pow 10 (0 : Int).toNat = 1 from rfl, Nat.mul_one]
    have hden : Nat.pow 10 (-(0 : Int)).toNat = 1 := rfl
    rw [hone, hden, dif_pos ⟨Nat.one_pos, Magnitude.rounded_one_lt h⟩]
    rfl

end Stencil
