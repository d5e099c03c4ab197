import Mathlib.Tactic.Lemma
import Stencil.Limits

/-!
# Limits and counts

How a limit compares with a count. Main statements: `Quantity.lt_of_le_of_lt`, a smaller limit is
exceeded by every count that exceeds a larger one, and `Quantity.lt_iff_times_lt`, only the integer
part of a limit matters.
-/

namespace Stencil

namespace Number

lemma one_pos : 0 < one := by
  unfold one
  generalize 1074 = n
  exact pow_two_pos n

end Number

namespace Quantity

/-- No limit is above what is not a number, nor is it above any. -/
lemma not_isNaN_of_le {x y : Quantity} (h : x.le y) : x.isNaN = false ∧ y.isNaN = false := by
  simp only [le, Bool.and_eq_true, Bool.not_eq_true'] at h
  exact h.1

lemma not_lt_of_le {x y : Quantity} (h : x.le y) : y.lt x = false := by
  simp only [le, Bool.and_eq_true, Bool.not_eq_true'] at h
  exact h.2

/-- All counts above one that exceeds a limit exceed it. -/
theorem lt_mono {q : Quantity} {m n : Nat} (h : q.lt m) (hmn : m ≤ n) : q.lt n := by
  cases q with
  | whole a =>
    simp only [lt, decide_eq_true_eq] at *
    omega
  | other x =>
    cases x with
    | nan => cases h
    | infinite s => exact h
    | finite s k =>
      simp only [lt, decide_eq_true_eq] at *
      have := Int.mul_le_mul_of_nonneg_right (Int.ofNat_le.2 hmn) (Int.natCast_nonneg Number.one)
      omega

/-- All counts below one that is within a limit are within it. -/
lemma not_lt_mono {q : Quantity} {m n : Nat} (h : q.lt n = false) (hmn : m ≤ n) :
    q.lt m = false := by
  rw [Bool.eq_false_iff] at h ⊢
  intro hlt
  exact h (lt_mono hlt hmn)

/-- A count above a limit is above every smaller limit. -/
theorem lt_of_le_of_lt {x y : Quantity} {n : Nat} (h : x.le y) (hn : y.lt n) : x.lt n := by
  have hlt := not_lt_of_le h
  obtain ⟨hx, hy⟩ := not_isNaN_of_le h
  clear h
  have hone : (0 : Int) < Number.one := Int.natCast_pos.2 Number.one_pos
  cases y with
  | whole b =>
    simp only [lt, decide_eq_true_eq] at hn
    cases x with
    | whole a =>
      simp only [lt, decide_eq_false_iff_not, decide_eq_true_eq] at *
      omega
    | other x =>
      cases x with
      | nan => cases hx
      | infinite s =>
        cases s with
        | true => rfl
        | false => cases hlt
      | finite s m =>
        simp only [lt, decide_eq_false_iff_not, decide_eq_true_eq, Int.not_lt] at *
        exact Int.lt_of_le_of_lt hlt (Int.mul_lt_mul_of_pos_right hn hone)
  | other y =>
    cases y with
    | nan => cases hy
    | infinite t =>
      simp only [lt] at hn
      subst hn
      cases x with
      | whole a => cases hlt
      | other x =>
        cases x with
        | nan => cases hx
        | infinite s =>
          cases s with
          | true => rfl
          | false => cases hlt
        | finite s m => cases hlt
    | finite t k =>
      simp only [lt, decide_eq_true_eq] at hn
      cases x with
      | whole a =>
        simp only [lt, decide_eq_false_iff_not, decide_eq_true_eq, Int.not_lt] at *
        exact Int.lt_of_mul_lt_mul_right (Int.lt_of_le_of_lt hlt hn) (Int.le_of_lt hone)
      | other x =>
        cases x with
        | nan => cases hx
        | infinite s =>
          cases s with
          | true => rfl
          | false => cases hlt
        | finite s m =>
          simp only [lt, Number.lt, decide_eq_false_iff_not, decide_eq_true_eq, Int.not_lt] at *
          exact Int.lt_of_le_of_lt hlt hn

/-- A count within a limit is within every larger limit. -/
lemma not_lt_of_le_of_not_lt {x y : Quantity} {n : Nat} (h : x.le y) (hn : x.lt n = false) :
    y.lt n = false := by
  rw [Bool.eq_false_iff] at hn ⊢
  intro hlt
  exact hn (lt_of_le_of_lt h hlt)

/-- What is above a limit that counts does count as well. -/
lemma zero_le_of_le {x y : Quantity} (h : (whole 0).le x) (hxy : x.le y) : (whole 0).le y := by
  have hzero : y.lt (0 : Nat) = false := not_lt_of_le_of_not_lt hxy (not_lt_of_le h)
  obtain ⟨-, hy⟩ := not_isNaN_of_le hxy
  rw [le, hy, show y.lt (whole 0) = false from hzero]
  rfl

/-- An infinite limit is never exceeded. -/
lemma infinite_lt (n : Nat) : infinite.lt n = false := rfl

/-- A finite limit that counts is exceeded by the counts above its integer part. -/
theorem lt_iff_times_lt {q : Quantity} (h : (whole 0).le q) (hq : q ≠ infinite) {n : Nat} :
    q.lt n ↔ q.times < n := by
  have hlt := not_lt_of_le h
  obtain ⟨-, hnan⟩ := not_isNaN_of_le h
  clear h
  cases q with
  | whole a =>
    simp only [lt, decide_eq_false_iff_not, decide_eq_true_eq, times, truncate?,
      Option.getD_some] at *
    omega
  | other x =>
    cases x with
    | nan => cases hnan
    | infinite s =>
      cases s with
      | true => cases hlt
      | false => exact absurd rfl hq
    | finite s m =>
      -- negative zero is the one negative number that counts as a limit
      have hsign : s = false ∨ m.units = 0 := by
        simp only [lt, Int.zero_mul, decide_eq_false_iff_not, Int.not_lt] at hlt
        cases s with
        | false => exact .inl rfl
        | true =>
          have : 0 ≤ -(m.units : Int) := hlt
          omega
      have hunits : Number.signed s m.units = m.units := by
        obtain rfl | hm := hsign
        · rfl
        · cases s <;> rw [hm] <;> rfl
      have htimes : (other (.finite s m)).times = m.units / Number.one := by
        change (Number.signed s (m.units / Number.one)).toNat = _
        obtain rfl | hm := hsign
        · rfl
        · rw [hm, Nat.zero_div]
          cases s <;> rfl
      rw [htimes, Nat.div_lt_iff_lt_mul Number.one_pos]
      simp only [lt, hunits, decide_eq_true_eq]
      norm_cast

end Quantity

lemma effective_of_le {q : Quantity} (h : (Quantity.whole 0).le q) :
    effective (some q) = some q := by
  rw [effective, Option.filter_some, if_pos h]

lemma effective_effective (limit : Option Quantity) : effective (effective limit) = effective limit := by
  rw [effective, effective, Option.filter_filter]
  simp only [Bool.and_self]

/-- What counts is not negative. -/
lemma le_of_effective {limit : Option Quantity} {q : Quantity} (h : effective limit = some q) :
    (Quantity.whole 0).le q :=
  (Option.filter_eq_some_iff.1 h).2

lemma eq_of_effective {q x : Quantity} (h : effective (some q) = some x) : x = q := by
  rw [effective, Option.filter_some] at h
  split at h
  · cases h
    rfl
  · cases h

end Stencil
