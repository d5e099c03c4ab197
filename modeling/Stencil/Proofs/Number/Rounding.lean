import Mathlib.Tactic.Lemma
import Stencil.Number.Decimal
import Stencil.Proofs.Number.Literal

/-!
# Rounding to the nearest magnitude

The interval of a magnitude holds what is rounded to it. Main statement: `Neighbourhood.rounded_eq`.
-/

namespace Stencil

/-- What lies within half of one from an integer, and not in the middle unless the integer is even, is
rounded to it. -/
lemma nearest_eq {num den k : Nat} (hden : 0 < den) (hlow : 2 * (k * den) ≤ 2 * num + den)
    (hhigh : 2 * num ≤ 2 * (k * den) + den)
    (heven : 2 * (k * den) = 2 * num + den ∨ 2 * num = 2 * (k * den) + den → k % 2 = 0) :
    nearest num den = k := by
  have hsum : num = num / den * den + num % den := (Nat.div_add_mod' num den).symm
  have hlt : num % den < den := Nat.mod_lt _ hden
  have hcases : k = num / den ∨ k = num / den + 1 := by
    generalize num / den = whole at *
    rcases Nat.lt_trichotomy k whole with hk | hk | hk
    · have : (k + 1) * den ≤ whole * den := Nat.mul_le_mul_right _ hk
      rw [Nat.succ_mul] at this
      omega
    · exact .inl hk
    · obtain hk | hk : k = whole + 1 ∨ whole + 2 ≤ k := by omega
      · exact .inr hk
      · have : (whole + 2) * den ≤ k * den := Nat.mul_le_mul_right _ hk
        rw [Nat.add_mul] at this
        omega
  rw [nearest]
  generalize num / den = whole at *
  generalize num % den = left at *
  obtain rfl | rfl := hcases
  · split
    · rfl
    · rw [if_neg (by omega)]
      have := heven (.inr (by omega))
      omega
  · have hsucc : (whole + 1) * den = whole * den + den := Nat.succ_mul whole den
    rw [hsucc] at hlow hhigh heven
    split
    · omega
    · split
      · rfl
      · have := heven (.inl (by omega))
        omega

/-- The nearest integer to a quotient is the one below or the one above. -/
lemma nearest_cases (num den : Nat) :
    nearest num den = num / den ∨ nearest num den = num / den + 1 := by
  rw [nearest]
  split
  · exact .inl rfl
  · split
    · exact .inr rfl
    · rcases Nat.mod_two_eq_zero_or_one (num / den) with h | h <;> rw [h]
      · exact .inl rfl
      · exact .inr rfl

/-- The nearest integer to a quotient is at most half of one away. -/
lemma nearest_within (num : Nat) {den : Nat} (hden : 0 < den) :
    2 * (nearest num den * den) ≤ 2 * num + den ∧ 2 * num ≤ 2 * (nearest num den * den) + den := by
  have hsum : num = num / den * den + num % den := (Nat.div_add_mod' num den).symm
  have hlt : num % den < den := Nat.mod_lt _ hden
  have hsucc : (num / den + 1) * den = num / den * den + den := Nat.succ_mul _ _
  rw [nearest]
  split
  · omega
  · split
    · omega
    · rcases Nat.mod_two_eq_zero_or_one (num / den) with h | h
      · rw [h, Nat.add_zero]
        omega
      · rw [h, hsucc]
        omega

/-- Only the ratio matters to what is nearest. -/
lemma nearest_mul_right (num den : Nat) {k : Nat} (hk : 0 < k) :
    nearest (num * k) (den * k) = nearest num den := by
  have hleft : 2 * (num * k % (den * k)) = 2 * (num % den) * k := by
    rw [Nat.mul_mod_mul_right, Nat.mul_assoc]
  simp only [nearest, Nat.mul_div_mul_right _ _ hk, hleft, Nat.mul_lt_mul_right hk]

namespace Magnitude

lemma rounded_mul_right (num den : Nat) {k : Nat} (hk : 0 < k) :
    rounded (num * k) (den * k) = rounded num den := by
  rw [rounded, Nat.mul_div_mul_right _ _ hk, Nat.mul_right_comm, nearest_mul_right _ _ hk, rounded]

/-- Rounding moves a quotient by half a step at most. -/
lemma rounded_within (num : Nat) {den low : Nat} (hden : 0 < den) (hlow : spacing (num / den) ≤ low) :
    2 * (rounded num den * den) ≤ 2 * num + den * Nat.pow 2 low ∧
      2 * num ≤ 2 * (rounded num den * den) + den * Nat.pow 2 low := by
  have hstep : den * Nat.pow 2 (spacing (num / den)) ≤ den * Nat.pow 2 low :=
    Nat.mul_le_mul_left _ (pow_two_mono hlow)
  obtain ⟨hle, hge⟩ := nearest_within num (Nat.mul_pos hden (pow_two_pos (spacing (num / den))))
  have hrounded : rounded num den * den = nearest num (den * Nat.pow 2 (spacing (num / den))) *
      (den * Nat.pow 2 (spacing (num / den))) := by
    rw [rounded, Nat.mul_assoc, Nat.mul_comm den]
  rw [hrounded]
  omega

/-- Less than half a unit is rounded off. -/
lemma rounded_eq_zero {num den : Nat} (h : 2 * num < den) : rounded num den = 0 := by
  have hquotient : num / den = 0 := Nat.div_eq_of_lt (by omega)
  have hspacing : spacing 0 = 0 := rfl
  have hone : Nat.pow 2 0 = 1 := rfl
  rw [rounded, hquotient, hspacing, hone, Nat.mul_one, Nat.mul_one, nearest, hquotient,
    Nat.mod_eq_of_lt (by omega)]
  exact if_pos h

/-- Rounding does not halve a quotient. -/
lemma div_le_two_mul_rounded (num : Nat) {den : Nat} (hden : 0 < den) :
    num / den ≤ 2 * rounded num den := by
  by_cases hzero : num / den = 0
  · rw [hzero]
    exact Nat.zero_le _
  · have hstep : Nat.pow 2 (spacing (num / den)) ≤ num / den := by
      refine Nat.le_trans (pow_two_mono ?_) (Nat.log2_self_le hzero)
      rw [spacing]
      omega
    have hle := (rounded_within num hden (Nat.le_refl _)).2
    have hmul : den * Nat.pow 2 (spacing (num / den)) ≤ num / den * den := by
      rw [Nat.mul_comm]
      exact Nat.mul_le_mul_right _ hstep
    have hquotient : num / den * den ≤ num := Nat.div_mul_le_self _ _
    refine Nat.le_of_mul_le_mul_right ?_ hden
    rw [Nat.mul_assoc]
    omega

/-- The units of a magnitude are a count of steps, which fills 53 bits if a step is more than one unit. -/
lemma exists_steps {n : Nat} (h : Representable n) :
    ∃ k, n = k * Nat.pow 2 (spacing n) ∧ k < Nat.pow 2 53 ∧ (0 < spacing n → Nat.pow 2 52 ≤ k) := by
  obtain ⟨⟨k, j, hk, hn⟩, -⟩ := h
  have hpow (a b : Nat) : Nat.pow 2 (a + b) = Nat.pow 2 a * Nat.pow 2 b := Nat.pow_add 2 a b
  have hdvd : Nat.pow 2 (spacing n) ∣ n := by
    rcases Nat.eq_zero_or_pos (spacing n) with hzero | hpos
    · rw [hzero]
      exact Nat.one_dvd n
    · have hne : n ≠ 0 := by
        rintro rfl
        exact absurd hpos (by decide)
      have hlt : n < Nat.pow 2 (53 + j) := by
        rw [hn, hpow]
        exact Nat.mul_lt_mul_of_pos_right hk (pow_two_pos j)
      have hlog := (Nat.log2_lt hne).2 hlt
      have hle : spacing n ≤ j := by
        rw [spacing]
        omega
      rw [hn]
      exact Nat.dvd_mul_left_of_dvd (Nat.pow_dvd_pow 2 (hn ▸ hle)) k
  refine ⟨n / Nat.pow 2 (spacing n), (Nat.div_mul_cancel hdvd).symm, ?_, ?_⟩
  · rw [Nat.div_lt_iff_lt_mul (pow_two_pos _), ← hpow]
    refine Nat.lt_of_lt_of_le Nat.lt_log2_self (pow_two_mono ?_)
    rw [spacing]
    omega
  · intro hpos
    have hne : n ≠ 0 := by
      rintro rfl
      exact absurd hpos (by decide)
    rw [Nat.le_div_iff_mul_le (pow_two_pos _), ← hpow]
    have hlog : 52 + spacing n = n.log2 := by
      rw [spacing] at hpos ⊢
      omega
    rw [hlog]
    exact Nat.log2_self_le hne

/-- Where the spacing is, by the bits of a count. -/
lemma spacing_eq {n s : Nat} (hlow : 0 < s → Nat.pow 2 (52 + s) ≤ n) (hhigh : n < Nat.pow 2 (53 + s)) :
    spacing n = s := by
  rcases Nat.eq_zero_or_pos n with rfl | hn
  · rcases Nat.eq_zero_or_pos s with rfl | hs
    · rfl
    · exact absurd (hlow hs) (Nat.not_le.2 (pow_two_pos _))
  · have hlt := (Nat.log2_lt hn.ne').2 hhigh
    rw [spacing]
    rcases Nat.eq_zero_or_pos s with rfl | hs
    · omega
    · have := (Nat.le_log2 hn.ne').2 (hlow hs)
      omega

end Magnitude

namespace Decimal

open Magnitude

/-- How many quarters of a step lie below a magnitude of `k` steps in its interval: two, but one where the
steps below are half as wide. -/
def quarters (s k : Nat) : Nat := if 0 < s ∧ k = Nat.pow 2 52 then 1 else 2

lemma quarters_cases (s k : Nat) :
    quarters s k = 2 ∨ quarters s k = 1 ∧ 0 < s ∧ k = Nat.pow 2 52 := by
  rw [quarters]
  split
  · next h => exact .inr ⟨rfl, h⟩
  · exact .inl rfl

/-- What the interval of a magnitude of `k` steps holds, in quarters of a step. -/
lemma Neighbourhood.holds_iff {n k s : Nat} (hs : spacing n = s) (hk : n = k * Nat.pow 2 s)
    (num den : Nat) : (Neighbourhood.of n).holds num den ↔
      let step := Nat.pow 2 s * den
      let low := 4 * (k * step) - quarters s k * step
      let high := 4 * (k * step) + 2 * step
      if k % 2 = 0 then low ≤ num ∧ num ≤ high else low < num ∧ num < high := by
  have hstep : 0 < Nat.pow 2 s := pow_two_pos _
  have hnarrow : Nat.pow 2 s ≠ 1 ∧ n = Nat.pow 2 52 * Nat.pow 2 s ↔ 0 < s ∧ k = Nat.pow 2 52 := by
    apply and_congr
    · rw [ne_eq, Nat.pow_eq, Nat.pow_eq_one, Nat.pos_iff_ne_zero]
      simp
    · constructor
      · intro h
        exact Nat.eq_of_mul_eq_mul_right hstep (hk.symm.trans h)
      · rintro rfl
        exact hk
  have hbelow : (if Nat.pow 2 s ≠ 1 ∧ n = Nat.pow 2 52 * Nat.pow 2 s then Nat.pow 2 s
      else 2 * Nat.pow 2 s) = quarters s k * Nat.pow 2 s := by
    rw [if_congr hnarrow rfl rfl, quarters]
    split
    · exact (Nat.one_mul _).symm
    · rfl
  have hquotient : n / Nat.pow 2 s = k := by
    rw [hk, Nat.mul_div_cancel k hstep]
  have hlow : (4 * n - quarters s k * Nat.pow 2 s) * den =
      4 * (k * (Nat.pow 2 s * den)) - quarters s k * (Nat.pow 2 s * den) := by
    rw [hk, Nat.sub_mul, Nat.mul_assoc, Nat.mul_assoc, Nat.mul_assoc]
  have hhigh : (4 * n + 2 * Nat.pow 2 s) * den =
      4 * (k * (Nat.pow 2 s * den)) + 2 * (Nat.pow 2 s * den) := by
    rw [hk, Nat.add_mul, Nat.mul_assoc, Nat.mul_assoc, Nat.mul_assoc]
  simp only [Neighbourhood.of, hs, hbelow, hquotient, holds, hlow, hhigh, beq_iff_eq]
  split <;> rw [Bool.and_eq_true, decide_eq_true_eq, decide_eq_true_eq]

/-- What is held is at most half a step off, and not half of one unless the steps are even. -/
lemma Neighbourhood.bounds {n k s num den : Nat} (hs : spacing n = s) (hk : n = k * Nat.pow 2 s)
    (h : (Neighbourhood.of n).holds (4 * num) den) :
    let step := Nat.pow 2 s * den
    let below := quarters s k
    4 * (k * step) ≤ 4 * num + below * step ∧ 4 * num ≤ 4 * (k * step) + 2 * step ∧
      (4 * (k * step) = 4 * num + below * step ∨ 4 * num = 4 * (k * step) + 2 * step →
        k % 2 = 0) := by
  rw [holds_iff hs hk] at h
  dsimp only at h ⊢
  generalize k * (Nat.pow 2 s * den) = middle at *
  generalize quarters s k * (Nat.pow 2 s * den) = below at *
  split at h
  · next heven => exact ⟨by omega, h.2, fun _ => heven⟩
  · omega

/-- What lies between the ends is held whether they belong to the interval or not. -/
lemma Neighbourhood.holds_of_lt (num den : Nat) {n k s : Nat} (hs : spacing n = s) (hk : n = k * Nat.pow 2 s)
    (hpos : 0 < k) (hlow : 4 * (k * (Nat.pow 2 s * den)) < 4 * num + quarters s k * (Nat.pow 2 s * den))
    (hhigh : 4 * num < 4 * (k * (Nat.pow 2 s * den)) + 2 * (Nat.pow 2 s * den)) :
    (Neighbourhood.of n).holds (4 * num) den := by
  have hle : quarters s k * (Nat.pow 2 s * den) ≤ 4 * (k * (Nat.pow 2 s * den)) := by
    rw [← Nat.mul_assoc 4]
    refine Nat.mul_le_mul_right _ ?_
    rcases quarters_cases s k with h | h <;> omega
  rw [holds_iff hs hk]
  dsimp only
  split <;> omega

/-- Below a power of two steps are half as long. What lies there at most a quarter of a step off is
rounded to the power. -/
lemma rounded_of_narrow {low num den : Nat} (hden : 0 < den)
    (hlow : 4 * (Nat.pow 2 52 * (Nat.pow 2 (low + 1) * den)) ≤
      4 * num + 1 * (Nat.pow 2 (low + 1) * den))
    (hnarrow : num < Nat.pow 2 52 * (Nat.pow 2 (low + 1) * den)) :
    rounded num den = Nat.pow 2 52 * Nat.pow 2 (low + 1) := by
  have hpow (a b : Nat) : Nat.pow 2 (a + b) = Nat.pow 2 a * Nat.pow 2 b := Nat.pow_add 2 a b
  have hbits (m : Nat) : Nat.pow 2 53 * m = Nat.pow 2 52 * (2 * m) := Nat.mul_assoc _ 2 m
  have hhalf : Nat.pow 2 (low + 1) * den = 2 * (den * Nat.pow 2 low) := by
    rw [hpow, Nat.mul_comm den]
    change Nat.pow 2 low * 2 * den = _
    rw [Nat.mul_comm _ 2, Nat.mul_assoc]
  have hpos : 0 < den * Nat.pow 2 low := Nat.mul_pos hden (pow_two_pos low)
  rw [hhalf] at hlow hnarrow
  -- the quotient has one bit less than the power
  have hspacing : spacing (num / den) = low := by
    apply spacing_eq
    · intro _
      rw [Nat.le_div_iff_mul_le hden, hpow, Nat.mul_assoc, Nat.mul_comm _ den]
      rw [Nat.mul_left_comm (Nat.pow 2 52)] at hlow
      have : den * Nat.pow 2 low ≤ Nat.pow 2 52 * (den * Nat.pow 2 low) :=
        Nat.le_mul_of_pos_left _ (pow_two_pos 52)
      omega
    · rwa [Nat.div_lt_iff_lt_mul hden, hpow, Nat.mul_assoc, Nat.mul_comm _ den, hbits]
  rw [rounded, hspacing, nearest_eq (k := Nat.pow 2 53) hpos, hbits, hpow low 1, Nat.mul_comm 2]
  · rw [hbits]
    omega
  · rw [hbits]
    omega
  · exact fun _ => by decide

/-- What lies in the interval of a magnitude is rounded to it. -/
theorem Neighbourhood.rounded_eq {n num den : Nat} (h : Representable n) (hden : 0 < den)
    (hholds : (Neighbourhood.of n).holds (4 * num) den) : rounded num den = n := by
  obtain ⟨k, hk, hlt, hfull⟩ := exists_steps h
  obtain ⟨s, hs⟩ : ∃ s, spacing n = s := ⟨_, rfl⟩
  rw [hs] at hk hfull
  obtain ⟨hlow, hhigh, heven⟩ := bounds hs hk hholds
  have hpow (a b : Nat) : Nat.pow 2 (a + b) = Nat.pow 2 a * Nat.pow 2 b := Nat.pow_add 2 a b
  have hpos : 0 < Nat.pow 2 s * den := Nat.mul_pos (pow_two_pos _) hden
  by_cases hwide : Nat.pow 2 52 * (Nat.pow 2 s * den) ≤ num ∨ s = 0
  · -- the quotient has as many bits as the magnitude
    have hspacing : spacing (num / den) = s := by
      apply spacing_eq
      · intro hs
        rw [Nat.le_div_iff_mul_le hden, hpow, Nat.mul_assoc]
        exact hwide.resolve_right hs.ne'
      · rw [Nat.div_lt_iff_lt_mul hden, hpow, Nat.mul_assoc]
        have : (k + 1) * (Nat.pow 2 s * den) ≤ Nat.pow 2 53 * (Nat.pow 2 s * den) :=
          Nat.mul_le_mul_right _ hlt
        rw [Nat.add_mul] at this
        omega
    rw [rounded, hspacing, Nat.mul_comm den, nearest_eq (k := k) hpos, ← hk]
    · rcases quarters_cases s k with h | ⟨h, -⟩ <;> rw [h] at hlow <;> omega
    · omega
    · rcases quarters_cases s k with h | ⟨h, -⟩ <;> rw [h] at hlow heven <;> omega
  · obtain ⟨hnarrow, hne⟩ := not_or.1 hwide
    obtain ⟨low, rfl⟩ : ∃ low, s = low + 1 := ⟨s - 1, by omega⟩
    obtain rfl : k = Nat.pow 2 52 := by
      refine Nat.le_antisymm ?_ (hfull (Nat.succ_pos low))
      by_contra hmore
      have hmul : (Nat.pow 2 52 + 1) * (Nat.pow 2 (low + 1) * den) ≤
          k * (Nat.pow 2 (low + 1) * den) := Nat.mul_le_mul_right _ (Nat.not_le.1 hmore)
      rw [Nat.add_mul] at hmul
      rcases quarters_cases (low + 1) k with h | ⟨h, -⟩ <;> rw [h] at hlow <;> omega
    rw [quarters, if_pos ⟨Nat.succ_pos low, rfl⟩] at hlow
    rw [rounded_of_narrow hden hlow (Nat.not_le.1 hnarrow), hk]

end Decimal

namespace Number

/-- Only the ratio matters to what is rounded. -/
lemma ofRatio_mul_right (negative : Bool) (num den : Nat) {k : Nat} (hk : 0 < k) :
    ofRatio negative (num * k) (den * k) = ofRatio negative num den := by
  have hden : 0 < den * k ↔ 0 < den := Nat.mul_pos_iff_of_pos_right hk
  simp only [ofRatio, Magnitude.round?, Magnitude.rounded_mul_right num den hk, hden]

lemma ofRatio_congr (negative : Bool) {num den num' den' : Nat} (hden : 0 < den) (hden' : 0 < den')
    (h : num * den' = num' * den) : ofRatio negative num den = ofRatio negative num' den' := by
  rw [← ofRatio_mul_right negative num den hden', h, Nat.mul_comm den, ofRatio_mul_right _ _ _ hden]

/-- A magnitude is nearest to itself. -/
lemma ofRatio_units (negative : Bool) (m : Magnitude) :
    ofRatio negative m.units 1 = .finite negative m := by
  obtain ⟨k, hk, -⟩ := Magnitude.exists_steps m.representable
  have hrounded : Magnitude.rounded m.units 1 = m.units :=
    Magnitude.rounded_of_dvd ⟨k, hk.trans (Nat.mul_comm _ _)⟩
  have hbound : Magnitude.rounded m.units 1 < Magnitude.bound := by
    rw [hrounded]
    exact m.representable.2
  rw [ofRatio, Magnitude.round?, dif_pos ⟨Nat.one_pos, hbound⟩]
  exact congrArg (finite negative) (Magnitude.ext hrounded)

lemma ofRatio_of_lt (negative : Bool) {num den : Nat} (h : 2 * num < den) :
    ofRatio negative num den = .finite negative .zero := by
  have hrounded := Magnitude.rounded_eq_zero h
  have hbound : Magnitude.rounded num den < Magnitude.bound := by
    rw [hrounded]
    exact Magnitude.bound_pos
  rw [ofRatio, Magnitude.round?, dif_pos ⟨by omega, hbound⟩]
  exact congrArg (finite negative) (Magnitude.ext hrounded)

lemma ofRatio_of_le (negative : Bool) {num den : Nat} (hden : 0 < den)
    (h : 2 * Magnitude.bound ≤ num / den) : ofRatio negative num den = .infinite negative := by
  have hle := Magnitude.div_le_two_mul_rounded num hden
  rw [ofRatio, Magnitude.round?, dif_neg]
  omega

/-- What lies in the interval of a magnitude is rounded to its number. -/
lemma ofRatio_eq (negative : Bool) {m : Magnitude} {num den : Nat} (hden : 0 < den)
    (h : (Decimal.Neighbourhood.of m.units).holds (4 * num) den) :
    ofRatio negative num den = .finite negative m := by
  have hrounded := Decimal.Neighbourhood.rounded_eq m.representable hden h
  have hbound : Magnitude.rounded num den < Magnitude.bound := by
    rw [hrounded]
    exact m.representable.2
  rw [ofRatio, Magnitude.round?, dif_pos ⟨hden, hbound⟩]
  exact congrArg (finite negative) (Magnitude.ext hrounded)

end Number

end Stencil
