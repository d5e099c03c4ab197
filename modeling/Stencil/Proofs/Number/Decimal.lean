import Mathlib.Tactic.Lemma
import Stencil.Proofs.Number.Digits
import Stencil.Proofs.Number.Pattern
import Stencil.Proofs.Number.Rounding

/-!
# Decimal text of numbers

The text of a number is read back as that number. Main statements: `Decimal.reads_shortest`, seventeen
digits always suffice; `Number.read?_text` and `Number.read?_textWithPlace`. A numeral far out of range
has the number of its ratio as all others do (`Numeral.toNumber_eq`).
-/

namespace Stencil

lemma pow_ten_pos (n : Nat) : 0 < Nat.pow 10 n := Nat.pow_pos (by decide)

namespace Numeral

open Number (one)

/-- A numeral far below the least magnitude rounds to zero. -/
lemma mul_one_lt {c : Nat} {e : Int} (h : (Nat.toDigits 10 c).length + e < -330) :
    2 * (c * Nat.pow 10 e.toNat * one) < Nat.pow 10 (-e).toNat := by
  have hlength := Nat.length_toDigits_pos (b := 10) (n := c)
  obtain ⟨k, hk, hone⟩ : ∃ k, k ≤ 331 ∧ 2 * one ≤ Nat.pow 10 k :=
    ⟨331, Nat.le_refl _, by decide +kernel⟩
  have he : e.toNat = 0 := by omega
  have hpow : Nat.pow 10 0 = 1 := rfl
  calc 2 * (c * Nat.pow 10 e.toNat * one) = c * (2 * one) := by
        rw [he, hpow, Nat.mul_one, Nat.mul_left_comm]
    _ < 10 ^ (Nat.toDigits 10 c).length * 10 ^ k :=
        Nat.mul_lt_mul_of_lt_of_le (Digits.lt_pow_length c) hone (pow_ten_pos k)
    _ = 10 ^ ((Nat.toDigits 10 c).length + k) := (Nat.pow_add ..).symm
    _ ≤ 10 ^ (-e).toNat := Nat.pow_le_pow_right (by decide) (by omega)

/-- A numeral far above the largest magnitude is out of range. -/
lemma bound_le_mul_one {c : Nat} {e : Int} (hc : c ≠ 0)
    (h : 320 < (Nat.toDigits 10 c).length + e) :
    2 * Magnitude.bound ≤ c * Nat.pow 10 e.toNat * one / Nat.pow 10 (-e).toNat := by
  obtain ⟨k, hk⟩ : ∃ k, (Nat.toDigits 10 c).length = k + 1 :=
    ⟨_, (Nat.succ_pred_eq_of_pos Nat.length_toDigits_pos).symm⟩
  have hle : 10 ^ k ≤ c := Digits.pow_le_of_length hc (by omega)
  obtain ⟨j, hj, hbound⟩ : ∃ j, j ≤ 320 ∧ 2 * Magnitude.bound ≤ Nat.pow 10 j * one :=
    ⟨320, Nat.le_refl _, by decide +kernel⟩
  rw [Nat.le_div_iff_mul_le (pow_ten_pos _)]
  calc 2 * Magnitude.bound * 10 ^ (-e).toNat ≤ 10 ^ j * one * 10 ^ (-e).toNat :=
        Nat.mul_le_mul_right _ hbound
    _ = 10 ^ (j + (-e).toNat) * one := by rw [Nat.mul_right_comm, ← Nat.pow_add]
    _ ≤ 10 ^ (k + e.toNat) * one :=
        Nat.mul_le_mul_right _ (Nat.pow_le_pow_right (by decide) (by omega))
    _ = 10 ^ k * 10 ^ e.toNat * one := by rw [Nat.pow_add]
    _ ≤ c * 10 ^ e.toNat * one := Nat.mul_le_mul_right _ (Nat.mul_le_mul_right _ hle)

/-- The number nearest to a numeral is that of its ratio, also far out of range. -/
theorem toNumber_eq (s : Bool) (c : Nat) (e : Int) :
    toNumber ⟨s, c, e⟩ = .ofRatio s (c * Nat.pow 10 e.toNat * one) (Nat.pow 10 (-e).toNat) := by
  have hden := pow_ten_pos (-e).toNat
  rw [toNumber]
  dsimp only
  split
  · next hc =>
    rw [hc, Nat.zero_mul, Nat.zero_mul]
    exact (Number.ofRatio_of_lt s hden).symm
  · next hc =>
    split
    · next h => exact (Number.ofRatio_of_lt s (mul_one_lt h)).symm
    · split
      · next h => exact (Number.ofRatio_of_le s hden (bound_le_mul_one hc h)).symm
      · rfl

/-- A power of ten may stand in the coefficient or in the exponent. -/
lemma toNumber_mul_pow (s : Bool) (c j : Nat) (e : Int) :
    toNumber ⟨s, c * Nat.pow 10 j, e⟩ = toNumber ⟨s, c, e + j⟩ := by
  rw [toNumber_eq, toNumber_eq]
  apply Number.ofRatio_congr _ (pow_ten_pos _) (pow_ten_pos _)
  have hpow : 10 ^ j * 10 ^ e.toNat * 10 ^ (-(e + j)).toNat = 10 ^ (e + j).toNat * 10 ^ (-e).toNat := by
    rw [← Nat.pow_add, ← Nat.pow_add, ← Nat.pow_add]
    congr 1
    omega
  calc c * 10 ^ j * 10 ^ e.toNat * one * 10 ^ (-(e + j)).toNat
      = c * (10 ^ j * 10 ^ e.toNat * 10 ^ (-(e + j)).toNat) * one := by
        rw [Nat.mul_right_comm _ one, Nat.mul_assoc c, Nat.mul_assoc c]
    _ = c * 10 ^ (e + j).toNat * one * 10 ^ (-e).toNat := by
        rw [hpow, Nat.mul_right_comm _ one, ← Nat.mul_assoc c]

end Numeral

namespace Decimal

open Magnitude
open Number (one)

variable {n : Nat}

/-- Whether the decimal of an integer and an exponent is rounded to a number of units. -/
def Reads (n c : Nat) (e : Int) : Prop :=
  (Neighbourhood.of n).holds (4 * c * (Nat.pow 10 e.toNat * one)) (Nat.pow 10 (-e).toNat)

lemma le_leastScale {bound fuel k : Nat} (h : bound ≤ n * Nat.pow 10 (k + fuel)) :
    bound ≤ n * Nat.pow 10 (leastScale n bound fuel k) := by
  induction fuel generalizing k with
  | zero => exact h
  | succ fuel ih =>
    rw [leastScale]
    split
    · assumption
    · apply ih
      rwa [Nat.succ_add]

/-- From the first digit of a number on, seventeen digits end at or below a place where a unit is at most
a part in `10 ^ 16` of it. -/
lemma le_pointOf (hn : 0 < n) {e : Int} (he : e = pointOf n - 17) :
    Nat.pow 10 16 * (Nat.pow 10 e.toNat * one) ≤ n * Nat.pow 10 (-e).toNat := by
  unfold pointOf at he
  dsimp only at he
  split at he
  · obtain ⟨fuel, hfuel, hone⟩ : ∃ fuel, 330 = fuel ∧ one ≤ Nat.pow 10 fuel :=
      ⟨330, rfl, by decide +kernel⟩
    have hscale : one ≤ n * Nat.pow 10 (0 + fuel) := by
      rw [Nat.zero_add]
      exact Nat.le_trans hone (Nat.le_mul_of_pos_left _ hn)
    have hle := le_leastScale hscale
    rw [hfuel] at he
    generalize leastScale n one fuel 0 = k at he hle
    have hup : e.toNat = 0 := by omega
    have hdown : (-e).toNat = k + 16 := by omega
    have hzero : Nat.pow 10 0 = 1 := rfl
    have hpow : Nat.pow 10 (k + 16) = Nat.pow 10 k * Nat.pow 10 16 := Nat.pow_add 10 k 16
    rw [hup, hdown, hzero, Nat.one_mul, hpow, Nat.mul_comm, ← Nat.mul_assoc]
    exact Nat.mul_le_mul_right _ hle
  · next hwhole =>
    obtain ⟨k, hk⟩ : ∃ k, (Nat.toDigits 10 (n / one)).length = k + 1 :=
      ⟨_, (Nat.succ_pred_eq_of_pos Nat.length_toDigits_pos).symm⟩
    have hle : 10 ^ k * one ≤ n :=
      (Nat.le_div_iff_mul_le Number.one_pos).1 (Digits.pow_le_of_length hwhole (by omega))
    rw [width, if_neg hwhole, hk] at he
    calc 10 ^ 16 * (10 ^ e.toNat * one) = 10 ^ (16 + e.toNat) * one := by
          rw [← Nat.mul_assoc, ← Nat.pow_add]
      _ = 10 ^ (k + (-e).toNat) * one := by
          congr 2
          omega
      _ = 10 ^ k * one * 10 ^ (-e).toNat := by rw [Nat.pow_add, Nat.mul_right_comm]
      _ ≤ n * 10 ^ (-e).toNat := Nat.mul_le_mul_right _ hle

/-- A point of the grid that is found reads back. -/
lemma reads_of_onGrid? {e : Int} {c : Nat} (h : onGrid? n e = some c) : Reads n c e := by
  unfold onGrid? at h
  dsimp only at h
  split at h
  · cases h
  · next hfloor _ =>
    cases h
    exact hfloor
  · next _ hnext =>
    cases h
    exact hnext
  · next hfloor hnext =>
    rw [← Option.some.inj h]
    rcases nearest_cases (n * Nat.pow 10 (-e).toNat) (Nat.pow 10 e.toNat * one) with hc | hc
    · rw [hc]
      exact hfloor
    · rw [hc]
      exact hnext

/-- The points of a grid on either side of a magnitude are less than a step apart if the grid is fine
enough. So one of them lies within half a step, and also where the step below is half as wide. -/
lemma Neighbourhood.holds_floor (h : Representable n) (hn : 0 < n) {up den : Nat} (hup : 0 < up)
    (hden : 0 < den) (hfine : 10000000000000000 * up ≤ n * den) :
    (Neighbourhood.of n).holds (4 * (n * den / up * up)) den ∨
      (Neighbourhood.of n).holds (4 * ((n * den / up + 1) * up)) den := by
  obtain ⟨k, hk, hlt, -⟩ := exists_steps h
  have hpos : 0 < k := by
    rw [Nat.pos_iff_ne_zero]
    rintro rfl
    rw [Nat.zero_mul] at hk
    omega
  have hstep : 0 < Nat.pow 2 (spacing n) * den := Nat.mul_pos (pow_two_pos _) hden
  have hunits : n * den = k * (Nat.pow 2 (spacing n) * den) := by
    rw [← Nat.mul_assoc, ← hk]
  have hlow : n * den / up * up ≤ n * den := Nat.div_mul_le_self _ _
  have hhigh : n * den < (n * den / up + 1) * up := Nat.lt_mul_of_div_lt (Nat.lt_succ_self _) hup
  have hmany : k * (Nat.pow 2 (spacing n) * den) <
      9007199254740992 * (Nat.pow 2 (spacing n) * den) :=
    Nat.mul_lt_mul_of_pos_right hlt hstep
  have hholds (c : Nat) := holds_of_lt (c * up) den rfl hk hpos
  generalize n * den / up = floor at *
  have hnext : (floor + 1) * up = floor * up + up := Nat.succ_mul _ _
  obtain hquarters | ⟨hquarters, -, hboundary⟩ := quarters_cases (spacing n) k
  · rw [hquarters] at hholds
    by_cases hnear : 4 * (n * den) < 4 * (floor * up) + 2 * (Nat.pow 2 (spacing n) * den)
    · exact .inl (hholds floor (by omega) (by omega))
    · exact .inr (hholds (floor + 1) (by omega) (by omega))
  · have hfew : n * den = 4503599627370496 * (Nat.pow 2 (spacing n) * den) := by
      rw [hunits, hboundary]
    rw [hquarters] at hholds
    by_cases hnear : 4 * (n * den) < 4 * (floor * up) + 1 * (Nat.pow 2 (spacing n) * den)
    · exact .inl (hholds floor (by omega) (by omega))
    · exact .inr (hholds (floor + 1) (by omega) (by omega))

lemma exists_onGrid? (h : Representable n) (hn : 0 < n) {e : Int}
    (hfine : Nat.pow 10 16 * (Nat.pow 10 e.toNat * one) ≤ n * Nat.pow 10 (-e).toNat) :
    ∃ c, onGrid? n e = some c := by
  have hup : 0 < Nat.pow 10 e.toNat * one := Nat.mul_pos (pow_ten_pos _) Number.one_pos
  have hholds := Neighbourhood.holds_floor h hn hup (pow_ten_pos (-e).toNat) hfine
  rw [← Nat.mul_assoc, ← Nat.mul_assoc 4] at hholds
  unfold onGrid?
  dsimp only
  split
  · next hfloor hnext =>
    rw [hfloor, hnext] at hholds
    exact absurd hholds (by decide)
  · exact ⟨_, rfl⟩
  · exact ⟨_, rfl⟩
  · exact ⟨_, rfl⟩

/-- A search that goes up to seventeen digits finds a decimal that reads back. -/
lemma reads_search {point : Int} {last : Nat} (hlast : onGrid? n (point - 17) = some last)
    {fuel count : Nat} (hfuel : 0 < fuel) (hcount : count + fuel = 18) :
    ∃ c e, search n point fuel count = ofDigits c e ∧ Reads n c e := by
  induction fuel generalizing count with
  | zero => cases hfuel
  | succ fuel ih =>
    rw [search]
    split
    · next c hc => exact ⟨c, _, rfl, reads_of_onGrid? hc⟩
    · next hnone =>
      rcases Nat.eq_zero_or_pos fuel with rfl | hpos
      · obtain rfl : count = 17 := by omega
        cases hlast.symm.trans hnone
      · exact ih hpos (by omega)

/-- The shortest decimal reads back. -/
theorem reads_shortest (h : Representable n) (hn : 0 < n) :
    ∃ c e, shortest n = ofDigits c e ∧ Reads n c e := by
  obtain ⟨last, hlast⟩ := exists_onGrid? h hn (le_pointOf hn rfl)
  exact reads_search hlast (by decide) rfl

lemma Reads.toNumber_eq {m : Magnitude} {c : Nat} {e : Int} (h : Reads m.units c e) (s : Bool) :
    Numeral.toNumber ⟨s, c, e⟩ = .finite s m := by
  unfold Reads at h
  rw [Nat.mul_assoc, ← Nat.mul_assoc c] at h
  rw [Numeral.toNumber_eq]
  exact Number.ofRatio_eq s (pow_ten_pos _) h

/-- Zeros at the end are dropped and nothing else. -/
lemma strip_eq (fuel digits : Nat) : ∃ k, digits = strip fuel digits * 10 ^ k := by
  induction fuel generalizing digits with
  | zero => exact ⟨0, (Nat.mul_one _).symm⟩
  | succ fuel ih =>
    rw [strip]
    split
    · next hzero =>
      obtain ⟨k, hk⟩ := ih (digits / 10)
      refine ⟨k + 1, ?_⟩
      rw [Nat.pow_succ, ← Nat.mul_assoc, ← hk, Nat.div_mul_cancel (Nat.dvd_of_mod_eq_zero hzero)]
    · exact ⟨0, (Nat.mul_one _).symm⟩

/-- The exponent of the digits of a decimal as an integer. -/
def exponent (d : Decimal) : Int := d.point - (Text.ofNat d.digits).length

/-- A decimal has the value of the integer and the exponent that it is made of. -/
lemma toNumber_ofDigits {c : Nat} (hc : c ≠ 0) (s : Bool) (e : Int) :
    Numeral.toNumber ⟨s, (ofDigits c e).digits, (ofDigits c e).exponent⟩ = Numeral.toNumber ⟨s, c, e⟩ := by
  obtain ⟨k, hk⟩ := strip_eq (width c) c
  have hne : strip (width c) c ≠ 0 := by
    intro hzero
    rw [hzero, Nat.zero_mul] at hk
    exact hc hk
  have hwidth : width c = (Text.ofNat (strip (width c) c)).length + k := by
    rw [Text.ofNat, List.length_map, ← Digits.length_mul_pow hne, ← hk]
    exact if_neg hc
  have hexponent : (ofDigits c e).exponent = e + k := by
    change e + (width c : Int) - (Text.ofNat (strip (width c) c)).length = _
    omega
  rw [hexponent, ← Numeral.toNumber_mul_pow]
  exact congrArg (fun c => Numeral.toNumber ⟨s, c, e⟩) hk.symm

end Decimal

namespace Numeral

/-- A text is read as a numeral without a sign that has the value of an integer with an exponent. -/
def Writes (t : Text) (c : Nat) (e : Int) : Prop :=
  ∃ m, readUnsigned? t = some m ∧ ∀ s, toNumber ⟨s, m.coefficient, m.exponent⟩ = toNumber ⟨s, c, e⟩

section

variable {w f x : Text} {e : Int}

/-- What may follow the digits of a numeral: nothing, or an exponent. -/
def Follows (x : Text) (e : Int) : Prop :=
  exponent? x = some e ∧ ∀ u : CodeUnit, u ∈ x.head? → u.isDigit = false ∧ u ≠ '.'

lemma follows_nil : Follows [] 0 := ⟨rfl, nofun⟩

lemma follows_exponent (e : Int) :
    Follows ((if e < 0 then "e-" else "e+") ++ Text.ofNat e.natAbs) e := by
  have hdigits : (Text.ofNat e.natAbs).isDigits :=
    Pattern.isDigits_iff.2 ⟨Text.ofNat_ne_nil _, Text.isDigit_ofNat _⟩
  have hsigned : Number.signed (decide (e < 0)) e.natAbs = e := Number.signed_natAbs fun _ => rfl
  have hminus (t : Text) : exponent? ("e-" ++ t) =
      if t.isDigits then some (Number.signed true t.toNat) else none := rfl
  have hplus (t : Text) : exponent? ("e+" ++ t) =
      if t.isDigits then some (Number.signed false t.toNat) else none := rfl
  constructor
  · split
    · next hneg =>
      rw [decide_eq_true hneg] at hsigned
      rw [hminus, if_pos hdigits, Text.toNat_ofNat, hsigned]
    · next hneg =>
      rw [decide_eq_false hneg] at hsigned
      rw [hplus, if_pos hdigits, Text.toNat_ofNat, hsigned]
  · split <;> (rintro u ⟨⟩; decide)

/-- Digits without a point write an integer. -/
lemma writes_whole (hw : ∀ u ∈ w, u.isDigit) (hne : w ≠ []) (hx : Follows x e) :
    Writes (w ++ x) w.toNat e := by
  have hread := (Parts.whole hw hx.2).readUnsigned?_eq
  rw [if_neg fun h => hne h.1, hx.1, List.append_nil] at hread
  exact ⟨_, hread, fun s => congrArg (fun e => toNumber ⟨s, _, e⟩) (Int.sub_zero e)⟩

/-- Digits with a point among them write the integer of all digits, with the exponent of the last. -/
lemma writes_point (hw : ∀ u ∈ w, u.isDigit) (hf : ∀ u ∈ f, u.isDigit) (hne : w ≠ [])
    (hx : Follows x e) : Writes (w ++ "." ++ f ++ x) (Text.toNat (w ++ f)) (e - f.length) := by
  have hpoint : w ++ "." ++ f ++ x = w ++ ('.' : CodeUnit) :: (f ++ x) := by
    rw [List.append_assoc, List.append_assoc]
    rfl
  have hread := (Parts.point hw hf fun u hu => (hx.2 u hu).1).readUnsigned?_eq
  rw [if_neg fun h => hne h.1, hx.1, ← hpoint] at hread
  exact ⟨_, hread, fun s => rfl⟩

/-- A point after the first of some digits. -/
lemma writes_cut {digits : Text} {k : Nat} (h : ∀ u ∈ digits, u.isDigit) (hne : digits ≠ []) (hk : 0 < k)
    (hx : Follows x e) : Writes (digits.take k ++ "." ++ digits.drop k ++ x) digits.toNat
      (e - (digits.length - k : Nat)) := by
  have htake : digits.take k ≠ [] := by
    rw [ne_eq, List.take_eq_nil_iff]
    exact not_or.2 ⟨hk.ne', hne⟩
  have hwrites := writes_point (f := digits.drop k) (fun u hu => h u (List.mem_of_mem_take hu))
    (fun u hu => h u (List.mem_of_mem_drop hu)) htake hx
  rwa [List.take_append_drop, List.length_drop] at hwrites

lemma isDigit_zeros (k : Nat) : ∀ u ∈ (List.replicate k '0' : Text), u.isDigit := by
  intro u hu
  rw [(List.mem_replicate.1 hu).2]
  decide

/-- Zeros after some digits stand for an exponent. -/
lemma writes_zeros {digits : Text} (h : ∀ u ∈ digits, u.isDigit) (hne : digits ≠ []) (k : Nat) :
    Writes (digits ++ (List.replicate k '0' : Text)) digits.toNat k := by
  obtain ⟨m, hread, hm⟩ := writes_whole (List.forall_mem_append.2 ⟨h, isDigit_zeros k⟩)
    (List.append_ne_nil_of_left_ne_nil hne _) follows_nil
  rw [List.append_nil] at hread
  refine ⟨m, hread, fun s => ?_⟩
  have hcoefficient : Text.toNat (digits ++ (List.replicate k '0' : Text)) =
      digits.toNat * Nat.pow 10 k := by
    rw [Text.toNat_append, Text.toNat_zeros, List.length_replicate, Nat.mul_comm]
    rfl
  rw [hm, hcoefficient, toNumber_mul_pow, Int.zero_add]

/-- Zeros before some digits, all after the point. -/
lemma writes_fraction {digits : Text} (h : ∀ u ∈ digits, u.isDigit) (k : Nat) :
    Writes ("0." ++ (List.replicate k '0' : Text) ++ digits) digits.toNat
      (-(k + digits.length : Nat)) := by
  have hdigits := List.forall_mem_append.2 ⟨isDigit_zeros k, h⟩
  have hwrites := writes_point (w := "0") (Text.forall_mem (by decide)) hdigits (by decide) follows_nil
  have hcoefficient : Text.toNat ("0" ++ ((List.replicate k '0' : Text) ++ digits)) = digits.toNat := by
    rw [Text.toNat_append, Text.toNat_append, Text.toNat_zeros, Nat.mul_zero, Nat.zero_add]
    exact (congrArg (· + digits.toNat) (Nat.mul_zero _)).trans (Nat.zero_add _)
  rw [hcoefficient, List.append_nil, ← List.append_assoc, List.length_append, List.length_replicate,
    Int.zero_sub] at hwrites
  exact hwrites

end

end Numeral

namespace Decimal

open Numeral

/-- The text of a decimal writes its value. -/
lemma writes_text (d : Decimal) : Writes d.text d.digits d.exponent := by
  have hdigits := Text.isDigit_ofNat d.digits
  have hne := Text.ofNat_ne_nil d.digits
  have hvalue := Text.toNat_ofNat d.digits
  have hpos := List.length_pos_of_ne_nil hne
  unfold Decimal.text exponent
  dsimp only
  generalize Text.ofNat d.digits = digits at *
  rw [← hvalue]
  split
  · next h =>
    obtain ⟨k, hk⟩ : ∃ k : Nat, d.point - digits.length = k :=
      ⟨_, (Int.toNat_of_nonneg (by omega)).symm⟩
    rw [hk]
    exact writes_zeros hdigits hne k
  · split
    · next h =>
      obtain ⟨k, hk⟩ : ∃ k : Nat, d.point = k := ⟨_, (Int.toNat_of_nonneg (by omega)).symm⟩
      have hwrites := writes_cut (k := k) hdigits hne (by omega) follows_nil
      have hexponent : (0 : Int) - (digits.length - k : Nat) = k - digits.length := by omega
      rw [List.append_nil, hexponent] at hwrites
      rwa [hk]
    · split
      · next h =>
        obtain ⟨k, hk⟩ : ∃ k : Nat, -d.point = k := ⟨_, (Int.toNat_of_nonneg (by omega)).symm⟩
        have hexponent : d.point - digits.length = -(k + digits.length : Nat) := by omega
        rw [hk, hexponent]
        exact writes_fraction hdigits k
      · rw [List.append_assoc]
        split
        · next hone =>
          rw [hone]
          exact writes_whole hdigits hne (follows_exponent _)
        · have hwrites := writes_cut (k := 1) hdigits hne (by decide) (follows_exponent (d.point - 1))
          have hexponent : d.point - 1 - (digits.length - 1 : Nat) = d.point - digits.length := by omega
          rwa [hexponent] at hwrites

end Decimal

namespace Numeral

/-- A sign before a numeral. -/
lemma Writes.read? {t : Text} {c : Nat} {e : Int} (h : Writes t c e) (s : Bool) :
    ∃ m, Numeral.read? ((if s then "-" else "") ++ t) = some m ∧ m.toNumber = toNumber ⟨s, c, e⟩ := by
  obtain ⟨m, hread, hm⟩ := h
  cases s with
  | false =>
    have hsign : sign t = (false, t) :=
      sign_eq_self (signWidth_unsigned (readUnsigned?_isSome_iff.1 (Option.isSome_of_mem hread)))
    refine ⟨⟨false, m.coefficient, m.exponent⟩, ?_, hm false⟩
    change Numeral.read? t = _
    rw [read?_eq, hsign, hread]
    rfl
  | true =>
    have hsign : sign ("-" ++ t) = (true, t) := rfl
    refine ⟨⟨true, m.coefficient, m.exponent⟩, ?_, hm true⟩
    change Numeral.read? ("-" ++ t) = _
    rw [read?_eq, hsign, hread]
    rfl

end Numeral

lemma Text.ofInt_eq (n : Int) : ofInt n = (if decide (n < 0) then "-" else "") ++ ofNat n.natAbs := by
  rw [ofInt]
  by_cases h : n < 0
  · rw [if_pos h, if_pos (decide_eq_true h)]
  · rw [if_neg h, if_neg (by rwa [decide_eq_true_eq])]
    rfl

namespace Number

open Numeral

variable {x : Number}

/-- The text of a finite number is read as that number. Only the sign of zero is lost. -/
theorem read?_text (hx : x.isFinite) (hzero : x.isNegativeZero = false) :
    ∃ m, read? x.text = some m ∧ m.toNumber = x := by
  cases x with
  | nan => cases hx
  | infinite => cases hx
  | finite s m =>
    rw [text]
    split
    · next hm =>
      obtain rfl : m = .zero := Magnitude.ext hm
      cases s with
      | false => exact ⟨⟨false, 0, 0⟩, rfl, rfl⟩
      | true => cases hzero
    · next hm =>
      obtain ⟨c, e, hshortest, hreads⟩ :=
        Decimal.reads_shortest m.representable (Nat.pos_of_ne_zero hm)
      have hnumber := hreads.toNumber_eq s
      have hc : c ≠ 0 := by
        rintro rfl
        cases hnumber
        exact hm rfl
      obtain ⟨n, hread, hn⟩ := (Decimal.writes_text (Decimal.shortest m.units)).read? s
      refine ⟨n, hread, ?_⟩
      rw [hn, hshortest, Decimal.toNumber_ofDigits hc, hnumber]

/-- An integer is read as itself, however large. -/
lemma toNumber_units (s : Bool) {m : Magnitude} {k : Nat} (h : m.units = k * one) :
    toNumber ⟨s, k, 0⟩ = .finite s m := by
  have hone : k * Nat.pow 10 (0 : Int).toNat * one = m.units := by
    rw [h, show Nat.pow 10 (0 : Int).toNat = 1 from rfl, Nat.mul_one]
  rw [toNumber_eq, hone]
  exact ofRatio_units s m

lemma signed_lt_zero {s : Bool} {k : Nat} (h : s = true → k ≠ 0) : decide (signed s k < 0) = s := by
  cases s with
  | false => exact decide_eq_false (Int.not_lt.2 (Int.natCast_nonneg k))
  | true =>
    refine decide_eq_true ?_
    have := Nat.pos_of_ne_zero (h rfl)
    rw [signed, if_pos rfl]
    omega

/-- A place after the point leaves an integer as it is. -/
lemma writes_place (k : Nat) : Writes (Text.ofNat k ++ ".0") k 0 := by
  obtain ⟨m, hread, hm⟩ := writes_point (f := "0") (Text.isDigit_ofNat k)
    (Text.forall_mem (by decide)) (Text.ofNat_ne_nil k) follows_nil
  rw [List.append_nil, List.append_assoc] at hread
  refine ⟨m, hread, fun s => ?_⟩
  have hcoefficient : Text.toNat (Text.ofNat k ++ "0") = k * Nat.pow 10 1 := by
    rw [Text.toNat_append, Text.toNat_ofNat, Nat.mul_comm]
    rfl
  rw [hm, hcoefficient, toNumber_mul_pow]
  rfl

/-- The text that keeps a place after the point is read as the number, too. -/
theorem read?_textWithPlace (hx : x.isFinite) (hzero : x.isNegativeZero = false) :
    ∃ m, read? x.textWithPlace = some m ∧ m.toNumber = x := by
  rw [textWithPlace]
  split
  · next n hn =>
    split
    · obtain ⟨s, m, k, rfl, hm, rfl⟩ := eq_of_toInt? hn
      have hsign : decide (signed s k < 0) = s := by
        refine signed_lt_zero ?_
        rintro rfl rfl
        rw [Nat.zero_mul] at hm
        rw [isNegativeZero, hm] at hzero
        cases hzero
      obtain ⟨n, hread, hn⟩ := (writes_place k).read? s
      rw [toNumber_units s hm] at hn
      rw [Text.ofInt_eq, hsign, natAbs_signed, List.append_assoc]
      exact ⟨n, hread, hn⟩
    · exact read?_text hx hzero
  · exact read?_text hx hzero

end Number

end Stencil
