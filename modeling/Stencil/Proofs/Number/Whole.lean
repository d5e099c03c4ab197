import Stencil.Proofs.Number.Numeral
import Stencil.Proofs.Number.Quantity

/-!
# Numbers of the exact range

An integer of the exact range is a number itself, so it is read back from the number nearest to it, and
sums and differences within the range are exact. Main statements: `Whole.toWhole?_toNumber` and its
converse `Number.toNumber_of_toWhole?`, which holds of all numbers but negative zero;
`Quantity.sub_whole` and `Quantity.add_one`.
-/

namespace Stencil

namespace Magnitude

lemma ext {m k : Magnitude} (h : m.units = k.units) : m = k := by
  cases m
  cases k
  cases h
  rfl

/-- Rounding keeps the multiples of the last bit. -/
lemma rounded_of_dvd {n : Nat} (h : Nat.pow 2 (spacing n) ∣ n) : rounded n 1 = n := by
  rw [rounded, Nat.div_one, Nat.one_mul]
  generalize spacing n = low at h ⊢
  obtain ⟨k, rfl⟩ := h
  rw [Nat.mul_comm _ k, nearest_mul (pow_two_pos low)]

/-- Rounding keeps the integers of the exact range. -/
lemma rounded_mul_one {n : Nat} (h : n ≤ exactLimit) : rounded (n * Number.one) 1 = n * Number.one := by
  have hn : n < Nat.pow 2 53 := Nat.lt_of_le_of_lt h (by decide)
  unfold Number.one
  generalize 1074 = unit
  have hspacing : spacing (n * Nat.pow 2 unit) ≤ unit := by
    rcases Nat.eq_zero_or_pos n with rfl | hpos
    · rw [Nat.zero_mul]
      exact Nat.zero_le _
    · have hlt : n * Nat.pow 2 unit < 2 ^ (53 + unit) := by
        rw [Nat.pow_add]
        exact Nat.mul_lt_mul_of_pos_right hn (pow_two_pos unit)
      have := (Nat.log2_lt (Nat.mul_pos hpos (pow_two_pos unit)).ne').2 hlt
      rw [spacing]
      omega
  apply rounded_of_dvd
  exact Nat.dvd_mul_left_of_dvd (Nat.pow_dvd_pow 2 hspacing) n

end Magnitude

namespace Number

/-- The number nearest to an integer of the exact range is that integer. -/
lemma ofRatio_mul_one (negative : Bool) {n : Nat} (h : n ≤ exactLimit) :
    ∃ m : Magnitude, m.units = n * one ∧ ofRatio negative (n * one) 1 = .finite negative m := by
  have hrounded := Magnitude.rounded_mul_one h
  have hbound := Magnitude.rounded_one_lt h
  rw [ofRatio, Magnitude.round?, dif_pos ⟨Nat.one_pos, hbound⟩]
  exact ⟨_, hrounded, rfl⟩

lemma natAbs_signed (negative : Bool) (n : Nat) : (signed negative n).natAbs = n := by
  cases negative with
  | false => rfl
  | true => exact Int.natAbs_neg n

/-- A sign that is right but for zero gives the integer back. -/
lemma signed_natAbs {negative : Bool} {n : Int} (h : n ≠ 0 → negative = decide (n < 0)) :
    signed negative n.natAbs = n := by
  by_cases hn : n = 0
  · subst hn
    cases negative <;> rfl
  · rw [h hn, signed]
    split
    · next hneg =>
      rw [decide_eq_true_eq] at hneg
      omega
    · next hneg =>
      rw [decide_eq_true_eq] at hneg
      omega

end Number

namespace Whole

lemma ext {m n : Whole} (h : m.toInt = n.toInt) : m = n := by
  cases m
  cases n
  cases h
  rfl

lemma ofInt?_toInt (n : Whole) : ofInt? n.toInt = some n := dif_pos n.bounded

lemma toInt_of_ofInt? {i : Int} {n : Whole} (h : ofInt? i = some n) : n.toInt = i := by
  rw [ofInt?] at h
  split at h
  · cases h
    rfl
  · cases h

/-- The number of an integer has its sign and as many units. -/
lemma toNumber_eq (n : Whole) : ∃ m : Magnitude, m.units = n.toInt.natAbs * Number.one ∧
    n.toNumber = .finite (n.toInt < 0) m := by
  rw [toNumber, Number.ofInt]
  exact Number.ofRatio_mul_one _ n.bounded

/-- An integer of the exact range is read back from its number. -/
theorem toWhole?_toNumber (n : Whole) : n.toNumber.toWhole? = some n := by
  obtain ⟨m, hunits, hnumber⟩ := n.toNumber_eq
  rw [Number.toWhole?, hnumber, Number.toInt?, hunits, Nat.mul_mod_left, if_pos rfl,
    Nat.mul_div_cancel _ Number.one_pos]
  change ofInt? _ = _
  rw [Number.signed_natAbs fun _ => rfl, ofInt?_toInt]

end Whole

/-- A number that is an integer of the exact range is the number of that integer, unless it is negative
zero. -/
theorem Number.toNumber_of_toWhole? {x : Number} {n : Whole} (h : x.toWhole? = some n)
    (hx : x.isNegativeZero = false) : n.toNumber = x := by
  obtain ⟨i, hi, hn⟩ := Option.bind_eq_some_iff.1 h
  cases x with
  | nan => cases hi
  | infinite => cases hi
  | finite s m =>
    rw [toInt?] at hi
    split at hi
    · next hdvd =>
      cases hi
      have hint : n.toInt = signed s (m.units / one) := Whole.toInt_of_ofInt? hn
      have hunits : m.units / one * one = m.units := Nat.div_mul_cancel (Nat.dvd_of_mod_eq_zero hdvd)
      obtain ⟨k, hk, hnumber⟩ := n.toNumber_eq
      rw [hint, natAbs_signed, hunits] at hk
      obtain rfl := Magnitude.ext hk
      have hsign : decide (n.toInt < 0) = s := by
        rw [hint]
        cases s with
        | false => exact decide_eq_false (Int.not_lt.2 (Int.natCast_nonneg _))
        | true =>
          have hpos : 0 < k.units / one := by
            rw [Nat.pos_iff_ne_zero]
            intro hzero
            rw [hzero, Nat.zero_mul] at hunits
            simp [isNegativeZero, ← hunits] at hx
          exact decide_eq_true (Int.neg_neg_of_pos (Int.natCast_pos.2 hpos))
      rw [hnumber, hsign]
    · cases hi

namespace Number

/-- A finite number is an integer if its units are those of one. -/
lemma toInt?_finite {s : Bool} {m : Magnitude} {n : Nat} (hm : m.units = n * one) :
    (finite s m).toInt? = some (signed s n) := by
  rw [toInt?, hm, Nat.mul_mod_left, if_pos rfl, Nat.mul_div_cancel _ one_pos]

lemma eq_of_toInt? {x : Number} {i : Int} (h : x.toInt? = some i) :
    ∃ s m n, x = finite s m ∧ m.units = n * one ∧ i = signed s n := by
  cases x with
  | nan => cases h
  | infinite => cases h
  | finite s m =>
    rw [toInt?] at h
    split at h
    · next hdvd =>
      cases h
      exact ⟨s, m, m.units / one, rfl, (Nat.div_mul_cancel (Nat.dvd_of_mod_eq_zero hdvd)).symm, rfl⟩
    · cases h

lemma signed_mul (negative : Bool) (n k : Nat) : signed negative (n * k) = signed negative n * k := by
  cases negative with
  | false => exact Int.natCast_mul n k
  | true => rw [signed, signed, if_pos rfl, if_pos rfl, Int.natCast_mul, Int.neg_mul]

lemma toInt?_ofInt {i : Int} (h : i.natAbs ≤ exactLimit) : (ofInt i).toInt? = some i := by
  obtain ⟨m, hm, hnumber⟩ := ofRatio_mul_one (decide (i < 0)) h
  rw [ofInt, hnumber, toInt?_finite hm, signed_natAbs fun _ => rfl]

lemma toInt?_neg {x : Number} {i : Int} (h : x.toInt? = some i) : x.neg.toInt? = some (-i) := by
  obtain ⟨s, m, n, rfl, hm, rfl⟩ := eq_of_toInt? h
  rw [neg, toInt?_finite hm]
  cases s with
  | false => rfl
  | true => exact congrArg some (Int.neg_neg _).symm

/-- A sum of integers is exact. It is negative zero only if both are. -/
lemma add_finite {s t : Bool} {m k : Magnitude} {i j : Int} (hm : signed s m.units = i * one)
    (hk : signed t k.units = j * one) (h : (i + j).natAbs ≤ exactLimit) :
    ∃ l : Magnitude, l.units = (i + j).natAbs * one ∧
      (finite s m).add (finite t k) = .finite (i + j < 0 || (i + j == 0 && s && t)) l := by
  have hone : (0 : Int) < one := Int.natCast_pos.2 one_pos
  have hsum : signed s m.units + signed t k.units = (i + j) * one := by
    rw [hm, hk, Int.add_mul]
  have habs : ((i + j) * one : Int).natAbs = (i + j).natAbs * one := by
    rw [Int.natAbs_mul, Int.natAbs_natCast]
  have hneg : (i + j) * (one : Int) < 0 ↔ i + j < 0 := by
    constructor
    · intro hlt
      by_contra hle
      exact Int.not_lt.2 (Int.mul_nonneg (Int.not_lt.1 hle) (Int.le_of_lt hone)) hlt
    · intro hlt
      exact Int.mul_neg_of_neg_of_pos hlt hone
  have hzero : ((i + j) * (one : Int) == 0) = (i + j == 0) := by
    rw [Bool.eq_iff_iff, beq_iff_eq, beq_iff_eq, Int.mul_eq_zero]
    exact or_iff_left (Int.ne_of_gt hone)
  simp only [add, hsum, habs, hneg, hzero]
  exact ofRatio_mul_one _ h

lemma toInt?_add {x y : Number} {i j : Int} (hx : x.toInt? = some i) (hy : y.toInt? = some j)
    (h : (i + j).natAbs ≤ exactLimit) : (x.add y).toInt? = some (i + j) := by
  obtain ⟨s, m, n, rfl, hm, rfl⟩ := eq_of_toInt? hx
  obtain ⟨t, k, n', rfl, hk, rfl⟩ := eq_of_toInt? hy
  obtain ⟨l, hl, hadd⟩ := add_finite (by rw [hm, signed_mul]) (by rw [hk, signed_mul]) h
  rw [hadd, toInt?_finite hl, signed_natAbs]
  intro hsum
  rw [beq_eq_false_iff_ne.2 hsum, Bool.false_and, Bool.false_and, Bool.or_false]

lemma toInt?_sub {x y : Number} {i j : Int} (hx : x.toInt? = some i) (hy : y.toInt? = some j)
    (h : (i - j).natAbs ≤ exactLimit) : (x.sub y).toInt? = some (i - j) :=
  toInt?_add hx (toInt?_neg hy) h

/-- A sum with an integer that is not negative is no negative zero. -/
lemma isNegativeZero_add {x : Number} {i : Int} {n : Nat} (hx : x.toInt? = some i)
    (h : (i + n).natAbs ≤ exactLimit) (hn : n ≤ exactLimit) :
    (x.add (ofInt n)).isNegativeZero = false := by
  obtain ⟨s, m, k, rfl, hm, rfl⟩ := eq_of_toInt? hx
  obtain ⟨m', hm', hnumber⟩ := ofRatio_mul_one false hn
  have hof : ofInt n = finite false m' := by
    rw [ofInt, Int.natAbs_natCast, decide_eq_false (Int.not_lt.2 (Int.natCast_nonneg n)), hnumber]
  have hunits : signed false m'.units = (n : Int) * one := by
    rw [hm', signed_mul]
    rfl
  obtain ⟨l, hl, hadd⟩ := add_finite (by rw [hm, signed_mul]) hunits h
  rw [hof, hadd, Bool.and_false, Bool.or_false, isNegativeZero, Bool.and_eq_false_iff]
  by_cases hneg : signed s k + (n : Int) < 0
  · right
    rw [hl, beq_eq_false_iff_ne]
    exact (Nat.mul_pos (Int.natAbs_pos.2 (Int.ne_of_lt hneg)) one_pos).ne'
  · exact .inl (decide_eq_false hneg)

end Number

lemma Whole.ofInt?_eq_some_iff {i : Int} {n : Whole} : ofInt? i = some n ↔ i = n.toInt := by
  constructor
  · intro h
    exact (toInt_of_ofInt? h).symm
  · rintro rfl
    exact n.ofInt?_toInt

lemma Whole.exists_natCast_iff {k : Nat} : (∃ n : Whole, (k : Int) = n.toInt) ↔ k ≤ exactLimit := by
  constructor
  · rintro ⟨n, hn⟩
    rw [← Int.natAbs_natCast k, hn]
    exact n.bounded
  · intro h
    exact ⟨⟨k, h⟩, rfl⟩

namespace Number

variable {x : Number} {n : Whole}

lemma toWhole?_eq_some_iff : x.toWhole? = some n ↔ x.toInt? = some n.toInt := by
  rw [toWhole?, Option.bind_eq_bind, Option.bind_eq_some_iff]
  constructor
  · rintro ⟨i, hi, hn⟩
    rw [hi, Whole.ofInt?_eq_some_iff.1 hn]
  · intro h
    exact ⟨n.toInt, h, n.ofInt?_toInt⟩

lemma neg_neg (x : Number) : x.neg.neg = x := by
  cases x with
  | nan => rfl
  | infinite s => rw [neg, neg, Bool.not_not]
  | finite s m => rw [neg, neg, Bool.not_not]

lemma toInt?_neg_iff {i : Int} : x.neg.toInt? = some i ↔ x.toInt? = some (-i) := by
  constructor
  · intro h
    have hneg := toInt?_neg h
    rwa [neg_neg] at hneg
  · intro h
    have hneg := toInt?_neg h
    rwa [Int.neg_neg] at hneg

/-- A number that is an integer of the exact range equals the number of that integer. -/
lemma eq_toNumber (h : x.toWhole? = some n) : x.eq n.toNumber := by
  obtain ⟨s, m, k, rfl, hm, hk⟩ := eq_of_toInt? (toWhole?_eq_some_iff.1 h)
  obtain ⟨m', hm', hnumber⟩ := n.toNumber_eq
  rw [hnumber, eq, hm, hm', signed_mul, signed_mul, signed_natAbs fun _ => rfl, ← hk, beq_self_eq_true]

end Number

namespace Quantity

/-- The integer that a quantity is. -/
def toInt? : Quantity → Option Int
  | .whole n => some n
  | .other x => x.toInt?

lemma toInt?_ofNumber (x : Number) : (ofNumber x).toInt? = x.toInt? := by
  rw [ofNumber]
  split
  · rfl
  · cases h : x.toWhole? with
    | none => rfl
    | some n =>
      obtain ⟨i, hi, hn⟩ := Option.bind_eq_some_iff.1 h
      rw [hi, ← Whole.toInt_of_ofInt? hn]
      rfl

section

variable {q : Quantity} {i : Int}

lemma isNaN_of_toInt? (hq : q.toInt? = some i) : q.isNaN = false := by
  cases q with
  | whole => rfl
  | other x => obtain ⟨s, m, n, rfl, -, -⟩ := Number.eq_of_toInt? hq; rfl

/-- Integers compare as such. -/
lemma lt_whole (hq : q.toInt? = some i) (n : Int) :
    q.lt (.whole n) = decide (i < n) ∧ (whole n).lt q = decide (n < i) := by
  cases q with
  | whole k =>
    cases hq
    exact ⟨rfl, rfl⟩
  | other x =>
    obtain ⟨s, m, k, rfl, hm, rfl⟩ := Number.eq_of_toInt? hq
    have hone : (0 : Int) < Number.one := Int.natCast_pos.2 Number.one_pos
    have hunits : Number.signed s m.units = Number.signed s k * Number.one := by
      rw [hm, Number.signed_mul]
    simp only [lt, hunits, Int.mul_lt_mul_right hone, and_self]

lemma toInt?_max (hq : q.toInt? = some i) (n : Int) :
    (q.max (.whole n)).toInt? = some (Max.max i n) := by
  have hn : (whole n).isNaN = false := rfl
  rw [max, isNaN_of_toInt? hq, hn, if_neg Bool.false_ne_true, if_neg Bool.false_ne_true,
    (lt_whole hq n).1]
  split
  · next h =>
    rw [Int.max_eq_right (Int.le_of_lt (of_decide_eq_true h))]
    rfl
  · next h =>
    rw [decide_eq_true_eq, Int.not_lt] at h
    rw [Int.max_eq_left h, hq]

lemma toInt?_min (hq : q.toInt? = some i) (n : Int) :
    (q.min (.whole n)).toInt? = some (Min.min i n) := by
  have hn : (whole n).isNaN = false := rfl
  rw [min, isNaN_of_toInt? hq, hn, if_neg Bool.false_ne_true, if_neg Bool.false_ne_true,
    (lt_whole hq n).2]
  split
  · next h =>
    rw [Int.min_eq_right (Int.le_of_lt (of_decide_eq_true h))]
    rfl
  · next h =>
    rw [decide_eq_true_eq, Int.not_lt] at h
    rw [Int.min_eq_left h, hq]

/-- The integer part of an integer is the integer. -/
lemma truncate?_eq (hq : q.toInt? = some i) : q.truncate? = some i := by
  cases q with
  | whole => exact hq
  | other x =>
    obtain ⟨s, m, n, rfl, hm, rfl⟩ := Number.eq_of_toInt? hq
    change some (Number.signed s (m.units / Number.one)) = _
    rw [hm, Nat.mul_div_cancel _ Number.one_pos]

/-- The least natural number that is not below a natural number is that number. -/
lemma ceiling_eq {n : Nat} (hq : q.toInt? = some (n : Int)) : q.ceiling = n := by
  have htimes : q.times = n := by
    rw [times, truncate?_eq hq]
    rfl
  rw [ceiling, htimes, (lt_whole hq n).2, decide_eq_false (Int.lt_irrefl _)]
  rfl

end

lemma ofInt_of_le {i : Int} (h : i.natAbs ≤ exactLimit) : ofInt i = .whole i := if_pos h

/-- An integer less a natural number, within the exact range. -/
lemma sub_whole {q : Quantity} {i : Int} {n : Nat} (hq : q.toInt? = some i)
    (hn : n ≤ exactLimit) (h : (i - n).natAbs ≤ exactLimit) :
    (q.sub n).toInt? = some (i - n) := by
  cases q with
  | whole k =>
    cases hq
    change (ofInt (i - n)).toInt? = _
    rw [ofInt_of_le h]
    rfl
  | other x =>
    change (ofNumber (x.sub (.ofInt n))).toInt? = _
    rw [toInt?_ofNumber]
    exact Number.toInt?_sub hq (Number.toInt?_ofInt hn) h

/-- One more than an integer of the exact range is whole. -/
lemma add_one {q : Quantity} {i : Int} (hq : q.toInt? = some i) (h : (i + 1).natAbs ≤ exactLimit) :
    q.add (.whole 1) = .whole (i + 1) := by
  cases q with
  | whole k =>
    cases hq
    exact ofInt_of_le h
  | other x =>
    have hsum := Number.toInt?_add hq (Number.toInt?_ofInt (i := (1 : Nat)) (by decide)) h
    have hwhole : (x.add (.ofInt (1 : Nat))).toWhole? = some ⟨i + 1, h⟩ := by
      rw [Number.toWhole?, hsum]
      exact dif_pos h
    change ofNumber (x.add (.ofInt (1 : Nat))) = _
    rw [ofNumber, Number.isNegativeZero_add hq h (by decide), if_neg Bool.false_ne_true, hwhole]

end Quantity

end Stencil
