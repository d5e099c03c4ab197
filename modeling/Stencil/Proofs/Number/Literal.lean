import Stencil.Expr.Parser
import Stencil.Proofs.Number.Whole
import Stencil.Value.Coercion

/-!
# Number literals

The number nearest to a run of digits is an integer of the exact range only if the digits write one.
Main statement: `buildLiteral_eq`. An integer literal can be built by way of its number, and the
check of the range that is made then is always passed.
-/

namespace Stencil

lemma div_le_nearest (num den : Nat) : num / den ≤ nearest num den := by
  rw [nearest]
  split
  · exact Nat.le_refl _
  · split
    · exact Nat.le_succ _
    · exact Nat.le_add_right _ _

/-- Rounding does not leave the powers of two below. -/
lemma Magnitude.le_rounded {a n : Nat} (h : Nat.pow 2 a ≤ n) : Nat.pow 2 a ≤ rounded n 1 := by
  have hn : n ≠ 0 := Nat.ne_of_gt (Nat.lt_of_lt_of_le (pow_two_pos a) h)
  have hsum : spacing n + (n.log2 - spacing n) = n.log2 := by
    rw [spacing]
    omega
  rw [rounded, Nat.div_one, Nat.one_mul]
  generalize spacing n = low at hsum ⊢
  have hquotient : Nat.pow 2 (n.log2 - low) ≤ n / Nat.pow 2 low := by
    rw [Nat.le_div_iff_mul_le (pow_two_pos low), Nat.mul_comm]
    calc Nat.pow 2 low * Nat.pow 2 (n.log2 - low) = 2 ^ n.log2 := by
          rw [← hsum, Nat.add_sub_cancel_left]
          exact (Nat.pow_add 2 _ _).symm
      _ ≤ n := Nat.log2_self_le hn
  calc Nat.pow 2 a ≤ Nat.pow 2 n.log2 := pow_two_mono ((Nat.le_log2 hn).2 h)
    _ = Nat.pow 2 (n.log2 - low + low) := by rw [Nat.add_comm, hsum]
    _ = Nat.pow 2 (n.log2 - low) * Nat.pow 2 low := Nat.pow_add 2 _ _
    _ ≤ nearest n (Nat.pow 2 low) * Nat.pow 2 low :=
        Nat.mul_le_mul_right _ (Nat.le_trans hquotient (div_le_nearest _ _))

/-- Rounding does not lead back into the exact range. -/
lemma Magnitude.le_rounded_mul_one {n : Nat} (h : exactLimit < n) :
    (exactLimit + 1) * Number.one ≤ rounded (n * Number.one) 1 := by
  have hlimit : exactLimit + 1 = Nat.pow 2 53 := by decide
  unfold Number.one
  generalize 1074 = unit
  have hsum : Nat.pow 2 53 * Nat.pow 2 unit = Nat.pow 2 (53 + unit) := (Nat.pow_add 2 53 unit).symm
  rw [hlimit, hsum]
  apply le_rounded
  rw [← hsum, ← hlimit]
  exact Nat.mul_le_mul_right _ h

lemma Magnitude.units_of_round? {num den : Nat} {m : Magnitude} (h : round? num den = some m) :
    m.units = rounded num den := by
  rw [round?, Option.dite_none_right_eq_some] at h
  obtain ⟨_, h⟩ := h
  rw [← Option.some.inj h]

namespace Number

lemma toWhole?_finite {m : Magnitude} (h : exactLimit < m.units / one) :
    (finite false m).toWhole? = none := by
  rw [toWhole?, toInt?]
  split
  · change Whole.ofInt? _ = none
    rw [Whole.ofInt?, dif_neg]
    rw [natAbs_signed]
    exact Nat.not_le.2 h
  · rfl

/-- Beyond the exact range, the number nearest to a natural number is no integer of that range. -/
lemma toWhole?_ofRatio {n : Nat} (h : exactLimit < n) : (ofRatio false (n * one) 1).toWhole? = none := by
  have hrounded := Magnitude.le_rounded_mul_one h
  rw [ofRatio]
  cases hround : Magnitude.round? (n * one) 1 with
  | none => rfl
  | some m =>
    rw [← Magnitude.units_of_round? hround] at hrounded
    have hle : exactLimit + 1 ≤ m.units / one := by
      rw [Nat.le_div_iff_mul_le one_pos]
      exact hrounded
    exact toWhole?_finite hle

lemma toInteger_of_toWhole? {x : Number} {n : Whole} (h : x.toWhole? = some n) :
    x.toInteger = .ok n := by
  obtain ⟨i, hi, hn⟩ := Option.bind_eq_some_iff.1 h
  have htruncate : x.truncate? = some i := by
    obtain ⟨s, m, k, rfl, hm, rfl⟩ := eq_of_toInt? hi
    rw [truncate?, hm, Nat.mul_div_cancel _ one_pos]
  rw [toInteger, htruncate]
  dsimp only
  rw [hn]

end Number

/-- The number nearest to a natural number is an integer of the exact range exactly if the natural
number is one. -/
lemma Numeral.toWhole?_toNumber (n : Nat) : (toNumber ⟨false, n, 0⟩).toWhole? = Whole.ofInt? n := by
  have hone : n * Nat.pow 10 (0 : Int).toNat * Number.one = n * Number.one := by
    rw [show Nat.pow 10 (0 : Int).toNat = 1 from rfl, Nat.mul_one]
  have hden : Nat.pow 10 (-(0 : Int)).toNat = 1 := rfl
  rw [toNumber]
  split
  · next h =>
    dsimp only at h
    subst h
    have hzero : Magnitude.zero.units = 0 * Number.one := (Nat.zero_mul _).symm
    exact congrArg (· >>= Whole.ofInt?) (Number.toInt?_finite hzero)
  · dsimp only
    rw [if_neg (by omega), hone, hden]
    by_cases hn : n ≤ exactLimit
    · have hlen : (Nat.toDigits 10 n).length ≤ 16 := by
        rw [Nat.length_toDigits_le_iff (by decide) (by decide)]
        exact Nat.lt_of_le_of_lt hn (by decide)
      obtain ⟨m, hm, hnumber⟩ := Number.ofRatio_mul_one false hn
      rw [if_neg (by omega), hnumber]
      exact congrArg (· >>= Whole.ofInt?) (Number.toInt?_finite hm)
    · have hnone : Whole.ofInt? n = none := dif_neg hn
      rw [hnone]
      split
      · rfl
      · exact Number.toWhole?_ofRatio (Nat.not_le.1 hn)

namespace Numeral

/-- The sign of a numeral is that of the number nearest to it. -/
lemma toNumber_cases (c : Nat) (e : Int) :
    (∃ m, ∀ s, toNumber ⟨s, c, e⟩ = .finite s m) ∨ ∀ s, toNumber ⟨s, c, e⟩ = .infinite s := by
  by_cases hc : c = 0
  · exact .inl ⟨.zero, fun s => if_pos hc⟩
  · simp only [toNumber, if_neg hc]
    split
    · exact .inl ⟨.zero, fun s => rfl⟩
    · split
      · exact .inr fun s => rfl
      · simp only [Number.ofRatio]
        cases Magnitude.round? (c * Nat.pow 10 e.toNat * Number.one) (Nat.pow 10 (-e).toNat) with
        | some m => exact .inl ⟨m, fun s => rfl⟩
        | none => exact .inr fun s => rfl

lemma toNumber_negative (c : Nat) (e : Int) :
    toNumber ⟨true, c, e⟩ = (toNumber ⟨false, c, e⟩).neg := by
  obtain ⟨m, h⟩ | h := toNumber_cases c e
  · rw [h, h]
    rfl
  · rw [h, h]
    rfl

lemma isNegativeZero_toNumber (c : Nat) (e : Int) :
    (toNumber ⟨false, c, e⟩).isNegativeZero = false := by
  obtain ⟨m, h⟩ | h := toNumber_cases c e
  · rw [h]
    rfl
  · rw [h]
    rfl

/-- The number nearest to an integer is an integer of the exact range exactly if the integer is one. -/
lemma toWhole?_toNumber_iff {s : Bool} {n : Nat} {k : Whole} :
    (toNumber ⟨s, n, 0⟩).toWhole? = some k ↔ Number.signed s n = k.toInt := by
  cases s with
  | false => rw [toWhole?_toNumber, Whole.ofInt?_eq_some_iff]; rfl
  | true =>
    let k' : Whole := ⟨-k.toInt, by rw [Int.natAbs_neg]; exact k.bounded⟩
    have hk' : (toNumber ⟨false, n, 0⟩).toWhole? = some k' ↔ (n : Int) = -k.toInt := by
      rw [toWhole?_toNumber, Whole.ofInt?_eq_some_iff]
    rw [toNumber_negative, Number.toWhole?_eq_some_iff, Number.toInt?_neg_iff]
    rw [Number.toWhole?_eq_some_iff] at hk'
    rw [hk', Number.signed, if_pos rfl]
    omega

end Numeral

/-- The value of a number literal by way of the number nearest to it: an integer if the text is digits
only and that number an integer of the exact range. The range is checked once more where the integer
is made. -/
def buildLiteral (text : Text) : Except ValueFault (Option Value) :=
  match Numeral.read? text with
  | none => .ok none
  | some n =>
    let x := n.toNumber
    if !x.isFinite then .ok none
    else if text.isDigits && x.toWhole?.isSome then x.toInteger.map fun n => some (.integer n)
    else .ok (some (.float x))

/-- Building a number literal never fails in the check of the range. -/
theorem buildLiteral_eq (text : Text) : buildLiteral text = .ok (numberLiteral? text) := by
  rw [buildLiteral, numberLiteral?]
  cases hdigits : text.isDigits with
  | true =>
    have hwhole := Numeral.toWhole?_toNumber text.toNat
    rw [Numeral.read?_digits hdigits]
    dsimp only
    cases hn : Whole.ofInt? text.toNat with
    | some n =>
      have hle : text.toNat ≤ exactLimit := by
        rw [← Int.natAbs_natCast text.toNat, ← Whole.toInt_of_ofInt? hn]
        exact n.bounded
      rw [hn] at hwhole
      rw [Numeral.isFinite_toNumber hle, Number.toInteger_of_toWhole? hwhole, hwhole]
      rfl
    | none =>
      rw [hn] at hwhole
      rw [hwhole]
      cases (Numeral.toNumber ⟨false, text.toNat, 0⟩).isFinite with
      | true => rfl
      | false => rfl
  | false =>
    cases Numeral.read? text with
    | none => rfl
    | some n =>
      dsimp only
      cases n.toNumber.isFinite with
      | true => rfl
      | false => rfl

end Stencil
