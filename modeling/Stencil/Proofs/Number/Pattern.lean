import Mathlib.Computability.RegularExpressions
import Stencil.Proofs.Number.Numeral
import Stencil.Proofs.Token.Number
import Stencil.Proofs.Token.Reference

/-!
# The patterns of numerals

The regular expressions of integers and of numerals, with a sign and without. A text without a sign
falls into digits, perhaps a point with more digits, and a rest, which must be an exponent. Main
statements: `Numeral.toInt?_isSome_iff`, `Numeral.read?_isSome_iff` and
`Numeral.readUnsigned?_isSome_iff` say that reading accepts exactly the texts of the patterns.
-/

namespace Stencil

namespace Pattern

open RegularExpression

/-- One of some units. -/
def oneOf (units : Text) : RegularExpression CodeUnit := (units.map char).sum

/-- What may be missing. -/
def optional (p : RegularExpression CodeUnit) : RegularExpression CodeUnit := 1 + p

/-- A decimal digit. -/
def digit : RegularExpression CodeUnit := oneOf "0123456789"

/-- One digit or more. -/
def digits : RegularExpression CodeUnit := digit * star digit

/-- A sign, which may be missing. -/
def sign : RegularExpression CodeUnit := optional (oneOf "+-")

/-- An exponent, which may be missing. -/
def exponent : RegularExpression CodeUnit := optional (oneOf "eE" * (sign * digits))

/-- Digits, then perhaps a point and digits; or a point, then digits. -/
def mantissa : RegularExpression CodeUnit :=
  digits * (optional (oneOf ".") * star digit) + oneOf "." * digits

/-- A numeral without a sign. -/
def unsigned : RegularExpression CodeUnit := mantissa * exponent

/-- A numeral. -/
def float : RegularExpression CodeUnit := sign * unsigned

/-- An integer. -/
def integer : RegularExpression CodeUnit := sign * digits

variable {p : RegularExpression CodeUnit} {t w : Text}

lemma mem_oneOf {units : Text} : w ∈ (oneOf units).matches' ↔ ∃ u ∈ units, w = [u] := by
  induction units with
  | nil => exact ⟨False.elim, nofun⟩
  | cons u units ih =>
    have hsum : oneOf (u :: units) = char u + oneOf units := List.sum_cons
    rw [hsum, matches'_add, Language.mem_add, ih, List.exists_mem_cons_iff]
    rfl

lemma mem_optional : w ∈ (optional p).matches' ↔ w = [] ∨ w ∈ p.matches' := Iff.rfl

lemma isDigit_iff_mem {u : CodeUnit} : u.isDigit ↔ u ∈ ("0123456789" : Text) := by
  have hunits : ("0123456789" : Text) = [48, 49, 50, 51, 52, 53, 54, 55, 56, 57] := rfl
  simp only [hunits, CodeUnit.isDigit, Bool.and_eq_true, decide_eq_true_eq, UInt16.le_iff_toNat_le,
    List.mem_cons, List.not_mem_nil, or_false, ← UInt16.toNat_inj, UInt16.reduceToNat]
  omega

lemma mem_digit : w ∈ digit.matches' ↔ ∃ u : CodeUnit, u.isDigit ∧ w = [u] := by
  simp only [digit, mem_oneOf, isDigit_iff_mem]

lemma mem_star_digit : w ∈ (star digit).matches' ↔ ∀ u ∈ w, u.isDigit := by
  rw [matches'_star, Language.mem_kstar]
  constructor
  · rintro ⟨parts, rfl, hparts⟩ u hu
    obtain ⟨part, hpart, hu⟩ := List.mem_flatten.1 hu
    obtain ⟨v, hv, rfl⟩ := mem_digit.1 (hparts part hpart)
    rwa [List.mem_singleton.1 hu]
  · intro hw
    refine ⟨w.map fun u => [u], by rw [← List.flatMap_def, List.flatMap_singleton'], ?_⟩
    exact List.forall_mem_map.2 fun u hu => mem_digit.2 ⟨u, hw u hu, rfl⟩

lemma isDigits_iff : w.isDigits ↔ w ≠ [] ∧ ∀ u ∈ w, u.isDigit := by
  rw [Text.isDigits, Bool.and_eq_true, Bool.not_eq_true', List.isEmpty_eq_false_iff,
    List.all_eq_true]

lemma mem_digits : w ∈ digits.matches' ↔ w.isDigits := by
  rw [digits, matches'_mul, Language.mem_mul, isDigits_iff]
  constructor
  · rintro ⟨a, ha, b, hb, rfl⟩
    obtain ⟨u, hu, rfl⟩ := mem_digit.1 ha
    exact ⟨List.cons_ne_nil _ _, List.forall_mem_cons.2 ⟨hu, mem_star_digit.1 hb⟩⟩
  · rintro ⟨hne, hw⟩
    cases w with
    | nil => exact absurd rfl hne
    | cons u w =>
      obtain ⟨hu, hw⟩ := List.forall_mem_cons.1 hw
      exact ⟨[u], mem_digit.2 ⟨u, hu, rfl⟩, w, mem_star_digit.2 hw, rfl⟩

lemma mem_mantissa : w ∈ mantissa.matches' ↔ w.isDigits ∨ ∃ a b : Text, (∀ u ∈ a, u.isDigit) ∧
    (∀ u ∈ b, u.isDigit) ∧ ¬ (a = [] ∧ b = []) ∧ w = a ++ ('.' : CodeUnit) :: b := by
  have hpoint {v : Text} : v ∈ (oneOf ".").matches' ↔ v = [('.' : CodeUnit)] := by
    have hunits : ("." : Text) = [('.' : CodeUnit)] := rfl
    simp only [mem_oneOf, hunits, List.mem_singleton, exists_eq_left]
  simp only [mantissa, matches'_add, Language.mem_add, matches'_mul, Language.mem_mul,
    mem_optional, hpoint, mem_star_digit]
  constructor
  · rintro (⟨a, ha, _, ⟨v, hv, b, hb, rfl⟩, rfl⟩ | ⟨_, rfl, b, hb, rfl⟩)
    · obtain ⟨hne, ha⟩ := isDigits_iff.1 (mem_digits.1 ha)
      obtain rfl | rfl := hv
      · exact .inl (isDigits_iff.2
          ⟨List.append_ne_nil_of_left_ne_nil hne b, List.forall_mem_append.2 ⟨ha, hb⟩⟩)
      · exact .inr ⟨a, b, ha, hb, fun h => hne h.1, rfl⟩
    · obtain ⟨hne, hb⟩ := isDigits_iff.1 (mem_digits.1 hb)
      exact .inr ⟨[], b, nofun, hb, fun h => hne h.2, rfl⟩
  · rintro (h | ⟨a, b, ha, hb, hne, rfl⟩)
    · exact .inl ⟨w, mem_digits.2 h, [], ⟨[], .inl rfl, [], nofun, rfl⟩, List.append_nil w⟩
    · by_cases hnil : a = []
      · subst hnil
        exact .inr ⟨_, rfl, b, mem_digits.2 (isDigits_iff.2 ⟨fun h => hne ⟨rfl, h⟩, hb⟩), rfl⟩
      · exact .inl ⟨a, mem_digits.2 (isDigits_iff.2 ⟨hnil, ha⟩), _, ⟨_, .inr rfl, b, hb, rfl⟩, rfl⟩

lemma mem_sign :
    w ∈ sign.matches' ↔ w = [] ∨ w = [('+' : CodeUnit)] ∨ w = [('-' : CodeUnit)] := by
  have hunits : ("+-" : Text) = [('+' : CodeUnit), ('-' : CodeUnit)] := rfl
  simp only [sign, mem_optional, mem_oneOf, hunits, List.mem_cons, List.not_mem_nil, or_false,
    exists_eq_or_imp, exists_eq_left]

end Pattern

namespace Reading

open Pattern

variable {t : Text}

lemma take_signWidth (t : Text) : t.take (signWidth t) ∈ Pattern.sign.matches' := by
  rw [mem_sign]
  cases t with
  | nil => exact .inl rfl
  | cons u rest =>
    rw [signWidth]
    split
    · next hu =>
      obtain rfl | rfl := hu
      · exact .inr (.inl rfl)
      · exact .inr (.inr rfl)
    · exact .inl rfl

lemma signWidth_eq_zero (h : ∀ u ∈ t.head?, u.isDigit ∨ u = '.') : signWidth t = 0 := by
  cases t with
  | nil => rfl
  | cons u rest =>
    rw [signWidth, if_neg]
    obtain hu | rfl := h u rfl
    · exact not_or.2 (CodeUnit.isDigit_ne_sign hu).symm
    · decide

lemma signWidth_digits (h : t.isDigits) : signWidth t = 0 :=
  signWidth_eq_zero fun u hu => .inl ((isDigits_iff.1 h).2 u (List.mem_of_mem_head? hu))

/-- A sign before a pattern whose texts have none is the sign that is read. -/
lemma mem_sign_mul {p : RegularExpression CodeUnit} (hp : ∀ w ∈ p.matches', signWidth w = 0) :
    t ∈ (Pattern.sign * p).matches' ↔ t.drop (signWidth t) ∈ p.matches' := by
  rw [RegularExpression.matches'_mul, Language.mem_mul]
  constructor
  · rintro ⟨s, hs, w, hw, rfl⟩
    obtain rfl | rfl | rfl := mem_sign.1 hs
    · rw [List.nil_append, hp w hw]
      exact hw
    · exact hw
    · exact hw
  · intro h
    exact ⟨_, take_signWidth t, _, h, List.take_append_drop _ _⟩

lemma mem_sign_digits :
    t ∈ (Pattern.sign * digits).matches' ↔ Text.isDigits (t.drop (signWidth t)) := by
  rw [mem_sign_mul fun _ hw => signWidth_digits (mem_digits.1 hw), mem_digits]

lemma mem_exponent : t ∈ exponent.matches' ↔ t = [] ∨ ∃ u rest, t = u :: rest ∧
    (u = 'e' ∨ u = 'E') ∧ Text.isDigits (rest.drop (signWidth rest)) := by
  have hunits : ("eE" : Text) = [('e' : CodeUnit), ('E' : CodeUnit)] := rfl
  rw [exponent, mem_optional, RegularExpression.matches'_mul, Language.mem_mul]
  refine or_congr_right ⟨?_, ?_⟩
  · rintro ⟨e, he, rest, hrest, rfl⟩
    obtain ⟨u, hu, rfl⟩ := mem_oneOf.1 he
    refine ⟨u, rest, rfl, ?_, mem_sign_digits.1 hrest⟩
    simpa only [hunits, List.mem_cons, List.not_mem_nil, or_false] using hu
  · rintro ⟨u, rest, rfl, hu, hrest⟩
    refine ⟨[u], mem_oneOf.2 ⟨u, ?_, rfl⟩, rest, mem_sign_digits.2 hrest, rfl⟩
    simpa only [hunits, List.mem_cons, List.not_mem_nil, or_false] using hu

/-- An exponent is read up to the end of a text exactly if the text is one. -/
lemma exponentWidth?_iff : exponentWidth? t = some t.length ↔ t ∈ exponent.matches' := by
  rw [mem_exponent]
  cases t with
  | nil => exact ⟨fun _ => .inl rfl, fun _ => rfl⟩
  | cons u rest =>
    obtain ⟨w, a, rfl, hw, -⟩ := sign_shape rest
    rw [exponentWidth?, ← hw, List.drop_left, List.length_cons, List.length_append]
    constructor
    · intro h
      split at h
      · next hu =>
        split at h
        · cases h
        · next hne =>
          have hlength : (a.takeWhile CodeUnit.isDigit).length = a.length := by
            have := Option.some.inj h
            omega
          have htake := (List.takeWhile_prefix CodeUnit.isDigit).eq_of_length hlength
          rw [htake, List.isEmpty_iff] at hne
          refine .inr ⟨u, w ++ a, rfl, hu, ?_⟩
          rw [← hw, List.drop_left]
          exact isDigits_iff.2 ⟨hne, List.takeWhile_eq_self_iff.1 htake⟩
      · cases h
    · rintro (h | ⟨u', rest', heq, hu, hdigits⟩)
      · cases h
      · cases heq
        rw [← hw, List.drop_left] at hdigits
        obtain ⟨hne, -⟩ := isDigits_iff.1 hdigits
        rw [if_pos hu, (Text.takeWhile_digits hdigits).1, if_neg (mt List.isEmpty_iff.1 hne)]
        congr 1
        omega

end Reading

namespace Numeral

open Reading Pattern

lemma sign_eq (t : Text) : (sign t).2 = t.drop (signWidth t) := by
  cases t with
  | nil => rfl
  | cons u rest =>
    rw [sign, signWidth]
    by_cases hminus : u = '-'
    · rw [if_pos hminus, if_pos (.inr hminus)]
      rfl
    · by_cases hplus : u = '+'
      · rw [if_neg hminus, if_pos hplus, if_pos (.inl hplus)]
        rfl
      · rw [if_neg hminus, if_neg hplus, if_neg (not_or.2 ⟨hplus, hminus⟩)]
        rfl

lemma sign_eq_self {t : Text} (h : signWidth t = 0) : sign t = (false, t) := by
  cases t with
  | nil => rfl
  | cons u rest =>
    rw [signWidth] at h
    split at h
    · cases h
    · next hu =>
      obtain ⟨hplus, hminus⟩ := not_or.1 hu
      rw [sign, if_neg hminus, if_neg hplus]

lemma exponent?_cons {u : CodeUnit} {rest : Text} : exponent? (u :: rest) =
    if (u = 'e' ∨ u = 'E') ∧ Text.isDigits (rest.drop (signWidth rest)) then
      some (Number.signed (sign rest).1 (Text.toNat (rest.drop (signWidth rest))))
    else none := by
  rw [← sign_eq, ite_and]
  rfl

lemma exponent?_isSome_iff {t : Text} : (exponent? t).isSome ↔ t ∈ Pattern.exponent.matches' := by
  rw [mem_exponent]
  cases t with
  | nil => exact ⟨fun _ => .inl rfl, fun _ => rfl⟩
  | cons u rest =>
    rw [exponent?_cons, Option.isSome_ite]
    constructor
    · intro h
      exact .inr ⟨u, rest, rfl, h⟩
    · rintro (h | ⟨u', rest', heq, h⟩)
      · cases h
      · cases heq
        exact h

lemma toInt?_eq (t : Text) : t.toInt? =
    if (sign t).2.isDigits then some (Number.signed (sign t).1 (sign t).2.toNat) else none := rfl

lemma read?_eq (t : Text) : read? t =
    (readUnsigned? (sign t).2).map fun n => ⟨(sign t).1, n.coefficient, n.exponent⟩ := rfl

/-- The parts of a text as a numeral without a sign: digits before a point, digits after it, and
what follows. -/
inductive Parts : Text → Text → Text → Text → Prop where
  | whole {w x : Text} :
    (∀ u ∈ w, u.isDigit) →
    (∀ u : CodeUnit, u ∈ x.head? → u.isDigit = false ∧ u ≠ '.') →
    Parts (w ++ x) w [] x
  | point {w f x : Text} :
    (∀ u ∈ w, u.isDigit) →
    (∀ u ∈ f, u.isDigit) →
    (∀ u ∈ x.head?, u.isDigit = false) →
    Parts (w ++ ('.' : CodeUnit) :: (f ++ x)) w f x

/-- Every text has parts. -/
lemma exists_parts (t : Text) : ∃ w f x, Parts t w f x := by
  obtain ⟨a, ht, -, ha⟩ := takeWhile_split CodeUnit.isDigit t
  have hw : ∀ u ∈ t.takeWhile CodeUnit.isDigit, u.isDigit := fun _ => List.mem_takeWhile_imp
  generalize t.takeWhile CodeUnit.isDigit = w at ht hw
  subst ht
  by_cases hpoint : a.head? = some (.ofBasic '.')
  · obtain ⟨after, rfl⟩ := List.head?_eq_some_iff.1 hpoint
    obtain ⟨x, hafter, -, hx⟩ := takeWhile_split CodeUnit.isDigit after
    rw [hafter]
    exact ⟨w, _, x, .point hw (fun _ => List.mem_takeWhile_imp) hx⟩
  · refine ⟨w, [], a, .whole hw fun u hu => ⟨ha u hu, ?_⟩⟩
    rintro rfl
    exact hpoint hu

namespace Parts

variable {t w f x : Text}

lemma takeWhile_eq (h : Parts t w f x) : t.takeWhile CodeUnit.isDigit = w := by
  cases h with
  | whole hw hx => exact takeWhile_exact hw fun u hu => (hx u hu).1
  | point hw =>
    apply takeWhile_exact hw
    rintro _ ⟨⟩
    decide

lemma dropWhile_eq (h : Parts t w f x) : t.dropWhile CodeUnit.isDigit = t.drop w.length := by
  rw [← drop_takeWhile, h.takeWhile_eq]

lemma readUnsigned?_eq (h : Parts t w f x) : readUnsigned? t =
    if w = [] ∧ f = [] then none
    else (exponent? x).map fun e => ⟨false, Text.toNat (w ++ f), e - f.length⟩ := by
  have hempty : w = [] ∧ f = [] ↔ w.isEmpty && f.isEmpty := by
    rw [Bool.and_eq_true, List.isEmpty_iff, List.isEmpty_iff]
  rw [if_congr hempty rfl rfl]
  clear hempty
  have htake := h.takeWhile_eq
  have hdrop := h.dropWhile_eq
  cases h with
  | whole hw hx =>
    rw [readUnsigned?, htake, hdrop, List.drop_left]
    cases x with
    | nil => rfl
    | cons u x => simp only [if_neg (hx u rfl).2]
  | point hw hf hx =>
    rw [List.drop_left] at hdrop
    have htake' := takeWhile_exact hf hx
    have hdrop' : (f ++ x).dropWhile CodeUnit.isDigit = x := by
      rw [← drop_takeWhile, htake', List.drop_left]
    simp only [readUnsigned?, htake, hdrop, if_true, htake', hdrop']

lemma mantissaWidth_eq (h : Parts t w f x) :
    mantissaWidth t + x.length = t.length ∧ t.drop (mantissaWidth t) = x := by
  have htake := h.takeWhile_eq
  cases h with
  | whole hw hx =>
    have hfraction : fractionWidth x = 0 := by
      cases x with
      | nil => rfl
      | cons u x => exact if_neg (hx u rfl).2
    rw [Reading.mantissaWidth_eq, htake, List.drop_left, hfraction, Nat.add_zero]
    exact ⟨List.length_append.symm, List.drop_left⟩
  | point hw hf hx =>
    have hwidth : w.length + (1 + f.length) = (w ++ ('.' : CodeUnit) :: f).length := by
      rw [List.length_append, List.length_cons]
      omega
    have htext : w ++ ('.' : CodeUnit) :: (f ++ x) = (w ++ ('.' : CodeUnit) :: f) ++ x := by simp
    rw [Reading.mantissaWidth_eq, htake, List.drop_left, fractionWidth,
      if_pos rfl, takeWhile_exact hf hx, hwidth, htext]
    exact ⟨List.length_append.symm, List.drop_left⟩

end Parts

lemma head_of_mem_exponent {x : Text} (h : x ∈ Pattern.exponent.matches') :
    ∀ u ∈ x.head?, u.isDigit = false ∧ u ≠ '.' := by
  obtain rfl | ⟨u, rest, rfl, hu, -⟩ := mem_exponent.1 h
  · exact nofun
  · rintro _ ⟨⟩
    obtain rfl | rfl := hu <;> decide

/-- A numeral has a digit before the point or after it, and then an exponent. -/
lemma mem_unsigned {t : Text} : t ∈ unsigned.matches' ↔
    ∃ w f x, Parts t w f x ∧ ¬ (w = [] ∧ f = []) ∧ x ∈ Pattern.exponent.matches' := by
  rw [unsigned, RegularExpression.matches'_mul, Language.mem_mul]
  constructor
  · rintro ⟨m, hm, x, hx, rfl⟩
    have hhead := head_of_mem_exponent hx
    obtain hm | ⟨w, f, hw, hf, hne, rfl⟩ := mem_mantissa.1 hm
    · obtain ⟨hne, hm⟩ := isDigits_iff.1 hm
      exact ⟨m, [], x, .whole hm hhead, fun h => hne h.1, hx⟩
    · rw [List.append_assoc]
      exact ⟨w, f, x, .point hw hf fun u hu => (hhead u hu).1, hne, hx⟩
  · rintro ⟨w, f, x, hparts, hne, hx⟩
    cases hparts with
    | whole hw =>
      have hdigits : w.isDigits := isDigits_iff.2 ⟨fun h => hne ⟨h, rfl⟩, hw⟩
      exact ⟨w, mem_mantissa.2 (.inl hdigits), x, hx, rfl⟩
    | point hw hf =>
      exact ⟨_, mem_mantissa.2 (.inr ⟨w, f, hw, hf, hne, rfl⟩), x, hx, List.append_assoc _ _ _⟩

/-- A numeral without a sign is read exactly from the texts of its pattern. -/
lemma readUnsigned?_isSome_iff {t : Text} :
    (readUnsigned? t).isSome ↔ t ∈ unsigned.matches' := by
  constructor
  · intro h
    obtain ⟨w, f, x, hparts⟩ := exists_parts t
    rw [hparts.readUnsigned?_eq] at h
    split at h
    · cases h
    · next hne =>
      rw [Option.isSome_map, exponent?_isSome_iff] at h
      exact mem_unsigned.2 ⟨w, f, x, hparts, hne, h⟩
  · intro h
    obtain ⟨w, f, x, hparts, hne, hx⟩ := mem_unsigned.1 h
    rw [hparts.readUnsigned?_eq, if_neg hne, Option.isSome_map, exponent?_isSome_iff]
    exact hx

lemma signWidth_unsigned {t : Text} (h : t ∈ unsigned.matches') : signWidth t = 0 := by
  obtain ⟨w, f, x, hparts, hne, -⟩ := mem_unsigned.1 h
  refine signWidth_eq_zero fun u hu => ?_
  cases hparts with
  | whole hw =>
    cases w with
    | nil => exact absurd ⟨rfl, rfl⟩ hne
    | cons v w =>
      cases hu
      exact .inl (hw u List.mem_cons_self)
  | point hw =>
    cases w with
    | nil =>
      cases hu
      exact .inr rfl
    | cons v w =>
      cases hu
      exact .inl (hw u List.mem_cons_self)

/-- A numeral is read exactly from the texts of its pattern. -/
theorem read?_isSome_iff {t : Text} : (read? t).isSome ↔ t ∈ float.matches' := by
  rw [read?_eq, Option.isSome_map, readUnsigned?_isSome_iff, sign_eq, float,
    mem_sign_mul fun _ => signWidth_unsigned]

/-- An integer is read exactly from the texts of its pattern. -/
theorem toInt?_isSome_iff {t : Text} : t.toInt?.isSome ↔ t ∈ integer.matches' := by
  rw [toInt?_eq, Option.isSome_ite, sign_eq, integer, mem_sign_digits]

end Numeral

end Stencil
