import Mathlib.Algebra.Group.Int.Defs
import Stencil.Proofs.Number.Literal
import Stencil.Proofs.Number.Pattern
import Stencil.Proofs.Template.Segment

/-!
# Numerals as literals and as strings

A numeral without a sign is one lexeme, a literal, and a string that converts to a number. Main
statement: `Value.numerals_agree`, all ways to a number accept the same texts and give the same number,
and all ways to an integer end at the same bound.
-/

namespace Stencil

namespace Reading

open Numeral

/-- Only a digit or a point before one begins a number. -/
lemma number_of_first {u : CodeUnit} {rest l : Text} {n : Nat}
    (h : first u rest = .ok ⟨.number l, n⟩) :
    number (u :: rest) = .ok ⟨.number l, n⟩ ∧
      (u.isDigit ∨ u = '.' ∧ ∃ d after, rest = d :: after ∧ d.isDigit) := by
  cases first_iff.1 h with
  | digit hu hnum => exact ⟨hnum, .inl hu⟩
  | point hd hnum => exact ⟨hnum, .inr ⟨rfl, _, _, rfl, hd⟩⟩
  | quote _ hstring =>
    obtain ⟨w, a, value, -, -, heq⟩ := string_iff.1 hstring
    cases heq
  | dollar href =>
    obtain ⟨source, path, heq⟩ := reference_lexeme href
    cases heq
  | symbol _ hsymbol =>
    obtain ⟨s, -, -, heq⟩ | ⟨s, -, -, heq⟩ | ⟨m, -, -, heq⟩ := symbol_cases hsymbol <;> cases heq

/-- A text that begins as a number has a digit among its parts. -/
lemma parts_ne {u : CodeUnit} {rest w f x : Text} (h : Parts (u :: rest) w f x)
    (hu : u.isDigit ∨ u = '.' ∧ ∃ d after, rest = d :: after ∧ d.isDigit) :
    ¬ (w = [] ∧ f = []) := by
  rintro ⟨rfl, rfl⟩
  generalize ht : u :: rest = t at h
  cases h with
  | whole _ hx =>
    subst ht
    obtain ⟨hdigit, hpoint⟩ := hx u rfl
    obtain hu | ⟨hu, -⟩ := hu
    · rw [hdigit] at hu
      cases hu
    · exact hpoint hu
  | point _ _ hx =>
    cases ht
    obtain hu | ⟨-, d, after, rfl, hd⟩ := hu
    · exact absurd hu (by decide)
    · rw [hx d rfl] at hd
      cases hd

/-- A text is one number lexeme exactly if it is a numeral without a sign. -/
theorem reads_number_iff {t l : Text} :
    Reads t (.number l) ↔ l = t ∧ t ∈ Pattern.unsigned.matches' := by
  rw [mem_unsigned]
  constructor
  · rintro ⟨u, rest, rfl, hfirst⟩
    obtain ⟨hnum, hu⟩ := number_of_first hfirst
    obtain ⟨w, f, x, hparts⟩ := exists_parts (u :: rest)
    obtain ⟨hwidth, hdrop⟩ := hparts.mantissaWidth_eq
    obtain ⟨k, hk, heq⟩ := number_iff.1 hnum
    have hmore : rest.length = mantissaWidth (u :: rest) + k - 1 := congrArg Reading.more heq
    have hpos : 0 < mantissaWidth (u :: rest) := mantissaWidth_pos (hu.imp_right And.left)
    -- the lexeme takes all the text, so its exponent is all that follows the mantissa
    have hk' : k = x.length := by
      rw [List.length_cons] at hwidth
      omega
    subst hk'
    rw [hdrop] at hk
    rw [hwidth, List.take_length] at heq
    injection heq with hl
    injection hl with hl
    exact ⟨hl, w, f, x, hparts, parts_ne hparts hu, exponentWidth?_iff.1 hk⟩
  · rintro ⟨rfl, w, f, x, hparts, hne, hx⟩
    obtain ⟨hwidth, hdrop⟩ := hparts.mantissaWidth_eq
    have hnum : number l = .ok ⟨.number l, l.length - 1⟩ := by
      refine number_iff.2 ⟨x.length, ?_, ?_⟩
      · rw [hdrop]
        exact exponentWidth?_iff.2 hx
      · rw [hwidth, List.take_length]
    cases hparts with
    | whole hw =>
      cases w with
      | nil => exact absurd ⟨rfl, rfl⟩ hne
      | cons u w => exact ⟨u, _, rfl, first_iff.2 (.digit (hw u List.mem_cons_self) hnum)⟩
    | point hw hf =>
      cases w with
      | cons u w => exact ⟨u, _, rfl, first_iff.2 (.digit (hw u List.mem_cons_self) hnum)⟩
      | nil =>
        cases f with
        | nil => exact absurd ⟨rfl, rfl⟩ hne
        | cons d f => exact ⟨_, _, rfl, first_iff.2 (.point (hf d List.mem_cons_self) hnum)⟩

end Reading

/-- The tokens of a source are one number that is all of it exactly if the source is a numeral
without a sign. -/
lemma tokenize_number_iff {t : Text} :
    (tokenize t).map (List.map Token.lexeme) = .ok [.number t, .eof] ↔
      t ∈ Pattern.unsigned.matches' := by
  constructor
  · intro h
    cases htokens : tokenize t with
    | error => rw [htokens] at h; cases h
    | ok ts =>
      rw [htokens] at h
      obtain ⟨a, us, rfl, ha, hus⟩ := List.map_eq_cons_iff.1 (Except.ok.inj h)
      obtain ⟨last, vs, rfl, hlast, hvs⟩ := List.map_eq_cons_iff.1 hus
      obtain rfl := List.map_eq_nil_iff.1 hvs
      have hsplit : tokenize t = .ok ([a] ++ [last]) := htokens
      obtain ⟨hspelled, -⟩ := Cursor.tokens_eof_iff.1 ⟨tokenize_iff.1 hsplit, hlast⟩
      have hread := hspelled.reads a List.mem_cons_self
      rw [ha] at hread
      obtain ⟨hraw, hmem⟩ := Reading.reads_number_iff.1 hread
      rwa [hraw]
  · intro h
    have hspelled := Spelled.single (o := 0) (Reading.reads_number_iff.2 ⟨rfl, h⟩) rfl
    have htokens : tokenize t = .ok ([_] ++ [_]) := tokenize_iff.2 hspelled.tokens_eof
    rw [htokens]
    rfl

namespace Numeral

variable {t : Text}

/-- A numeral without a sign is read. -/
lemma exists_read? (h : t ∈ Pattern.unsigned.matches') : ∃ n, read? t = some n := by
  rw [← Option.isSome_iff_exists, read?_isSome_iff, Pattern.float,
    Reading.mem_sign_mul fun _ => signWidth_unsigned, signWidth_unsigned h]
  exact h

lemma readUnsigned?_digits (h : t.isDigits) : readUnsigned? t = some ⟨false, t.toNat, 0⟩ := by
  obtain ⟨hne, hdigits⟩ := Pattern.isDigits_iff.1 h
  have hparts : Parts (t ++ []) t [] [] := .whole hdigits nofun
  have hread := hparts.readUnsigned?_eq
  rw [if_neg fun h => hne h.1, List.append_nil] at hread
  exact hread

/-- An integer is read as a numeral of its digits. -/
lemma read?_integer (h : (sign t).2.isDigits) : read? t = some ⟨(sign t).1, (sign t).2.toNat, 0⟩ := by
  rw [read?_eq, readUnsigned?_digits h]
  rfl

end Numeral

namespace Value

variable {t : Text} {n : Whole}

lemma asFloat_string {m : Numeral} (h : Numeral.read? t = some m) :
    asFloat (.string t) = .ok m.toNumber := by
  rw [asFloat, h]

lemma asInteger_string : asInteger (.string t) = .ok n ↔ t.toInt? = some n.toInt := by
  have hread : asInteger (.string t) = .ok n ↔ (t.toInt? >>= Whole.ofInt?) = some n := by
    rw [asInteger]
    cases t.toInt? >>= Whole.ofInt? with
    | none => exact ⟨nofun, nofun⟩
    | some k => exact ⟨fun h => congrArg some (Except.ok.inj h), fun h => congrArg _ (Option.some.inj h)⟩
  rw [hread, Option.bind_eq_bind, Option.bind_eq_some_iff]
  simp only [Whole.ofInt?_eq_some_iff, exists_eq_right]

/-- A string converts to an integer exactly if it is one, and the number nearest to it is that
integer. -/
lemma asInteger_string_iff : asInteger (.string t) = .ok n ↔
    t ∈ Pattern.integer.matches' ∧ ∃ x, asFloat (.string t) = .ok x ∧ x.toWhole? = some n := by
  have hmem : t ∈ Pattern.integer.matches' ↔ (Numeral.sign t).2.isDigits := by
    rw [← Numeral.toInt?_isSome_iff, Numeral.toInt?_eq, Option.isSome_ite]
  rw [asInteger_string, hmem, Numeral.toInt?_eq]
  constructor
  · intro h
    obtain ⟨hdigits, hn⟩ := Option.ite_none_right_eq_some.1 h
    exact ⟨hdigits, _, asFloat_string (Numeral.read?_integer hdigits),
      Numeral.toWhole?_toNumber_iff.2 (Option.some.inj hn)⟩
  · rintro ⟨hdigits, x, hx, hn⟩
    rw [asFloat_string (Numeral.read?_integer hdigits)] at hx
    cases hx
    rw [if_pos hdigits, Numeral.toWhole?_toNumber_iff.1 hn]

/-- A numeral without a sign converts to an integer exactly if it is digits that write the integer. -/
lemma asInteger_unsigned_iff (h : t ∈ Pattern.unsigned.matches') :
    asInteger (.string t) = .ok n ↔ t.isDigits ∧ (t.toNat : Int) = n.toInt := by
  rw [asInteger_string, Numeral.toInt?_eq, Numeral.sign_eq_self (Numeral.signWidth_unsigned h),
    Option.ite_none_right_eq_some, Option.some_inj]
  rfl

/-- A literal has the number that the string converts to, and is an integer exactly if the string
converts to that integer. -/
lemma numberLiteral?_agrees (h : t ∈ Pattern.unsigned.matches') {x : Number}
    (hx : asFloat (.string t) = .ok x) (hfinite : x.isFinite) : ∃ v, numberLiteral? t = some v ∧
      v.number? = some x ∧ ∀ n, v = .integer n ↔ asInteger (.string t) = .ok n := by
  simp only [asInteger_unsigned_iff h]
  rw [numberLiteral?]
  cases hdigits : t.isDigits with
  | true =>
    rw [asFloat_string (Numeral.read?_digits hdigits)] at hx
    cases hx
    cases hn : Whole.ofInt? t.toNat with
    | some k =>
      have hwhole := Numeral.toWhole?_toNumber t.toNat
      rw [hn] at hwhole
      have hnumber := Number.toNumber_of_toWhole? hwhole (Numeral.isNegativeZero_toNumber _ _)
      refine ⟨.integer k, rfl, congrArg some hnumber, fun n => ?_⟩
      rw [Whole.ofInt?_eq_some_iff.1 hn]
      constructor
      · rintro ⟨⟩
        exact ⟨rfl, rfl⟩
      · rintro ⟨-, hkn⟩
        rw [Whole.ext hkn]
    | none =>
      dsimp only
      rw [Numeral.read?_digits hdigits]
      dsimp only
      rw [if_pos hfinite]
      refine ⟨_, rfl, rfl, fun n => ?_⟩
      constructor
      · rintro ⟨⟩
      · rintro ⟨-, heq⟩
        rw [Whole.ofInt?_eq_some_iff.2 heq] at hn
        cases hn
  | false =>
    obtain ⟨m, hm⟩ := Numeral.exists_read? h
    rw [asFloat_string hm] at hx
    cases hx
    rw [hm]
    dsimp only
    rw [if_pos hfinite]
    refine ⟨_, rfl, rfl, fun n => ?_⟩
    constructor
    · rintro ⟨⟩
    · rintro ⟨⟨⟩, -⟩

end Value

/-- A numeral without a sign is an expression, if its literal has a value. -/
lemma Expr.parse_number {t : Text} {v : Value} (h : t ∈ Pattern.unsigned.matches')
    (hv : numberLiteral? t = some v) : parse t none = .ok (.literal ⟨0, t.length⟩ v t) := by
  have hspelled := Spelled.single (o := 0) (Reading.reads_number_iff.2 ⟨rfl, h⟩) rfl
  rw [Nat.zero_add] at hspelled
  have hderives : Derives 0 [⟨.number t, t, ⟨0, t.length⟩⟩]
      (Level.primary.phrase (.literal ⟨0, t.length⟩ v t)) := .literal hv
  exact parse_spelled_iff.2 ⟨_, 0, hspelled, hderives.lower_pipeline, within_none⟩

namespace Value

/-- The ways to a number agree. A text is one number lexeme exactly if it is a numeral without a
sign. Then it converts to a number as a string, and, if that number is finite, it is a literal with
this number as its value; the literal is an integer exactly if the string converts to an integer,
which it does if the text is digits that write an integer of the exact range. Any string converts to
an integer exactly if it is one and the number that it converts to is that integer. -/
theorem numerals_agree (t : Text) :
    ((tokenize t).map (List.map Token.lexeme) = .ok [.number t, .eof] ↔
      t ∈ Pattern.unsigned.matches') ∧
    (t ∈ Pattern.unsigned.matches' → ∃ x, asFloat (.string t) = .ok x ∧ (x.isFinite →
      ∃ v, Expr.parse t none = .ok (.literal ⟨0, t.length⟩ v t) ∧ v.number? = some x ∧
        ((∃ n, v = .integer n) ↔ ∃ n, asInteger (.string t) = .ok n) ∧
        ((∃ n, asInteger (.string t) = .ok n) ↔ t.isDigits ∧ t.toNat ≤ 2 ^ 53 - 1) ∧
        ∀ n, asInteger (.string t) = .ok n →
          v = .integer n ∧ n.toInt = t.toNat ∧ x.toInt? = some (t.toNat : Int))) ∧
    ∀ n, asInteger (.string t) = .ok n ↔ t ∈ Pattern.integer.matches' ∧
      ∃ x, asFloat (.string t) = .ok x ∧ x.toWhole? = some n ∧ x.eq n.toNumber := by
  refine ⟨tokenize_number_iff, fun h => ?_, fun n => ?_⟩
  · obtain ⟨m, hm⟩ := Numeral.exists_read? h
    refine ⟨m.toNumber, asFloat_string hm, fun hfinite => ?_⟩
    obtain ⟨v, hv, hnumber, hinteger⟩ := numberLiteral?_agrees h (asFloat_string hm) hfinite
    refine ⟨v, Expr.parse_number h hv, hnumber, exists_congr hinteger, ?_, fun n hn => ?_⟩
    · simp only [asInteger_unsigned_iff h, exists_and_left, Whole.exists_natCast_iff]
      exact Iff.rfl
    · obtain ⟨-, x, hx, hwhole⟩ := asInteger_string_iff.1 hn
      cases hx.symm.trans (asFloat_string hm)
      have hvalue := ((asInteger_unsigned_iff h).1 hn).2
      refine ⟨(hinteger n).2 hn, hvalue.symm, ?_⟩
      rw [Number.toWhole?_eq_some_iff.1 hwhole, hvalue]
  · rw [asInteger_string_iff]
    refine and_congr_right fun _ => exists_congr fun x => and_congr_right fun _ => ?_
    exact ⟨fun hn => ⟨hn, Number.eq_toNumber hn⟩, And.left⟩

/-- The largest integer of the exact range, written with a zero in front. -/
theorem numerals_agree_limit : ("09007199254740991" : Text) ∈ Pattern.unsigned.matches' ∧
    ∃ x, asFloat (.string "09007199254740991") = .ok x ∧ x.toInt? = some (2 ^ 53 - 1) ∧
      Expr.parse "09007199254740991" none =
        .ok (.literal ⟨0, 17⟩ (.integer ⟨2 ^ 53 - 1, by decide⟩) "09007199254740991") := by
  have hmem : ("09007199254740991" : Text) ∈ Pattern.unsigned.matches' :=
    (RegularExpression.rmatch_iff_matches' _ _).1 (by decide +kernel)
  have hinteger : asInteger (.string "09007199254740991") = .ok ⟨2 ^ 53 - 1, by decide⟩ := by rfl
  obtain ⟨-, hunsigned, hstring⟩ := numerals_agree "09007199254740991"
  obtain ⟨x, hx, hliteral⟩ := hunsigned hmem
  obtain ⟨-, x', hx', hwhole, -⟩ := (hstring _).1 hinteger
  cases hx.symm.trans hx'
  have hfinite : x.isFinite := by
    obtain ⟨s, m, k, rfl, -, -⟩ := Number.eq_of_toInt? (Number.toWhole?_eq_some_iff.1 hwhole)
    rfl
  obtain ⟨v, hparse, -, -, -, hvalue⟩ := hliteral hfinite
  obtain ⟨rfl, -, -⟩ := hvalue _ hinteger
  exact ⟨hmem, x, hx, Number.toWhole?_eq_some_iff.1 hwhole, hparse⟩

end Value

end Stencil
