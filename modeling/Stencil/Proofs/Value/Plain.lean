import Mathlib.Tactic.Lemma
import Stencil.Proofs.Number.Decimal
import Stencil.Proofs.Value.Numeral

/-!
# The text of scalars

In layouts null, Booleans and numbers are words. Main statement: `Value.ofPlain?_plainText`, the word of a
value is read back as that value. A float is never taken for an integer, whatever its magnitude
(`Number.toInt?_textWithPlace`).
-/

namespace Stencil

/-- Units of names and of numerals. -/
def CodeUnit.isWord (u : CodeUnit) : Bool := u.isNamePart || u == '.' || u == '+' || u == '-'

lemma CodeUnit.isWord_digit {u : CodeUnit} (h : u.isDigit) : u.isWord := by
  rw [isWord, isNamePart, h]
  simp

namespace Text

/-- Units of words only. -/
def IsWord (t : Text) : Prop := ∀ u ∈ t, u.isWord

variable {s t : Text}

instance (t : Text) : Decidable t.IsWord :=
  decidable_of_iff (t.all CodeUnit.isWord) List.all_eq_true

lemma IsWord.append (hs : s.IsWord) (ht : t.IsWord) : (s ++ t).IsWord := List.forall_mem_append.2 ⟨hs, ht⟩

lemma isWord_ofNat (n : Nat) : (ofNat n).IsWord := fun u hu => CodeUnit.isWord_digit (isDigit_ofNat n u hu)

lemma isWord_ofInt (n : Int) : (ofInt n).IsWord := by
  rw [ofInt]
  split
  · exact .append (by decide) (isWord_ofNat _)
  · exact isWord_ofNat _

lemma ofInt_ne_nil (n : Int) : ofInt n ≠ [] := by
  rw [ofInt]
  split
  · exact List.cons_ne_nil _ _
  · exact ofNat_ne_nil _

/-- Words end where another unit follows. -/
lemma IsWord.append_inj (hs : s.IsWord) (ht : t.IsWord) {a b : Text}
    (ha : ∀ u ∈ a.head?, u.isWord = false) (hb : ∀ u ∈ b.head?, u.isWord = false)
    (h : s ++ a = t ++ b) : s = t ∧ a = b := by
  have hwords := congrArg (List.takeWhile CodeUnit.isWord) h
  rw [Reading.takeWhile_exact hs ha, Reading.takeWhile_exact ht hb] at hwords
  subst hwords
  exact ⟨rfl, List.append_cancel_left h⟩

end Text

namespace Decimal

lemma isWord_text (d : Decimal) : d.text.IsWord := by
  have hdigits := Text.isWord_ofNat d.digits
  have hzeros (k : Nat) : Text.IsWord (List.replicate k '0') := by
    intro u hu
    rw [(List.mem_replicate.1 hu).2]
    decide
  unfold Decimal.text
  dsimp only
  generalize Text.ofNat d.digits = digits at *
  have htake (k : Nat) : Text.IsWord (digits.take k) := fun u hu => hdigits u (List.mem_of_mem_take hu)
  have hdrop (k : Nat) : Text.IsWord (digits.drop k) := fun u hu => hdigits u (List.mem_of_mem_drop hu)
  have hcut (k : Nat) : Text.IsWord (digits.take k ++ "." ++ digits.drop k) :=
    ((htake k).append (by decide)).append (hdrop k)
  split
  · exact hdigits.append (hzeros _)
  · split
    · exact hcut _
    · split
      · exact (Text.IsWord.append (by decide) (hzeros _)).append hdigits
      · refine (Text.IsWord.append ?_ ?_).append (Text.isWord_ofNat _)
        · split
          · exact hdigits
          · exact hcut 1
        · split <;> decide

end Decimal

namespace Number

lemma isWord_text (x : Number) : x.text.IsWord := by
  cases x with
  | nan => decide
  | infinite s => cases s <;> decide
  | finite s m =>
    rw [text]
    split
    · decide
    · refine .append ?_ (Decimal.isWord_text _)
      cases s <;> decide

lemma isWord_textWithPlace (x : Number) : x.textWithPlace.IsWord := by
  rw [textWithPlace]
  split
  · split
    · exact (Text.isWord_ofInt _).append (by decide)
    · exact isWord_text x
  · exact isWord_text x

lemma text_ne_nil (x : Number) : x.text ≠ [] := by
  cases x with
  | nan => decide
  | infinite s => cases s <;> decide
  | finite s m =>
    rw [text]
    split
    · decide
    · refine List.append_ne_nil_of_right_ne_nil _ fun hnil => ?_
      obtain ⟨n, hread, -⟩ := Decimal.writes_text (Decimal.shortest m.units)
      rw [hnil] at hread
      cases hread

lemma textWithPlace_ne_nil (x : Number) : x.textWithPlace ≠ [] := by
  rw [textWithPlace]
  split
  · split
    · exact List.append_ne_nil_of_left_ne_nil (Text.ofInt_ne_nil _) _
    · exact x.text_ne_nil
  · exact x.text_ne_nil

end Number

lemma Quantity.isWord_text (q : Quantity) : q.text.IsWord := by
  cases q with
  | whole n => exact Text.isWord_ofInt n
  | other x => exact x.isWord_text

namespace Value

/-- The text of null, of a Boolean and of a number. -/
def plainText? : Value → Option Text
  | .null => some "null"
  | .bool b => some (if b then "true" else "false")
  | .integer n => some (.ofInt n.toInt)
  | .float x => some x.textWithPlace
  | _ => none

/-- The value that a word stands for. -/
def ofPlain? (t : Text) : Option Value :=
  if t = "null" then some .null
  else if t = "true" then some (.bool true)
  else if t = "false" then some (.bool false)
  else if t = "NaN" then some (.float .nan)
  else if t = "Infinity" then some (.float (.infinite false))
  else if t = "-Infinity" then some (.float (.infinite true))
  else
    match t.toInt? >>= Whole.ofInt? with
    | some n => some (.integer n)
    | none => (Numeral.read? t).map fun m => .float m.toNumber

variable {v w : Value} {t : Text}

lemma isWord_plainText (h : v.plainText? = some t) : t.IsWord := by
  cases v with
  | null => cases h; decide
  | bool b => cases h; cases b <;> decide
  | integer n => cases h; exact Text.isWord_ofInt _
  | float x => cases h; exact x.isWord_textWithPlace
  | _ => cases h

lemma ofPlain?_of_read? {m : Numeral} (h : Numeral.read? t = some m) : ofPlain? t =
    match t.toInt? >>= Whole.ofInt? with
    | some n => some (.integer n)
    | none => some (.float m.toNumber) := by
  have hne {s : Text} (hs : Numeral.read? s = none) : t ≠ s := by
    rintro rfl
    rw [hs] at h
    cases h
  rw [ofPlain?, if_neg (hne rfl), if_neg (hne rfl), if_neg (hne rfl), if_neg (hne rfl),
    if_neg (hne rfl), if_neg (hne rfl), h]
  rfl

end Value

lemma Numeral.sign_ofInt_append (n : Int) (s : Text) :
    sign (Text.ofInt n ++ s) = (decide (n < 0), Text.ofNat n.natAbs ++ s) := by
  rw [Text.ofInt]
  split
  · next h =>
    rw [decide_eq_true h]
    rfl
  · next h =>
    rw [decide_eq_false h]
    refine sign_eq_self (Reading.signWidth_eq_zero fun u hu => .inl ?_)
    rw [List.head?_append_of_ne_nil _ (Text.ofNat_ne_nil _)] at hu
    exact Text.isDigit_ofNat _ u (List.mem_of_mem_head? hu)

lemma Text.toInt?_ofInt (n : Int) : (ofInt n).toInt? = some n ∧ ∃ m, Numeral.read? (ofInt n) = some m := by
  have hsign := Numeral.sign_ofInt_append n []
  have hdigits : (ofNat n.natAbs).isDigits :=
    Pattern.isDigits_iff.2 ⟨ofNat_ne_nil _, isDigit_ofNat _⟩
  rw [List.append_nil, List.append_nil] at hsign
  constructor
  · rw [Numeral.toInt?_eq, hsign]
    dsimp only
    rw [if_pos hdigits, toNat_ofNat, Number.signed_natAbs fun _ => rfl]
  · refine ⟨_, Numeral.read?_integer ?_⟩
    rw [hsign]
    exact hdigits

/-- The text of a float is not that of an integer of the exact range: the number would be that integer,
and its text would have a point. -/
lemma Number.toInt?_textWithPlace {x : Number} (hx : x.isFinite) (hzero : x.isNegativeZero = false)
    (n : Whole) : x.textWithPlace.toInt? ≠ some n.toInt := by
  intro h
  obtain ⟨m, hread, hm⟩ := read?_textWithPlace hx hzero
  have hinteger := h
  rw [Numeral.toInt?_eq] at h
  obtain ⟨hdigits, hn⟩ := Option.ite_none_right_eq_some.1 h
  rw [Numeral.read?_integer hdigits] at hread
  obtain rfl := Option.some.inj hread
  have hwhole := Numeral.toWhole?_toNumber_iff.2 (Option.some.inj hn)
  rw [hm, toWhole?_eq_some_iff] at hwhole
  have hlt : n.toInt.natAbs < Nat.pow 10 21 := Nat.lt_of_le_of_lt n.bounded (by decide)
  have htext : x.textWithPlace = Text.ofInt n.toInt ++ ".0" := by
    rw [textWithPlace, hwhole]
    exact if_pos hlt
  have hpoint : CodeUnit.isDigit '.' :=
    (Pattern.isDigits_iff.1 hdigits).2 '.' (by
      rw [htext, Numeral.sign_ofInt_append]
      exact List.mem_append_right _ List.mem_cons_self)
  exact absurd hpoint (by decide)

namespace Value

variable {v w : Value} {t : Text}

/-- A scalar is read back from its text, but for negative zero. -/
theorem ofPlain?_plainText (h : v.plainText? = some t)
    (hzero : ∀ x, v = .float x → x.isNegativeZero = false) : ofPlain? t = some v := by
  cases v with
  | null => cases h; rfl
  | bool b => cases h; cases b <;> rfl
  | integer n =>
    cases h
    obtain ⟨hinteger, m, hm⟩ := Text.toInt?_ofInt n.toInt
    rw [ofPlain?_of_read? hm, hinteger]
    change (match Whole.ofInt? n.toInt with | some n => _ | none => _) = _
    rw [n.ofInt?_toInt]
  | float x =>
    cases h
    by_cases hx : x.isFinite
    · obtain ⟨m, hread, hm⟩ := Number.read?_textWithPlace hx (hzero x rfl)
      rw [ofPlain?_of_read? hread]
      split
      · next n hn =>
        obtain ⟨i, hi, hn⟩ := Option.bind_eq_some_iff.1 hn
        rw [← Whole.toInt_of_ofInt? hn] at hi
        exact absurd hi (Number.toInt?_textWithPlace hx (hzero x rfl) n)
      · rw [hm]
    · cases x with
      | nan => rfl
      | infinite s => cases s <;> rfl
      | finite => exact absurd rfl hx
  | _ => cases h

end Value

end Stencil
