import Mathlib.Tactic.Lemma
import Stencil.Text.Blank

/-!
# Classes of units

What the units of lexemes are, as far as the scanner tells them apart.
-/

namespace Stencil

/-- A decidable property of all units of a text is checked on these alone. -/
lemma Text.forall_mem {p : CodeUnit → Prop} [DecidablePred p] {t : Text}
    (h : t.all fun v => p v) : ∀ v ∈ t, p v := by
  simpa using h

namespace CodeUnit

/-- Units that can continue a lexeme which might also end before them. -/
def joins (u : CodeUnit) : Bool :=
  u.isNamePart || u == '.' || u == '=' || u == '&' || u == '|'

/-- The units of signs and marks. -/
def isSymbol (u : CodeUnit) : Bool := ("+-*/%<>!|&=(),?:" : Text).contains u

/-- Units of lexemes other than the dollar and what stands in quotes. -/
def isPlain (u : CodeUnit) : Bool := u.isNamePart || u == '.' || u.isSymbol

lemma isNamePart_of_isDigit {u : CodeUnit} (h : u.isDigit) : u.isNamePart := by
  rw [isNamePart, h, Bool.or_true]

lemma isNamePart_of_isNameStart {u : CodeUnit} (h : u.isNameStart) : u.isNamePart := by
  rw [isNamePart, h, Bool.true_or]

lemma isPlain_of_isNamePart {u : CodeUnit} (h : u.isNamePart) : u.isPlain := by
  rw [isPlain, h, Bool.true_or, Bool.true_or]

lemma joins_of_isNamePart {u : CodeUnit} (h : u.isNamePart) : u.joins := by
  simp [joins, h]

lemma joins_of_isDigit {u : CodeUnit} (h : u.isDigit) : u.joins :=
  joins_of_isNamePart (isNamePart_of_isDigit h)

/-- Plain units are printable. -/
lemma isPlain_range {u : CodeUnit} (h : u.isPlain) : 33 ≤ u.toNat ∧ u.toNat ≤ 124 := by
  have symbols : ∀ v ∈ ("+-*/%<>!|&=(),?:" : Text), 33 ≤ v.toNat ∧ v.toNat ≤ 124 :=
    Text.forall_mem (by decide)
  rw [isPlain, Bool.or_eq_true, Bool.or_eq_true] at h
  obtain (h | h) | h := h
  · simp only [isNamePart, isNameStart, isDigit, Bool.or_eq_true, Bool.and_eq_true,
      decide_eq_true_eq, beq_iff_eq, UInt16.le_iff_toNat_le, ← UInt16.toNat_inj,
      UInt16.reduceToNat] at h
    omega
  · rw [beq_iff_eq.1 h]
    decide
  · exact symbols u (List.contains_iff_mem.1 h)

/-- Blank units are outside of the printable range. -/
lemma isBlank_range {u : CodeUnit} (h : u.isBlank) : u.toNat ≤ 32 ∨ 160 ≤ u.toNat := by
  simp only [isBlank, isSpace, Bool.or_eq_true, Bool.and_eq_true, decide_eq_true_eq, beq_iff_eq,
    UInt16.le_iff_toNat_le, ← UInt16.toNat_inj, UInt16.reduceToNat] at h
  omega

/-- Plain units are not blank. -/
lemma not_isBlank_of_isPlain {u : CodeUnit} (h : u.isPlain) : u.isBlank = false := by
  cases hb : u.isBlank with
  | false => rfl
  | true =>
    have := isPlain_range h
    have := isBlank_range hb
    omega

lemma isPlain_of_joins {u : CodeUnit} (h : u.joins) : u.isPlain := by
  simp only [joins, Bool.or_eq_true, beq_iff_eq] at h
  obtain (((h | rfl) | rfl) | rfl) | rfl := h
  · exact isPlain_of_isNamePart h
  all_goals decide

/-- White space joins no lexeme. -/
lemma not_joins_of_isSpace {u : CodeUnit} (h : u.isSpace) : u.joins = false := by
  rw [Bool.eq_false_iff]
  intro hj
  have hblank := not_isBlank_of_isPlain (isPlain_of_joins hj)
  rw [isBlank_of_isSpace h] at hblank
  cases hblank

/-- A plain unit differs from one that is not. -/
lemma ne_of_isPlain {u v : CodeUnit} (h : u.isPlain) (hv : v.isPlain = false) : u ≠ v := by
  rintro rfl
  rw [h] at hv
  cases hv

end CodeUnit

/-- What may stand in the place of `a` after a lexeme: `b` does not begin with a unit that could
join the lexeme, unless `a` does so as well. -/
def Tame (a b : Text) : Prop := ∀ v ∈ b.head?, v.joins → a.head? = some v

@[simp] lemma tame_nil {a} : Tame a [] := nofun

lemma tame_prefix {a b : Text} (h : b <+: a) : Tame a b := by
  obtain ⟨c, rfl⟩ := h
  intro v hv _
  cases b with
  | nil => cases hv
  | cons x b => exact hv

lemma tame_append {a b : Text} (h : Tame [] b) : Tame a (a ++ b) := by
  intro v hv hj
  cases a with
  | nil => exact h v hv hj
  | cons x a => exact hv

lemma tame_cons {v : CodeUnit} {a b : Text} (h : v.joins = false) : Tame a (v :: b) := by
  rintro _ ⟨⟩ hj
  rw [h] at hj
  cases hj

/-- A run of joining units that ends before or with `w` is the same whatever follows. -/
lemma takeWhile_congr {p : CodeUnit → Bool} {w a b : Text} (hp : ∀ v, p v → v.joins)
    (hab : Tame a b) (h : ((w ++ a).takeWhile p).length ≤ w.length) :
    (w ++ b).takeWhile p = (w ++ a).takeWhile p := by
  induction w with
  | nil =>
    have ha : a.takeWhile p = [] := List.eq_nil_of_length_eq_zero (Nat.le_zero.1 h)
    rw [List.nil_append, List.nil_append, ha]
    cases b with
    | nil => rfl
    | cons v b =>
      cases hv : p v with
      | false => rw [List.takeWhile_cons, hv]; rfl
      | true =>
        have hhead := hab v rfl (hp v hv)
        cases a with
        | nil => cases hhead
        | cons x a =>
          cases hhead
          rw [List.takeWhile_cons, hv] at ha
          cases ha
  | cons x w ih =>
    rw [List.cons_append, List.cons_append, List.takeWhile_cons, List.takeWhile_cons]
    cases hx : p x with
    | false => rfl
    | true =>
      rw [List.cons_append, List.takeWhile_cons, hx] at h
      exact congrArg (x :: ·) (ih (Nat.le_of_succ_le_succ h))

lemma drop_takeWhile {p : CodeUnit → Bool} {t : Text} :
    t.drop (t.takeWhile p).length = t.dropWhile p := by
  induction t with
  | nil => rfl
  | cons u t ih =>
    rw [List.takeWhile_cons, List.dropWhile_cons]
    cases p u with
    | false => rfl
    | true => exact ih

end Stencil
