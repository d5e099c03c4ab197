import Mathlib.Data.List.TakeWhile
import Stencil.Proofs.Token.Unit
import Stencil.Token.Reading

/-!
# Reading numbers

A number is a mantissa, which is a run of digits and a fraction, and perhaps an exponent. Each part
depends on the units it takes and on whether the next unit joins them.
-/

namespace Stencil

namespace Reading

/-- The width of a point and the digits after it. -/
def fractionWidth : Text → Nat
  | [] => 0
  | u :: rest => if u = '.' then 1 + (rest.takeWhile CodeUnit.isDigit).length else 0

/-- The width of an exponent, which may be missing but not without digits. -/
def exponentWidth? : Text → Option Nat
  | [] => some 0
  | u :: rest =>
    if u = 'e' ∨ u = 'E' then
      if ((rest.drop (signWidth rest)).takeWhile CodeUnit.isDigit).isEmpty then none
      else some (1 + signWidth rest +
        ((rest.drop (signWidth rest)).takeWhile CodeUnit.isDigit).length)
    else some 0

/-- A mantissa is a run of digits and a fraction. -/
lemma mantissaWidth_eq (t : Text) :
    mantissaWidth t = (t.takeWhile CodeUnit.isDigit).length +
      fractionWidth (t.drop (t.takeWhile CodeUnit.isDigit).length) := by
  rw [mantissaWidth, drop_takeWhile]
  cases t.dropWhile CodeUnit.isDigit with
  | nil => rfl
  | cons u rest =>
    simp only [fractionWidth]
    split <;> omega

/-- A number is a mantissa and an exponent. -/
lemma number_iff {t r} :
    number t = .ok r ↔ ∃ k, exponentWidth? (t.drop (mantissaWidth t)) = some k ∧
      r = ⟨.number (t.take (mantissaWidth t + k)), mantissaWidth t + k - 1⟩ := by
  unfold number
  dsimp only
  generalize mantissaWidth t = n
  cases hd : t.drop n with
  | nil =>
    have ht : t.take (n + 0) = t := List.take_of_length_le (List.drop_eq_nil_iff.1 hd)
    constructor
    · intro h
      cases h
      exact ⟨0, rfl, by rw [ht]; rfl⟩
    · rintro ⟨k, ⟨⟩, rfl⟩
      rw [ht]; rfl
  | cons u rest =>
    dsimp only [exponentWidth?]
    split
    · split
      · exact ⟨nofun, fun ⟨_, h, _⟩ => nomatch h⟩
      · constructor
        · intro h
          cases h
          exact ⟨_, rfl, by simp only [Nat.add_assoc]⟩
        · rintro ⟨k, ⟨⟩, rfl⟩
          simp only [Nat.add_assoc]
    · constructor
      · intro h
        cases h
        exact ⟨0, rfl, rfl⟩
      · rintro ⟨k, ⟨⟩, rfl⟩
        rfl

lemma fractionWidth_congr {w a b} (hab : Tame a b) (h : fractionWidth (w ++ a) ≤ w.length) :
    fractionWidth (w ++ b) = fractionWidth (w ++ a) := by
  cases w with
  | cons u w =>
    simp only [List.cons_append, fractionWidth, List.length_cons] at h ⊢
    split
    · next hu =>
      rw [if_pos hu] at h
      rw [takeWhile_congr (p := CodeUnit.isDigit) (fun _ => CodeUnit.joins_of_isDigit) hab
        (by omega)]
    · rfl
  | nil =>
    have ha : fractionWidth a = 0 := Nat.le_zero.1 h
    rw [List.nil_append, List.nil_append, ha]
    cases b with
    | nil => rfl
    | cons v b =>
      refine if_neg fun hv => ?_
      have hhead := hab v rfl (by rw [hv]; decide)
      cases a with
      | nil => cases hhead
      | cons x a =>
        cases hhead
        rw [fractionWidth, if_pos hv] at ha
        omega

lemma exponentWidth?_congr {w a b k} (hab : Tame a b)
    (h : exponentWidth? (w ++ a) = some k) (hk : k ≤ w.length) :
    exponentWidth? (w ++ b) = some k := by
  cases w with
  | cons u w =>
    simp only [List.cons_append, exponentWidth?, List.length_cons] at h hk ⊢
    split
    · next hu =>
      rw [if_pos hu] at h
      split at h
      · cases h
      · next hdigits =>
        cases h
        cases w with
        | nil =>
          have := List.length_pos_iff.2 (mt List.isEmpty_iff.2 hdigits)
          simp only [List.length_nil] at hk
          omega
        -- a sign is followed by digits, so it lies inside of the lexeme
        | cons v w =>
          have hsign : signWidth (v :: w ++ b) = signWidth (v :: w ++ a) := rfl
          have hle : signWidth (v :: w ++ a) ≤ (v :: w).length := by omega
          rw [List.drop_append_of_le_length hle] at hdigits hk ⊢
          rw [hsign, List.drop_append_of_le_length hle,
            takeWhile_congr (p := CodeUnit.isDigit) (fun _ => CodeUnit.joins_of_isDigit) hab
              (by rw [List.length_drop]; omega), if_neg hdigits]
    · next hu =>
      rw [if_neg hu] at h
      exact h
  | nil =>
    obtain rfl : k = 0 := Nat.le_zero.1 hk
    cases b with
    | nil => rfl
    | cons v b =>
      refine if_neg fun hv => ?_
      have hhead := hab v rfl (by obtain rfl | rfl := hv <;> decide)
      cases a with
      | nil => cases hhead
      | cons x a =>
        cases hhead
        rw [List.nil_append, exponentWidth?, if_pos hv] at h
        split at h
        · cases h
        · have := Option.some.inj h
          omega

lemma mantissaWidth_congr {w a b} (hab : Tame a b) (h : mantissaWidth (w ++ a) ≤ w.length) :
    mantissaWidth (w ++ b) = mantissaWidth (w ++ a) := by
  rw [mantissaWidth_eq] at h
  have hle : ((w ++ a).takeWhile CodeUnit.isDigit).length ≤ w.length := by omega
  rw [List.drop_append_of_le_length hle] at h
  rw [mantissaWidth_eq, mantissaWidth_eq,
    takeWhile_congr (p := CodeUnit.isDigit) (fun _ => CodeUnit.joins_of_isDigit) hab hle,
    List.drop_append_of_le_length hle, List.drop_append_of_le_length hle,
    fractionWidth_congr hab (by rw [List.length_drop]; omega)]

lemma mantissaWidth_pos {u : CodeUnit} {rest} (h : u.isDigit ∨ u = '.') :
    0 < mantissaWidth (u :: rest) := by
  rw [mantissaWidth_eq, List.takeWhile_cons]
  cases hu : u.isDigit with
  | true => simp only [if_true, List.length_cons]; omega
  | false =>
    obtain rfl : u = '.' := h.resolve_left (by rw [hu]; exact Bool.false_ne_true)
    simp only [Bool.false_eq_true, if_false, List.length_nil, List.drop_zero, fractionWidth,
      if_true]
    omega

lemma number_congr {w a b l n} (hab : Tame a b) (hpos : 0 < mantissaWidth (w ++ a))
    (h : number (w ++ a) = .ok ⟨l, n⟩) (hn : n + 1 = w.length) :
    number (w ++ b) = .ok ⟨l, n⟩ := by
  obtain ⟨k, hk, heq⟩ := number_iff.1 h
  obtain ⟨hl, hwidth⟩ := Reading.mk.injEq .. ▸ heq
  have hle : mantissaWidth (w ++ a) ≤ w.length := by omega
  rw [List.drop_append_of_le_length hle] at hk
  refine number_iff.2 ⟨k, ?_, ?_⟩
  · rw [mantissaWidth_congr hab hle, List.drop_append_of_le_length hle]
    exact exponentWidth?_congr hab hk (by rw [List.length_drop]; omega)
  · have hw : mantissaWidth (w ++ a) + k = w.length := by omega
    rw [mantissaWidth_congr hab hle, hl, hwidth, hw, List.take_left, List.take_left]

/-- The units of a run of digits are plain. -/
lemma isPlain_digits (t : Text) : ∀ v ∈ t.takeWhile CodeUnit.isDigit, v.isPlain := fun _ hv =>
  CodeUnit.isPlain_of_isNamePart (CodeUnit.isNamePart_of_isDigit (List.mem_takeWhile_imp hv))

lemma fraction_shape (t : Text) : ∃ w a, t = w ++ a ∧ w.length = fractionWidth t ∧
    ∀ v ∈ w, v.isPlain := by
  cases t with
  | nil => exact ⟨[], [], rfl, rfl, nofun⟩
  | cons u rest =>
    rw [fractionWidth]
    split
    · next hu =>
      refine ⟨u :: rest.takeWhile CodeUnit.isDigit, rest.dropWhile CodeUnit.isDigit, ?_, ?_, ?_⟩
      · rw [List.cons_append, List.takeWhile_append_dropWhile]
      · rw [List.length_cons, Nat.add_comm]
      · refine List.forall_mem_cons.2 ⟨?_, isPlain_digits rest⟩
        rw [hu]; decide
    · exact ⟨[], _, rfl, rfl, nofun⟩

lemma mantissa_shape (t : Text) : ∃ w a, t = w ++ a ∧ w.length = mantissaWidth t ∧
    ∀ v ∈ w, v.isPlain := by
  obtain ⟨w, a, ht, hw, hplain⟩ := fraction_shape (t.dropWhile CodeUnit.isDigit)
  refine ⟨t.takeWhile CodeUnit.isDigit ++ w, a, ?_, ?_, ?_⟩
  · rw [List.append_assoc, ← ht, List.takeWhile_append_dropWhile]
  · rw [List.length_append, hw, mantissaWidth_eq, drop_takeWhile]
  · exact List.forall_mem_append.2 ⟨isPlain_digits t, hplain⟩

lemma sign_shape (t : Text) : ∃ w a, t = w ++ a ∧ w.length = signWidth t ∧
    ∀ v ∈ w, v.isPlain := by
  cases t with
  | nil => exact ⟨[], [], rfl, rfl, nofun⟩
  | cons u rest =>
    rw [signWidth]
    split
    · next hu =>
      refine ⟨[u], rest, rfl, rfl, List.forall_mem_cons.2 ⟨?_, nofun⟩⟩
      obtain rfl | rfl := hu <;> decide
    · exact ⟨[], _, rfl, rfl, nofun⟩

lemma exponent_shape {t k} (h : exponentWidth? t = some k) :
    ∃ w a, t = w ++ a ∧ w.length = k ∧ ∀ v ∈ w, v.isPlain := by
  cases t with
  | nil => cases h; exact ⟨[], [], rfl, rfl, nofun⟩
  | cons u rest =>
    rw [exponentWidth?] at h
    split at h
    · next hu =>
      split at h
      · cases h
      · cases h
        obtain ⟨w, a, rfl, hw, hplain⟩ := sign_shape rest
        rw [← hw, List.drop_left]
        refine ⟨u :: (w ++ a.takeWhile CodeUnit.isDigit), a.dropWhile CodeUnit.isDigit, ?_, ?_, ?_⟩
        · rw [List.cons_append, List.append_assoc, List.takeWhile_append_dropWhile]
        · rw [List.length_cons, List.length_append]; omega
        · refine List.forall_mem_cons.2
            ⟨?_, List.forall_mem_append.2 ⟨hplain, isPlain_digits a⟩⟩
          obtain rfl | rfl := hu <;> decide
    · cases h; exact ⟨[], _, rfl, rfl, nofun⟩

lemma number_shape {t r} (h : number t = .ok r) (hpos : 0 < mantissaWidth t) :
    ∃ w a, t = w ++ a ∧ r.more + 1 = w.length ∧ ∀ v ∈ w, v.isPlain := by
  obtain ⟨k, hk, rfl⟩ := number_iff.1 h
  obtain ⟨w, a, ht, hw, hplain⟩ := mantissa_shape t
  rw [← hw] at hk hpos ⊢
  rw [ht, List.drop_left] at hk
  obtain ⟨w', a', rfl, rfl, hplain'⟩ := exponent_shape hk
  refine ⟨w ++ w', a', by rw [List.append_assoc, ht], ?_, ?_⟩
  · rw [List.length_append]; dsimp only; omega
  · exact List.forall_mem_append.2 ⟨hplain, hplain'⟩

end Reading

end Stencil
