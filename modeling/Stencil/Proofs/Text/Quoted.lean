import Mathlib.Tactic.IntervalCases
import Mathlib.Tactic.Lemma
import Stencil.Text.Quoted

/-!
# Reading quoted text

Each unit of a text is spelled so that it is read back whatever follows. Main statements:
`Text.quote_append_inj`, a quoted text ends where its closing quote says; `Text.le_of_mem_quote`, it has
no control units, and so no line breaks.
-/

namespace Stencil

namespace CodeUnit

/-- The value of a hexadecimal digit. -/
def hexValue (u : CodeUnit) : Nat := if u ≤ 57 then u.toNat - 48 else u.toNat - 87

/-- What a letter after a backslash stands for. -/
def ofLetter (u : CodeUnit) : CodeUnit :=
  if u = 'b' then 8
  else if u = 't' then 9
  else if u = 'n' then 10
  else if u = 'f' then 12
  else if u = 'r' then 13
  else u

/-- The first unit of a quoted text and what follows it; none at the closing quote. -/
def unquoted? : Text → Option (CodeUnit × Text)
  | [] => none
  | u :: rest =>
    if u = '"' then none
    else if u = '\\' then
      match rest with
      | [] => none
      | v :: rest =>
        if v = 'u' then
          match rest with
          | a :: b :: c :: d :: rest =>
            some (UInt16.ofNat (a.hexValue * 4096 + b.hexValue * 256 + c.hexValue * 16 + d.hexValue), rest)
          | _ => none
        else some (v.ofLetter, rest)
    else some (u, rest)

lemma hexValue_hexDigit {n : Nat} (h : n < 16) : (hexDigit n).hexValue = n := by
  interval_cases n <;> rfl

lemma le_hexDigit {n : Nat} (h : n < 16) : 32 ≤ hexDigit n := by
  interval_cases n <;> decide

variable {u : CodeUnit}

lemma unquoted?_self (hquote : u ≠ '"') (hslash : u ≠ '\\') (x : Text) :
    unquoted? (u :: x) = some (u, x) := by
  unfold unquoted?
  dsimp only
  rw [if_neg hquote, if_neg hslash]

lemma numbered_eq (u : CodeUnit) : u.numbered = ('\\' : CodeUnit) :: ('u' : CodeUnit) ::
    [hexDigit (u.toNat / 4096), hexDigit (u.toNat / 256 % 16), hexDigit (u.toNat / 16 % 16),
      hexDigit (u.toNat % 16)] := rfl

lemma unquoted?_numbered (u : CodeUnit) (x : Text) : unquoted? (u.numbered ++ x) = some (u, x) := by
  have hlt : u.toNat < 65536 := u.toNat_lt
  have hvalue : u.toNat / 4096 * 4096 + u.toNat / 256 % 16 * 256 + u.toNat / 16 % 16 * 16 +
      u.toNat % 16 = u.toNat := by omega
  change some (UInt16.ofNat ((hexDigit _).hexValue * 4096 + (hexDigit _).hexValue * 256 +
    (hexDigit _).hexValue * 16 + (hexDigit _).hexValue), x) = _
  rw [hexValue_hexDigit (by omega), hexValue_hexDigit (by omega), hexValue_hexDigit (by omega),
    hexValue_hexDigit (by omega), hvalue, UInt16.ofNat_toNat]

/-- A unit is read back from its spelling. -/
lemma unquoted?_quoted (u : CodeUnit) (x : Text) : unquoted? (u.quoted ++ x) = some (u, x) := by
  rw [quoted]
  split
  · next h => rw [h]; rfl
  · next hquote =>
    split
    · next h => rw [h]; rfl
    · next hslash =>
      iterate 5 (split; · next h => rw [h]; rfl)
      split
      · exact unquoted?_numbered u x
      · exact unquoted?_self hquote hslash x

/-- A unit of a surrogate pair is read as itself. -/
lemma unquoted?_surrogate (h : u.isLeading ∨ u.isTrailing) (x : Text) :
    unquoted? (u :: x) = some (u, x) := by
  apply unquoted?_self
  · rintro rfl
    exact absurd h (by decide)
  · rintro rfl
    exact absurd h (by decide)

lemma le_of_mem_quoted {v : CodeUnit} (h : v ∈ u.quoted) : 32 ≤ v := by
  have hclosed {t : Text} (ht : t.all fun v => 32 ≤ v) (h : v ∈ t) : 32 ≤ v :=
    of_decide_eq_true (List.all_eq_true.1 ht v h)
  unfold quoted at h
  iterate 7 (split at h; · exact hclosed (by decide) h)
  split at h
  · have hlt : u.toNat < 65536 := u.toNat_lt
    rw [numbered_eq] at h
    simp only [List.mem_cons, List.not_mem_nil, or_false] at h
    obtain rfl | rfl | rfl | rfl | rfl | rfl := h
    · decide
    · decide
    all_goals exact le_hexDigit (by omega)
  · next hplain =>
    rw [List.mem_singleton.1 h]
    simp only [Bool.or_eq_true, decide_eq_true_eq, not_or, UInt16.not_lt] at hplain
    exact hplain.1.1

end CodeUnit

namespace Text

open CodeUnit (unquoted?)

/-- The second text spells the units of the first one by one, each so that it is read back. -/
inductive Spells : Text → Text → Prop where
  | nil : Spells [] []
  | cons {u : CodeUnit} {w t e : Text} :
    (∀ x, unquoted? (w ++ x) = some (u, x)) → Spells t e → Spells (u :: t) (w ++ e)

lemma spells_escaped (t : Text) : Spells t t.escaped := by
  induction t using escaped.induct with
  | case1 => exact .nil
  | case2 u =>
    rw [escaped, ← List.append_nil u.quoted]
    exact .cons u.unquoted?_quoted .nil
  | case3 u v rest hpair ih =>
    rw [escaped, if_pos hpair]
    obtain ⟨hu, hv⟩ := Bool.and_eq_true_iff.1 hpair
    exact .cons (w := [u]) (CodeUnit.unquoted?_surrogate (.inl hu))
      (.cons (w := [v]) (CodeUnit.unquoted?_surrogate (.inr hv)) ih)
  | case4 u v rest hpair ih =>
    rw [escaped, if_neg hpair]
    exact .cons u.unquoted?_quoted ih

/-- Only one text has its spelling before a closing quote. -/
lemma Spells.unique {s t e f a b : Text} (hs : Spells s e) (ht : Spells t f)
    (h : e ++ ('"' : CodeUnit) :: a = f ++ ('"' : CodeUnit) :: b) : s = t ∧ a = b := by
  have hclose (x : Text) : unquoted? (('"' : CodeUnit) :: x) = none := rfl
  induction hs generalizing t f with
  | nil =>
    cases ht with
    | nil =>
      injection h with _ h
      exact ⟨rfl, h⟩
    | cons hv =>
      have hread := congrArg unquoted? h
      rw [List.nil_append, List.append_assoc, hv, hclose] at hread
      cases hread
  | cons hu hs ih =>
    cases ht with
    | nil =>
      have hread := congrArg unquoted? h
      rw [List.nil_append, List.append_assoc, hu, hclose] at hread
      cases hread
    | cons hv ht =>
      have hread := congrArg unquoted? h
      rw [List.append_assoc, List.append_assoc, hu, hv] at hread
      injection hread with hread
      injection hread with hunit hrest
      obtain ⟨rfl, rfl⟩ := ih ht hrest
      exact ⟨congrArg (· :: _) hunit, rfl⟩

/-- A quoted text is known from any text that begins with it. -/
theorem quote_append_inj {s t a b : Text} (h : s.quote ++ a = t.quote ++ b) : s = t ∧ a = b := by
  refine (spells_escaped s).unique (spells_escaped t) ?_
  rw [quote, quote, List.append_assoc, List.append_assoc, List.append_assoc, List.append_assoc] at h
  exact List.append_cancel_left h

/-- A quoted text has no control units. -/
lemma le_of_mem_quote {t : Text} {u : CodeUnit} (h : u ∈ t.quote) : 32 ≤ u := by
  have hescaped (t : Text) : ∀ u ∈ t.escaped, 32 ≤ u := by
    induction t using escaped.induct with
    | case1 => exact nofun
    | case2 u => exact fun _ => CodeUnit.le_of_mem_quoted
    | case3 u v rest hpair ih =>
      have hle {w : CodeUnit} (hw : w.isLeading ∨ w.isTrailing) : 32 ≤ w := by
        simp only [CodeUnit.isLeading, CodeUnit.isTrailing, Bool.and_eq_true, decide_eq_true_eq,
          UInt16.le_iff_toNat_le, UInt16.reduceToNat] at hw ⊢
        omega
      obtain ⟨hu, hv⟩ := Bool.and_eq_true_iff.1 hpair
      rw [escaped, if_pos hpair]
      exact List.forall_mem_cons.2 ⟨hle (.inl hu), List.forall_mem_cons.2 ⟨hle (.inr hv), ih⟩⟩
    | case4 u v rest hpair ih =>
      rw [escaped, if_neg hpair]
      exact List.forall_mem_append.2 ⟨fun _ => CodeUnit.le_of_mem_quoted, ih⟩
  rw [quote, List.mem_append, List.mem_append] at h
  obtain (h | h) | h := h
  · rw [List.mem_singleton.1 h]
    decide
  · exact hescaped t u h
  · rw [List.mem_singleton.1 h]
    decide

end Text

end Stencil
