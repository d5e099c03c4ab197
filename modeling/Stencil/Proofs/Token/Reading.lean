import Stencil.Proofs.Token.Number
import Stencil.Proofs.Token.Reference

/-!
# What a lexeme depends on

A lexeme is read from the units it takes and from whether the next unit joins them, and from nothing
else. Main statements: `Reading.first_shape` says of which units a lexeme is made, and
`Reading.first_congr` that what follows it may be exchanged.
-/

namespace Stencil

namespace Reading

/-- Double signs have two plain units, of which the second joins the first. -/
lemma double_text : ∀ s ∈ Sign.double, ∃ u v : CodeUnit, s.text = [u, v] ∧ u.isPlain ∧ v.isPlain ∧
    v.joins := by
  intro s hs
  simp only [Sign.double, List.mem_cons, List.not_mem_nil, or_false] at hs
  obtain rfl | rfl | rfl | rfl | rfl | rfl := hs <;>
    exact ⟨_, _, rfl, by decide, by decide, by decide⟩

lemma single_text : ∀ s ∈ Sign.single, ∀ v ∈ s.text, v.isPlain := by
  have texts : ∀ s ∈ Sign.single, s.text.all CodeUnit.isPlain := by decide
  exact fun s hs => List.all_eq_true.1 (texts s hs)

lemma mark_text : ∀ m ∈ Mark.all, ∀ v ∈ m.text, v.isPlain := by
  have texts : ∀ m ∈ Mark.all, m.text.all CodeUnit.isPlain := by decide
  exact fun m hm => List.all_eq_true.1 (texts m hm)

/-- Without a joining unit no double sign begins. -/
lemma double_none {u : CodeUnit} {a b : Text} (hab : Tame a b)
    (h : Sign.double.find? (fun s => s.text == u :: a.take 1) = none) :
    Sign.double.find? (fun s => s.text == u :: b.take 1) = none := by
  rw [List.find?_eq_none] at h ⊢
  intro s hs heq
  obtain ⟨x, v, htext, -, -, hv⟩ := double_text s hs
  rw [htext, beq_iff_eq] at heq
  cases b with
  | nil => cases heq
  | cons y b =>
    cases heq
    have hhead := hab v rfl hv
    cases a with
    | nil => cases hhead
    | cons z a =>
      cases hhead
      exact h s hs (by rw [htext, beq_iff_eq]; rfl)

lemma symbol_congr {u : CodeUnit} {w a b : Text} {r} (hab : Tame a b)
    (h : symbol u (w ++ a) = .ok r) (hr : r.more = w.length) : symbol u (w ++ b) = .ok r := by
  cases w with
  | cons v w => exact h
  | nil =>
    unfold symbol at h ⊢
    split at h
    · cases h; cases hr
    · next hnone => 
      rw [List.nil_append, double_none hab hnone]
      exact h

/-- A symbol is a sign of two units, a sign of one unit or a mark. -/
lemma symbol_cases {u rest r} (h : symbol u rest = .ok r) :
    (∃ s ∈ Sign.double, s.text = u :: rest.take 1 ∧ r = ⟨.sign s, 1⟩) ∨
      (∃ s ∈ Sign.single, s.text = [u] ∧ r = ⟨.sign s, 0⟩) ∨
      ∃ m ∈ Mark.all, m.text = [u] ∧ r = ⟨.mark m, 0⟩ := by
  unfold symbol at h
  split at h
  · next s hs =>
    cases h
    have heq := List.find?_some hs
    rw [beq_iff_eq] at heq
    exact .inl ⟨s, List.mem_of_find?_eq_some hs, heq, rfl⟩
  · split at h
    · next s hs =>
      cases h
      have heq := List.find?_some hs
      rw [beq_iff_eq] at heq
      exact .inr (.inl ⟨s, List.mem_of_find?_eq_some hs, heq, rfl⟩)
    · split at h
      · next m hm =>
        cases h
        have heq := List.find?_some hm
        rw [beq_iff_eq] at heq
        exact .inr (.inr ⟨m, List.mem_of_find?_eq_some hm, heq, rfl⟩)
      · cases h

lemma symbol_shape {u rest r} (h : symbol u rest = .ok r) :
    ∃ w a, rest = w ++ a ∧ r.more = w.length ∧ ∀ v ∈ u :: w, v.isPlain := by
  obtain ⟨s, hs, heq, rfl⟩ | ⟨s, hs, heq, rfl⟩ | ⟨m, hm, heq, rfl⟩ := symbol_cases h
  · obtain ⟨x, v, htext, hx, hv, -⟩ := double_text s hs
    rw [htext] at heq
    cases rest with
    | nil => cases heq
    | cons y rest =>
      cases heq
      exact ⟨[v], rest, rfl, rfl, by simp [hx, hv]⟩
  · exact ⟨[], rest, rfl, rfl, heq ▸ single_text s hs⟩
  · exact ⟨[], rest, rfl, rfl, heq ▸ mark_text m hm⟩

/-- The classes of units that begin lexemes are disjoint. -/
lemma isNameStart_class {u : CodeUnit} (h : u.isNameStart) :
    u.isDigit = false ∧ u ≠ '.' ∧ u ≠ '\x7d' ∧ u ≠ '"' ∧ u ≠ '\'' ∧ u ≠ '$' := by
  have hdigit : u.isDigit = false := by
    cases hd : u.isDigit with
    | false => rfl
    | true =>
      simp only [CodeUnit.isNameStart, CodeUnit.isDigit, Bool.or_eq_true, Bool.and_eq_true,
        decide_eq_true_eq, beq_iff_eq, UInt16.le_iff_toNat_le, ← UInt16.toNat_inj,
        UInt16.reduceToNat] at h hd
      omega
  refine ⟨hdigit, ?_, ?_, ?_, ?_, ?_⟩ <;> (rintro rfl; exact absurd h (by decide))

lemma isSymbol_class {u : CodeUnit} (h : u.isSymbol) :
    u.isDigit = false ∧ u ≠ '.' ∧ u ≠ '\x7d' ∧ u ≠ '"' ∧ u ≠ '\'' ∧ u ≠ '$' ∧
      u.isNameStart = false := by
  have symbols : ∀ u ∈ ("+-*/%<>!|&=(),?:" : Text), u.isDigit = false ∧ u ≠ '.' ∧ u ≠ '\x7d' ∧
      u ≠ '"' ∧ u ≠ '\'' ∧ u ≠ '$' ∧ u.isNameStart = false := Text.forall_mem (by decide)
  exact symbols u (List.contains_iff_mem.1 h)

/-- A lexeme by the class of its first unit. -/
inductive Begins : CodeUnit → Text → Reading → Prop where
  | close {rest} : Begins '\x7d' ('\x7d' :: rest) ⟨.close, 1⟩
  | digit {u rest r} : u.isDigit → number (u :: rest) = .ok r → Begins u rest r
  | point {d rest r} : d.isDigit → number ('.' :: d :: rest) = .ok r → Begins '.' (d :: rest) r
  | quote {quote : CodeUnit} {rest r} : quote = '"' ∨ quote = '\'' → string quote rest = .ok r →
    Begins quote rest r
  | dollar {rest r} : reference rest = .ok r → Begins '$' rest r
  | name {u rest} : u.isNameStart → Begins u rest
    ⟨.name (u :: rest.takeWhile CodeUnit.isNamePart), (rest.takeWhile CodeUnit.isNamePart).length⟩
  | symbol {u rest r} : u.isSymbol → symbol u rest = .ok r → Begins u rest r

lemma isSymbol_of_symbol {u rest r} (h : symbol u rest = .ok r) : u.isSymbol := by
  have double : ∀ s ∈ Sign.double, (s.text.headD 0).isSymbol := by decide
  have single : ∀ s ∈ Sign.single, (s.text.headD 0).isSymbol := by decide
  have mark : ∀ m ∈ Mark.all, (m.text.headD 0).isSymbol := by decide
  obtain ⟨s, hs, heq, -⟩ | ⟨s, hs, heq, -⟩ | ⟨m, hm, heq, -⟩ := symbol_cases h
  · have hhead := double s hs
    rwa [heq] at hhead
  · have hhead := single s hs
    rwa [heq] at hhead
  · have hhead := mark m hm
    rwa [heq] at hhead

lemma first_iff {u rest r} : first u rest = .ok r ↔ Begins u rest r := by
  constructor
  · intro h
    unfold first at h
    dsimp only at h
    split at h
    · next hu =>
      cases h
      obtain ⟨rfl, hrest⟩ := hu
      cases rest with
      | nil => exact absurd hrest (by decide)
      | cons v rest =>
        obtain rfl : v = '\x7d' := hrest
        exact .close
    · split at h
      · next hu =>
        rw [Bool.or_eq_true, Bool.and_eq_true, beq_iff_eq] at hu
        obtain hu | ⟨rfl, hrest⟩ := hu
        · exact .digit hu h
        · cases rest with
          | nil => exact absurd hrest (by decide)
          | cons d rest => exact .point hrest h
      · split at h
        · next hu => exact .quote hu h
        · split at h
          · next hu => subst hu; exact .dollar h
          · split at h
            · next hu => cases h; exact .name hu
            · exact .symbol (isSymbol_of_symbol h) h
  · intro h
    unfold first
    dsimp only
    cases h with
    | close => rfl
    | digit hu h =>
      rw [if_neg (by rintro ⟨rfl, -⟩; exact absurd hu (by decide)), hu]
      exact h
    | point hd h =>
      rw [if_neg (by rintro ⟨h, -⟩; exact absurd h (by decide))]
      simp only [List.headD_cons, hd]
      exact h
    | quote hu h =>
      rw [if_neg (by obtain rfl | rfl := hu <;> exact fun h => absurd h.1 (by decide)),
        if_neg (by obtain rfl | rfl := hu <;> exact Bool.false_ne_true), if_pos hu]
      exact h
    | dollar h =>
      rw [if_neg (fun h => absurd h.1 (by decide)), if_neg (by exact Bool.false_ne_true),
        if_neg (by decide), if_pos rfl]
      exact h
    | name hu =>
      obtain ⟨hdigit, hpoint, hbrace, hdouble, hsingle, hdollar⟩ := isNameStart_class hu
      rw [if_neg (fun h => hbrace h.1), hdigit, beq_false_of_ne hpoint]
      simp only [Bool.false_and, Bool.or_self, Bool.false_eq_true, if_false, hdouble, hsingle,
        or_self, hdollar, hu, if_true]
    | symbol hu h =>
      obtain ⟨hdigit, hpoint, hbrace, hdouble, hsingle, hdollar, hname⟩ := isSymbol_class hu
      rw [if_neg (fun h => hbrace h.1), hdigit, beq_false_of_ne hpoint]
      simp only [Bool.false_and, Bool.or_self, Bool.false_eq_true, if_false, hdouble, hsingle,
        or_self, hdollar, hname]
      exact h

lemma first_dollar {rest : Text} : first '$' rest = reference rest := rfl

lemma first_quote {quote : CodeUnit} {rest : Text} (h : quote = '"' ∨ quote = '\'') :
    first quote rest = string quote rest := by
  obtain rfl | rfl := h <;> rfl

/-- What follows a lexeme may be exchanged. -/
theorem first_congr {u : CodeUnit} {w a b : Text} {r} (hab : Tame a b)
    (h : first u (w ++ a) = .ok r) (hr : r.more = w.length) : first u (w ++ b) = .ok r := by
  generalize hrest : w ++ a = rest at h
  obtain ⟨l, n⟩ := r
  cases first_iff.1 h with
  | close =>
    match w, hr with
    | [v], _ =>
      obtain rfl : v = '\x7d' := List.head_eq_of_cons_eq hrest
      exact first_iff.2 .close
  | digit hu hnum =>
    subst hrest
    have hpos : 0 < mantissaWidth (u :: w ++ a) := mantissaWidth_pos (.inl hu)
    exact first_iff.2 (.digit hu (number_congr hab hpos hnum (congrArg (· + 1) hr)))
  -- a point begins a number only before a digit, so the lexeme has at least two units
  | @point d rest _ hd hnum =>
    cases w with
    | nil =>
      obtain ⟨k, -, heq⟩ := number_iff.1 hnum
      have hmore : n = mantissaWidth ('.' :: d :: rest) + k - 1 := congrArg Reading.more heq
      have htwo : 2 ≤ mantissaWidth ('.' :: d :: rest) := by
        rw [mantissaWidth_eq, List.takeWhile_cons, if_neg (by decide), List.length_nil,
          List.drop_zero, fractionWidth, if_pos rfl, List.takeWhile_cons, if_pos hd,
          List.length_cons]
        omega
      dsimp only [List.length_nil] at hr
      omega
    | cons v w =>
      cases hrest
      have hpos : 0 < mantissaWidth (('.' : CodeUnit) :: d :: w ++ a) :=
        mantissaWidth_pos (.inr rfl)
      exact first_iff.2 (.point hd (number_congr hab hpos hnum (congrArg (· + 1) hr)))
  | quote hu hstring =>
    subst hrest
    obtain ⟨w', a', value, heq, hbody, ⟨⟩⟩ := string_iff.1 hstring
    obtain ⟨rfl, rfl⟩ := List.append_inj heq hr.symm
    exact first_iff.2 (.quote hu (string_iff.2 ⟨w, b, value, rfl, hbody, rfl⟩))
  | dollar href =>
    subst hrest
    exact first_iff.2 (.dollar (reference_congr hab href hr))
  | name hu =>
    subst hrest
    have htake := takeWhile_congr (p := CodeUnit.isNamePart) (fun _ => CodeUnit.joins_of_isNamePart)
      hab (Nat.le_of_eq hr)
    rw [← htake]
    exact first_iff.2 (.name hu)
  | symbol hu hsymbol =>
    subst hrest
    exact first_iff.2 (.symbol hu (symbol_congr hab hsymbol hr))

lemma number_isFinal {t r} (h : number t = .ok r) : r.lexeme.isFinal = false := by
  obtain ⟨k, -, rfl⟩ := number_iff.1 h
  rfl

lemma reference_lexeme {rest r} (h : reference rest = .ok r) :
    ∃ source path, r.lexeme = .reference source path := by
  obtain ⟨source, -, after, -, -, -, hpath⟩ | ⟨after, -, -, hnode⟩ := reference_iff.1 h
  · obtain ⟨-, rfl⟩ := path_iff.1 hpath
    exact ⟨_, _, rfl⟩
  · obtain ⟨quote, id, after, -, -, -, -, hpath⟩ := node_iff.1 hnode
    obtain ⟨-, rfl⟩ := path_iff.1 hpath
    exact ⟨_, _, rfl⟩

lemma reference_isFinal {rest r} (h : reference rest = .ok r) : r.lexeme.isFinal = false := by
  obtain ⟨source, path, hlexeme⟩ := reference_lexeme h
  rw [hlexeme]
  rfl

lemma symbol_isFinal {u rest r} (h : symbol u rest = .ok r) : r.lexeme.isFinal = false := by
  obtain ⟨s, -, -, rfl⟩ | ⟨s, -, -, rfl⟩ | ⟨m, -, -, rfl⟩ := symbol_cases h <;> rfl

/-- A lexeme is two closing braces or has one of the shapes. -/
theorem first_shape {u rest r} (h : first u rest = .ok r) :
    (u = '\x7d' ∧ r = ⟨.close, 1⟩ ∧ ∃ a, rest = ('\x7d' : CodeUnit) :: a) ∨
      r.lexeme.isFinal = false ∧ ∃ w a, rest = w ++ a ∧ r.more = w.length ∧ Shape (u :: w) := by
  have digits {t : Text} (hnum : number t = .ok r) (hpos : 0 < mantissaWidth t)
      (ht : t = u :: rest) : ∃ w a, rest = w ++ a ∧ r.more = w.length ∧ Shape (u :: w) := by
    obtain ⟨w, a, rfl, hw, hplain⟩ := number_shape hnum hpos
    cases w with
    | nil => cases hw
    | cons v w =>
      cases ht
      exact ⟨w, a, rfl, Nat.succ.inj hw, .plain (List.cons_ne_nil _ _) hplain⟩
  cases first_iff.1 h with
  | close => exact .inl ⟨rfl, rfl, _, rfl⟩
  | digit hu hnum =>
    exact .inr ⟨number_isFinal hnum, digits hnum (mantissaWidth_pos (.inl hu)) rfl⟩
  | point hd hnum =>
    exact .inr ⟨number_isFinal hnum, digits hnum (mantissaWidth_pos (.inr rfl)) rfl⟩
  | quote hu hstring =>
    obtain ⟨w, a, value, rfl, hbody, rfl⟩ := string_iff.1 hstring
    exact .inr ⟨rfl, w, a, rfl, rfl, .string hu hbody⟩
  | dollar href => exact .inr ⟨reference_isFinal href, reference_shape href⟩
  | name hu =>
    refine .inr ⟨rfl, _, _, List.takeWhile_append_dropWhile.symm, rfl,
      .plain (List.cons_ne_nil _ _) (List.forall_mem_cons.2 ⟨?_, fun v hv => ?_⟩)⟩
    · exact CodeUnit.isPlain_of_isNamePart (CodeUnit.isNamePart_of_isNameStart hu)
    · exact CodeUnit.isPlain_of_isNamePart (List.mem_takeWhile_imp hv)
  | symbol hu hsymbol =>
    obtain ⟨w, a, hrest, hw, hplain⟩ := symbol_shape hsymbol
    exact .inr ⟨symbol_isFinal hsymbol, w, a, hrest, hw, .plain (List.cons_ne_nil _ _) hplain⟩

/-- A lexeme that is not final has one of the shapes. -/
lemma shape_of_first {u : CodeUnit} {w rest : Text} {l}
    (h : first u (w ++ rest) = .ok ⟨l, w.length⟩) (hl : l.isFinal = false) : Shape (u :: w) := by
  obtain ⟨-, hr, -⟩ | ⟨-, w', a, heq, hlen, hshape⟩ := first_shape h
  · obtain rfl : l = .close := congrArg Reading.lexeme hr
    cases hl
  · rw [(List.append_inj heq hlen).1]
    exact hshape

end Reading

end Stencil
