import Mathlib.Data.List.Basic
import Stencil.Proofs.Token.Reading
import Stencil.Token.Cursor

/-!
# Runs of tokens

`Spelled o t ts` says that the text `t` at the offset `o` is made of the tokens `ts` with white
space around them. Each lexeme is read with the rest of the text after it, so neighbours are not
glued.
Main statements: `Cursor.tokens_eof_iff` and `Cursor.tokens_close_iff` say that the scanner yields
these tokens and no others, whether the source ends after them or two closing braces follow.
`Cursor.spelled_take` says that the text before any token is made of the tokens before it.
-/

namespace Stencil

/-- The text at an offset is made of the tokens and of white space around them. -/
inductive Spelled : Nat → Text → List Token → Prop where
  | blank {o gap} : (∀ v ∈ gap, v.isSpace) → Spelled o gap []
  | token {o gap u w l rest ts} :
    (∀ v ∈ gap, v.isSpace) →
    Reading.first u (w ++ rest) = .ok ⟨l, w.length⟩ →
    l.isFinal = false →
    Spelled (o + gap.length + (w.length + 1)) rest ts →
    Spelled o (gap ++ u :: (w ++ rest))
      (⟨l, u :: w, ⟨o + gap.length, o + gap.length + (w.length + 1)⟩⟩ :: ts)

namespace Reading

/-- The last unit of a text without blanks. -/
lemma last_not_blank {w : Text} (hw : ∀ v ∈ w, v.isBlank = false) :
    ∀ v ∈ w.getLast?, v.isBlank = false :=
  fun v hv => hw v (List.mem_of_getLast? hv)

lemma Body.last {quote : CodeUnit} {w value} (h : Body quote w value) : ∃ y, w = y ++ [quote] := by
  induction h with
  | close => exact ⟨[], rfl⟩
  | escape _ _ ih =>
    obtain ⟨y, rfl⟩ := ih
    exact ⟨_ :: _ :: y, rfl⟩
  | unit _ _ _ ih =>
    obtain ⟨y, rfl⟩ := ih
    exact ⟨_ :: y, rfl⟩

/-- No lexeme ends with a blank unit. -/
lemma Shape.last {w : Text} (h : Shape w) : ∀ v ∈ w.getLast?, v.isBlank = false := by
  have plain {w : Text} (hw : ∀ v ∈ w, v.isPlain) : ∀ v ∈ w, v.isBlank = false :=
    fun v hv => CodeUnit.not_isBlank_of_isPlain (hw v hv)
  cases h with
  | plain _ hw => exact last_not_blank (plain hw)
  | @string quote body value hq hbody =>
    obtain ⟨y, rfl⟩ := hbody.last
    rw [← List.cons_append, List.getLast?_concat]
    rintro _ ⟨⟩
    obtain rfl | rfl := hq <;> decide
  | dollar _ hw => exact last_not_blank (List.forall_mem_cons.2 ⟨by decide, plain hw⟩)
  | @node quote id w _ _ hw =>
    have hlast : ("$node(" ++ quote :: (id ++ quote :: ')' :: w) : Text) =
        ("$node(" ++ quote :: (id ++ [quote]) : Text) ++ (')' : CodeUnit) :: w := by simp
    rw [hlast, List.getLast?_append_cons]
    exact last_not_blank (List.forall_mem_cons.2 ⟨by decide, plain hw⟩)

/-- No lexeme begins with a blank unit. -/
lemma Shape.head {w : Text} (h : Shape w) : ∀ u ∈ w.head?, u.isBlank = false := by
  rintro u hu
  cases h with
  | plain _ hw => exact CodeUnit.not_isBlank_of_isPlain (hw u (List.mem_of_mem_head? hu))
  | string hq _ =>
    cases hu
    obtain rfl | rfl := hq <;> decide
  | dollar => cases hu; decide
  | node => cases hu; decide

lemma first_not_blank {u rest r} (h : first u rest = .ok r) : u.isBlank = false := by
  obtain ⟨rfl, -⟩ | ⟨-, w, a, -, -, hshape⟩ := first_shape h
  · decide
  · exact hshape.head u rfl

lemma first_not_space {u rest r} (h : first u rest = .ok r) : u.isSpace = false := by
  cases hs : u.isSpace with
  | false => rfl
  | true => rw [← CodeUnit.isBlank_of_isSpace hs]; exact first_not_blank h

end Reading

/-- All tokens, the final one included. -/
def Tokens.all (tokens : Tokens) : List Token := tokens.list ++ tokens.last.toOption.toList

namespace Cursor

/-- The closing braces at an offset. -/
def closing (o : Nat) : Token := ⟨.close, "\x7d\x7d", ⟨o, o + 2⟩⟩

lemma stop_closing {o} : (closing o).span.stop = o + 2 := rfl

/-- The end of a source. -/
def ending (size : Nat) : Token := ⟨.eof, [], ⟨size, size⟩⟩

variable {c c' : Cursor} {t : Token} {size o : Nat} {gap : Text}

lemma tokens_token (h : c.next = (.ok t, c')) (ht : t.lexeme.isFinal = false) :
    c.tokens = ⟨t :: c'.tokens.list, c'.tokens.last⟩ := by
  rw [tokens]
  split
  · next heq => rw [h] at heq; cases heq
  · next heq =>
    rw [h] at heq
    cases heq
    rw [dif_neg (by rw [ht]; exact Bool.false_ne_true)]

lemma tokens_final (h : c.next = (.ok t, c')) (ht : t.lexeme.isFinal) :
    c.tokens = ⟨[], .ok t⟩ := by
  rw [tokens]
  split
  · next heq => rw [h] at heq; cases heq
  · next heq =>
    rw [h] at heq
    cases heq
    rw [dif_pos ht]

lemma tokens_fault {fault} (h : c.next = (.error fault, c')) : c.tokens = ⟨[], .error fault⟩ := by
  rw [tokens]
  split
  · next heq => rw [h] at heq; cases heq; rfl
  · next heq => rw [h] at heq; cases heq

/-- Only a token that cannot be read ends the tokens with a fault. -/
lemma lexical_last {fault} (h : c.tokens.last = .error fault) : ∃ m p, fault = .lexical m p := by
  fun_induction tokens c with
  | case1 c fault' c' hnext =>
    cases h
    unfold next read at hnext
    split at hnext
    · cases hnext
    · split at hnext
      · cases hnext
      · cases hnext
        exact ⟨_, _, rfl⟩
  | case2 c t c' hnext ht => cases h
  | case3 c t c' hnext ht more ih => exact ih h

/-- White space before a lexeme is passed over. -/
lemma skip_gap {rest : Text} (hgap : ∀ v ∈ gap, v.isSpace)
    (hrest : ∀ v ∈ rest.head?, v.isSpace = false) :
    skip ⟨size, o, gap ++ rest⟩ = ⟨size, o + gap.length, rest⟩ := by
  rw [skip, Reading.takeWhile_exact hgap hrest, advance, List.drop_left]

lemma next_eof (hgap : ∀ v ∈ gap, v.isSpace) :
    next ⟨size, o, gap⟩ = (.ok (ending size), ⟨size, o + gap.length, []⟩) := by
  have hskip : skip ⟨size, o, gap ++ []⟩ = ⟨size, o + gap.length, []⟩ := skip_gap hgap nofun
  rw [List.append_nil] at hskip
  rw [next, hskip]
  rfl

lemma next_first {u w rest l} (hgap : ∀ v ∈ gap, v.isSpace)
    (h : Reading.first u (w ++ rest) = .ok ⟨l, w.length⟩) :
    next ⟨size, o, gap ++ u :: (w ++ rest)⟩ =
      (.ok ⟨l, u :: w, ⟨o + gap.length, o + gap.length + (w.length + 1)⟩⟩,
        ⟨size, o + gap.length + (w.length + 1), rest⟩) := by
  rw [next, skip_gap hgap (by rintro _ ⟨⟩; exact Reading.first_not_space h), read]
  simp only [h, advance, List.take_left, List.drop_succ_cons, List.drop_left]

/-- The next token is the end of the source, or a lexeme after some white space. -/
lemma next_cases {text} (h : next ⟨size, o, text⟩ = (.ok t, c')) :
    ∃ gap, (∀ v ∈ gap, v.isSpace) ∧
      (text = gap ∧ t = ending size ∨
        ∃ u rest r, text = gap ++ u :: rest ∧ Reading.first u rest = .ok r ∧
          t = ⟨r.lexeme, u :: rest.take r.more,
            ⟨o + gap.length, o + gap.length + (r.more + 1)⟩⟩ ∧
          c' = ⟨size, o + gap.length + (r.more + 1), rest.drop r.more⟩) := by
  obtain ⟨after, hrest, hdrop, -⟩ := Reading.takeWhile_split CodeUnit.isSpace text
  refine ⟨text.takeWhile CodeUnit.isSpace, fun v hv => List.mem_takeWhile_imp hv, ?_⟩
  rw [next, skip, advance, hdrop, read] at h
  cases after with
  | nil =>
    cases h
    rw [List.append_nil] at hrest
    exact .inl ⟨hrest, rfl⟩
  | cons u rest =>
    refine .inr ⟨u, rest, ?_⟩
    dsimp only at h
    cases hfirst : Reading.first u rest with
    | error => rw [hfirst] at h; cases h
    | ok r =>
      rw [hfirst] at h
      cases h
      exact ⟨r, hrest, rfl, rfl, rfl⟩

end Cursor

namespace Spelled

open Cursor

/-- The scanner yields the tokens of a text that ends the source. -/
lemma tokens_eof {o t ts size} (h : Spelled o t ts) :
    tokens ⟨size, o, t⟩ = ⟨ts, .ok (ending size)⟩ := by
  induction h with
  | blank hgap => exact tokens_final (next_eof hgap) rfl
  | token hgap hfirst hl _ ih => rw [tokens_token (next_first hgap hfirst) hl, ih]

/-- A text at an offset is made of one list of tokens only. -/
lemma unique {o t ts us} (h : Spelled o t ts) (h' : Spelled o t us) : ts = us := by
  have htokens : Cursor.tokens ⟨t.length, o, t⟩ = ⟨ts, _⟩ := h.tokens_eof
  exact congrArg Tokens.list (htokens.symm.trans h'.tokens_eof)

/-- The scanner yields the tokens of a text that closing braces follow. -/
lemma tokens_close {o t ts size after} (h : Spelled o t ts) :
    tokens ⟨size, o, t ++ ("\x7d\x7d" ++ after)⟩ = ⟨ts, .ok (closing (o + t.length))⟩ := by
  induction h with
  | blank hgap =>
    exact tokens_final (next_first (w := ['\x7d']) hgap rfl) rfl
  | @token o gap u w l rest ts hgap hfirst hl _ ih =>
    have hafter : Tame rest (rest ++ ("\x7d\x7d" ++ after)) := tame_append (tame_cons rfl)
    have hfirst' := Reading.first_congr hafter hfirst rfl
    rw [List.append_assoc, List.cons_append, List.append_assoc,
      tokens_token (next_first hgap hfirst') hl, ih]
    have hlen : o + (gap ++ u :: (w ++ rest)).length =
        o + gap.length + (w.length + 1) + rest.length := by
      simp only [List.length_append, List.length_cons]
      omega
    rw [hlen]

end Spelled

namespace Cursor

/-- What the scanner yields is spelled by the source, up to its end or to closing braces. -/
lemma spelled_of_tokens {size o rest ts last} (h : tokens ⟨size, o, rest⟩ = ⟨ts, .ok last⟩) :
    Spelled o rest ts ∧ last = ending size ∨
      ∃ t after, rest = t ++ ("\x7d\x7d" ++ after) ∧ Spelled o t ts ∧
        last = closing (o + t.length) := by
  induction hlen : rest.length using Nat.strong_induction_on generalizing o rest ts with
  | _ n ih =>
    subst hlen
    cases hnext : next ⟨size, o, rest⟩ with
    | mk t c =>
      cases t with
      | error => rw [tokens_fault hnext] at h; cases h
      | ok t =>
        obtain ⟨gap, hgap, ⟨hrest, rfl⟩ | ⟨u, rest', r, hrest, hfirst, rfl, rfl⟩⟩ :=
          next_cases hnext
        · rw [tokens_final hnext rfl] at h
          cases h
          rw [hrest]
          exact .inl ⟨.blank hgap, rfl⟩
        · obtain ⟨rfl, rfl, a, rfl⟩ | ⟨hl, w, a, rfl, hw, -⟩ := Reading.first_shape hfirst
          · rw [tokens_final hnext rfl] at h
            cases h
            exact .inr ⟨gap, a, hrest, .blank hgap, rfl⟩
          · rw [tokens_token hnext hl] at h
            obtain ⟨l, n⟩ := r
            dsimp only at hw hl h
            subst hw hrest
            rw [List.take_left, List.drop_left] at h
            injection h with hts hlast
            subst hts
            have hlt : a.length < (gap ++ u :: (w ++ a)).length := by
              simp only [List.length_append, List.length_cons]
              omega
            obtain ⟨hspelled, rfl⟩ | ⟨t, after, rfl, hspelled, rfl⟩ :=
              ih a.length hlt (congrArg (Tokens.mk _) hlast) rfl
            · exact .inl ⟨.token hgap hfirst hl hspelled, rfl⟩
            -- the lexeme was read before the braces, and is the same without them
            · have hprefix : Tame (t ++ ("\x7d\x7d" ++ after)) t := tame_prefix ⟨_, rfl⟩
              refine .inr ⟨gap ++ u :: (w ++ t), after, by simp,
                .token hgap (Reading.first_congr hprefix hfirst rfl) hl hspelled, ?_⟩
              simp only [List.length_append, List.length_cons]
              congr 1
              omega

theorem tokens_eof_iff {size o rest ts last} :
    tokens ⟨size, o, rest⟩ = ⟨ts, .ok last⟩ ∧ last.lexeme = .eof ↔
      Spelled o rest ts ∧ last = ending size := by
  constructor
  · rintro ⟨h, hlast⟩
    obtain h | ⟨t, after, -, -, rfl⟩ := spelled_of_tokens h
    · exact h
    · cases hlast
  · rintro ⟨h, rfl⟩
    exact ⟨h.tokens_eof, rfl⟩

theorem tokens_close_iff {size o rest ts last} :
    tokens ⟨size, o, rest⟩ = ⟨ts, .ok last⟩ ∧ last.lexeme = .close ↔
      ∃ t after, rest = t ++ ("\x7d\x7d" ++ after) ∧ Spelled o t ts ∧
        last = closing (o + t.length) := by
  constructor
  · rintro ⟨h, hlast⟩
    obtain ⟨-, rfl⟩ | h := spelled_of_tokens h
    · cases hlast
    · exact h
  · rintro ⟨t, after, rfl, h, rfl⟩
    exact ⟨h.tokens_close, rfl⟩

/-- The first of all tokens is the next one. -/
lemma next_of_all {c : Cursor} {t : Token} {after : List Token} (h : c.tokens.all = t :: after) :
    ∃ c', c.next = (.ok t, c') ∧
      (after = [] ∨ t.lexeme.isFinal = false ∧ c'.tokens.all = after) := by
  obtain ⟨⟨fault⟩ | ⟨t'⟩, c', hnext⟩ : ∃ r c', c.next = (r, c') := ⟨_, _, rfl⟩
  · rw [tokens_fault hnext] at h
    cases h
  · cases hfinal : t'.lexeme.isFinal with
    | true =>
      rw [tokens_final hnext hfinal] at h
      cases h
      exact ⟨c', hnext, .inl rfl⟩
    | false =>
      rw [tokens_token hnext hfinal] at h
      cases h
      exact ⟨c', hnext, .inr ⟨hfinal, rfl⟩⟩

/-- The text before a token is made of the tokens before it. -/
lemma spelled_before {o : Nat} {text : Text} {us after : List Token} {t : Token}
    (h : (tokens ⟨o + text.length, o, text⟩).all = us ++ t :: after) :
    ∃ pre more, text = pre ++ more ∧ t.span.start = o + pre.length ∧ Spelled o pre us := by
  induction us generalizing o text with
  | nil =>
    obtain ⟨c, hnext, -⟩ := next_of_all h
    obtain ⟨gap, hgap, ⟨rfl, rfl⟩ | ⟨u, rest, r, rfl, -, rfl, -⟩⟩ := next_cases hnext
    · exact ⟨text, [], (List.append_nil text).symm, rfl, .blank hgap⟩
    · exact ⟨gap, _, rfl, rfl, .blank hgap⟩
  | cons x us ih =>
    obtain ⟨c, hnext, hnil | ⟨hfinal, hall⟩⟩ := next_of_all h
    · exact absurd hnil (List.append_ne_nil_of_right_ne_nil us (List.cons_ne_nil t after))
    obtain ⟨gap, hgap, ⟨-, rfl⟩ | ⟨u, rest, r, rfl, hfirst, rfl, rfl⟩⟩ := next_cases hnext
    · cases hfinal
    obtain ⟨rfl, rfl, a, rfl⟩ | ⟨-, w, a, rfl, hw, -⟩ := Reading.first_shape hfirst
    · cases hfinal
    obtain ⟨l, n⟩ := r
    dsimp only at hw hfinal hall
    subst hw
    have hsize : o + (gap ++ u :: (w ++ a)).length =
        o + gap.length + (w.length + 1) + a.length := by
      simp only [List.length_append, List.length_cons]
      omega
    rw [List.drop_left, hsize] at hall
    obtain ⟨pre, more, rfl, hstart, hpre⟩ := ih hall
    -- the lexeme was read before the rest of the text, and is the same without it
    have htame : Tame (pre ++ more) pre := tame_prefix ⟨more, rfl⟩
    rw [List.take_left]
    refine ⟨gap ++ u :: (w ++ pre), more, by simp, ?_,
      .token hgap (Reading.first_congr htame hfirst rfl) hfinal hpre⟩
    rw [hstart]
    simp only [List.length_append, List.length_cons]
    omega

/-- The same for all tokens of a source. -/
lemma spelled_take {source : Text} {us after : List Token} {t : Token}
    (h : (start source 0).tokens.all = us ++ t :: after) :
    Spelled 0 (source.take t.span.start) us := by
  have hstart : start source 0 = ⟨0 + source.length, 0, source⟩ :=
    congrArg (Cursor.mk · 0 source) (Nat.zero_add source.length).symm
  rw [hstart] at h
  obtain ⟨pre, more, rfl, hpos, hpre⟩ := spelled_before h
  rwa [hpos, Nat.zero_add, List.take_left]

end Cursor

end Stencil
