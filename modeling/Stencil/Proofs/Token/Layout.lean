import Stencil.Proofs.Grammar.Move
import Stencil.Proofs.Token.Run

/-!
# Tokens in other places

The tokens of a text at another offset, of a text without the blanks around it, and of words with
spaces between them.
-/

namespace Stencil

/-- The text is one lexeme. -/
def Reads (w : Text) (l : Lexeme) : Prop :=
  ∃ u v, w = u :: v ∧ Reading.first u v = .ok ⟨l, v.length⟩

/-- A lexeme that is read before other text is read alone. -/
lemma Reads.of_first {u w rest l} (h : Reading.first u (w ++ rest) = .ok ⟨l, w.length⟩) :
    Reads (u :: w) l := by
  have hfirst := Reading.first_congr (b := []) tame_nil h rfl
  rw [List.append_nil] at hfirst
  exact ⟨u, w, rfl, hfirst⟩

namespace Spelled

/-- The tokens of a text are read from their own texts. -/
lemma reads {o t ts} (h : Spelled o t ts) : ∀ x ∈ ts, Reads x.raw x.lexeme := by
  induction h with
  | blank => exact nofun
  | token _ hfirst _ _ ih => exact List.forall_mem_cons.2 ⟨.of_first hfirst, ih⟩

/-- A text further to the right has its tokens there. -/
lemma shift {o t ts k} (h : Spelled o t ts) :
    Spelled (o + k) t (ts.map (Token.move (· + k))) := by
  induction h with
  | blank hgap => exact .blank hgap
  | @token o gap u w l rest ts hgap hfirst hl _ ih =>
    have hstart : o + gap.length + k = o + k + gap.length := by omega
    have hstop : o + gap.length + (w.length + 1) + k = o + k + gap.length + (w.length + 1) := by
      omega
    rw [hstop] at ih
    rw [List.map_cons, Token.move, Span.move, hstart, hstop]
    exact .token hgap hfirst hl ih

/-- The tokens of a text further to the right are those at its place, shifted. -/
lemma unshift {o o' t us k} (h : Spelled o' t us) (ho : o' = o + k) :
    ∃ ts, Spelled o t ts ∧ us = ts.map (Token.move (· + k)) := by
  induction h generalizing o with
  | blank hgap => exact ⟨[], .blank hgap, rfl⟩
  | @token o' gap u w l rest us hgap hfirst hl _ ih =>
    subst ho
    obtain ⟨ts, hts, rfl⟩ := @ih (o + gap.length + (w.length + 1)) (by omega)
    refine ⟨_, .token hgap hfirst hl hts, ?_⟩
    have hstart : o + gap.length + k = o + k + gap.length := by omega
    have hstop : o + gap.length + (w.length + 1) + k = o + k + gap.length + (w.length + 1) := by
      omega
    rw [List.map_cons, Token.move, Span.move, hstart, hstop]

/-- White space in front belongs to no token. -/
lemma pad {o gap t ts} (hgap : ∀ v ∈ gap, v.isSpace) (h : Spelled (o + gap.length) t ts) :
    Spelled o (gap ++ t) ts := by
  cases h with
  | blank ht => exact .blank (List.forall_mem_append.2 ⟨hgap, ht⟩)
  | @token _ gap' u w l rest ts hgap' hfirst hl hrest =>
    rw [← List.append_assoc]
    have hlen : o + gap.length + gap'.length = o + (gap ++ gap').length := by
      rw [List.length_append, Nat.add_assoc]
    rw [hlen] at hrest ⊢
    exact .token (List.forall_mem_append.2 ⟨hgap, hgap'⟩) hfirst hl hrest

/-- A text behind another one that it does not join. -/
lemma append {o t t' ts us} (h : Spelled o t ts) (ht : Tame [] t')
    (h' : Spelled (o + t.length) t' us) : Spelled o (t ++ t') (ts ++ us) := by
  induction h with
  | blank hgap => exact pad hgap h'
  | @token o gap u w l rest ts hgap hfirst hl _ ih =>
    have htext : gap ++ u :: (w ++ rest) ++ t' = gap ++ u :: (w ++ (rest ++ t')) := by simp
    have hlen : o + (gap ++ u :: (w ++ rest)).length =
        o + gap.length + (w.length + 1) + rest.length := by
      simp only [List.length_append, List.length_cons]
      omega
    rw [hlen] at h'
    rw [htext]
    exact .token hgap (Reading.first_congr (tame_append ht) hfirst rfl) hl (ih h')

/-- White space behind belongs to no token either. -/
lemma trail {o gap t ts} (hgap : ∀ v ∈ gap, v.isSpace) (h : Spelled o t ts) :
    Spelled o (t ++ gap) ts := by
  -- white space joins no lexeme
  have htame : Tame [] gap := by
    cases gap with
    | nil => exact tame_nil
    | cons v gap => exact tame_cons (CodeUnit.not_joins_of_isSpace (hgap v List.mem_cons_self))
  have happend := h.append htame (.blank hgap)
  rwa [List.append_nil] at happend

/-- A lexeme before a text that does not join it. -/
lemma cons {o w l t ts} (hw : Reads w l) (hl : l.isFinal = false) (ht : Tame [] t)
    (h : Spelled (o + w.length) t ts) :
    Spelled o (w ++ t) (⟨l, w, ⟨o, o + w.length⟩⟩ :: ts) := by
  obtain ⟨u, v, rfl, hfirst⟩ := hw
  have hfirst' : Reading.first u (v ++ []) = .ok ⟨l, v.length⟩ := by rwa [List.append_nil]
  exact .token (List.forall_mem_nil _) (Reading.first_congr ht hfirst' rfl) hl h

/-- A lexeme alone. -/
lemma single {o w l} (hw : Reads w l) (hl : l.isFinal = false) :
    Spelled o w [⟨l, w, ⟨o, o + w.length⟩⟩] := by
  have h := cons (o := o) hw hl tame_nil (.blank nofun)
  rwa [List.append_nil] at h

/-- Words with spaces between them are read as the lexemes they are. -/
lemma join {ws : List Token} (hws : ∀ t ∈ ws, Reads t.raw t.lexeme ∧ t.lexeme.isFinal = false)
    (o : Nat) : ∃ ts, Spelled o (Text.join " " (ws.map Token.raw)) ts ∧
      ts.map (Token.move fun _ => 0) = ws.map (Token.move fun _ => 0) := by
  induction ws generalizing o with
  | nil => exact ⟨[], .blank nofun, rfl⟩
  | cons t ws ih =>
    obtain ⟨⟨hread, hl⟩, hws⟩ := List.forall_mem_cons.1 hws
    cases ws with
    | nil => exact ⟨_, single hread hl, rfl⟩
    | cons t' ws =>
      obtain ⟨ts, hts, hmap⟩ := ih hws (o + t.raw.length + 1)
      -- a space joins no lexeme
      have hspace : Tame [] (" " ++ Text.join " " ((t' :: ws).map Token.raw)) := tame_cons rfl
      have h := cons (o := o) hread hl hspace (pad (Text.forall_mem (by decide)) hts)
      rw [← List.append_assoc] at h
      refine ⟨_, h, ?_⟩
      rw [List.map_cons, hmap]
      rfl

lemma ne_nil {o t x ts} (h : Spelled o t (x :: ts)) : t ≠ [] := by
  cases h with
  | token => exact List.append_ne_nil_of_right_ne_nil _ (List.cons_ne_nil _ _)

/-- Without the white space after its last lexeme a text has the same tokens, and no blank at its
end. -/
lemma strip {o t ts} (h : Spelled o t ts) (hne : ts ≠ []) :
    ∃ core trail, t = core ++ trail ∧ (∀ v ∈ trail, v.isSpace) ∧ Spelled o core ts ∧
      ∀ v ∈ core.getLast?, v.isBlank = false := by
  induction h with
  | blank => exact absurd rfl hne
  | @token o gap u w l rest ts hgap hfirst hl hrest ih =>
    cases ts with
    | nil =>
      cases hrest with
      | blank hblank =>
        have hread : Reads (u :: w) l := .of_first hfirst
        refine ⟨gap ++ u :: w, rest, by simp, hblank, pad hgap (single hread hl), ?_⟩
        rw [List.getLast?_append_cons]
        exact (Reading.shape_of_first hfirst hl).last
    | cons t' ts =>
      obtain ⟨core, trail, rfl, htrail, hcore, hlast⟩ := ih (List.cons_ne_nil _ _)
      have hprefix : Tame (core ++ trail) core := tame_prefix ⟨trail, rfl⟩
      refine ⟨gap ++ u :: (w ++ core), trail, by simp, htrail,
        .token hgap (Reading.first_congr hprefix hfirst rfl) hl hcore, ?_⟩
      have happend : gap ++ u :: (w ++ core) = (gap ++ u :: w) ++ core := by simp
      rwa [happend, List.getLast?_append_of_ne_nil _ hcore.ne_nil]

/-- A text with tokens is white space around a core that begins and ends with a lexeme. -/
lemma core {o t ts} (h : Spelled o t ts) (hne : ts ≠ []) :
    ∃ lead core trail, t = lead ++ (core ++ trail) ∧ (∀ v ∈ lead, v.isSpace) ∧
      (∀ v ∈ trail, v.isSpace) ∧ Spelled (o + lead.length) core ts ∧ core ≠ [] ∧
      (∀ v ∈ core.head?, v.isBlank = false) ∧ ∀ v ∈ core.getLast?, v.isBlank = false := by
  obtain ⟨rest, trail, rfl, htrail, hrest, hlast⟩ := h.strip hne
  cases hrest with
  | blank => exact absurd rfl hne
  | @token _ gap u w l rest ts hgap hfirst hl hrest =>
    refine ⟨gap, u :: (w ++ rest), trail, by simp, hgap, htrail,
      .token (List.forall_mem_nil _) hfirst hl hrest, List.cons_ne_nil _ _, ?_, ?_⟩
    · rintro _ ⟨⟩
      exact Reading.first_not_blank hfirst
    · rwa [List.getLast?_append_cons] at hlast

end Spelled

lemma Text.dropWhile_blank {lead rest : Text} (hlead : ∀ v ∈ lead, v.isBlank)
    (hrest : ∀ v ∈ rest.head?, v.isBlank = false) :
    (lead ++ rest).dropWhile CodeUnit.isBlank = rest := by
  rw [← drop_takeWhile, Reading.takeWhile_exact hlead hrest, List.drop_left]

/-- The blanks at the two ends of a text are cut off. -/
lemma Text.trim_core {lead core trail : Text} (hlead : ∀ v ∈ lead, v.isBlank)
    (htrail : ∀ v ∈ trail, v.isBlank) (hne : core ≠ [])
    (hhead : ∀ v ∈ core.head?, v.isBlank = false)
    (hlast : ∀ v ∈ core.getLast?, v.isBlank = false) :
    Text.trim (lead ++ (core ++ trail)) = core := by
  have hhead' : ∀ v ∈ (core ++ trail).head?, v.isBlank = false := by
    rwa [List.head?_append_of_ne_nil _ hne]
  rw [Text.trim, Text.dropWhile_blank hlead hhead', List.reverse_append,
    Text.dropWhile_blank (by simpa using htrail) (by rwa [List.head?_reverse]),
    List.reverse_reverse]

end Stencil
