import Stencil.Proofs.Template.Segment
import Stencil.Proofs.Token.Progress

/-!
# Spacing

No lexeme is joined by white space, so each of them is read again as itself when other white space
stands around it, and the grammar looks at lexemes only. Main statement: `Expr.parse_spread`. The
tokens of a source that are written with other white space between them are the same tokens, and
they are the same expression.
-/

namespace Stencil

/-- The words in order, with the gap `0` in front and the gap `i` after the `i`th of them. -/
def Text.spread (gap : Nat → Text) : List Text → Text
  | [] => gap 0
  | w :: ws => gap 0 ++ (w ++ spread (fun i => gap (i + 1)) ws)

/-- A text does not join the lexeme before it if it is white space or begins with some. -/
lemma Text.tame_spread {gap : Nat → Text} {ws : List Text} (hspace : ∀ v ∈ gap 0, v.isSpace)
    (hgap : ws ≠ [] → gap 0 ≠ []) : Tame [] (spread gap ws) := by
  have tame {g rest : Text} (hg : ∀ v ∈ g, v.isSpace) (hne : g ≠ []) : Tame [] (g ++ rest) := by
    cases g with
    | nil => exact absurd rfl hne
    | cons v g => exact tame_cons (CodeUnit.not_joins_of_isSpace (hg v List.mem_cons_self))
  cases ws with
  | cons w ws => exact tame hspace (hgap (List.cons_ne_nil _ _))
  | nil =>
    rw [spread]
    cases h : gap 0 with
    | nil => exact tame_nil
    | cons v g =>
      rw [h] at hspace
      exact tame_cons (CodeUnit.not_joins_of_isSpace (hspace v List.mem_cons_self))

namespace Spelled

/-- Words with white space between them are read as the lexemes they are. -/
lemma spread {ws : List Token} {gap : Nat → Text}
    (hws : ∀ t ∈ ws, Reads t.raw t.lexeme ∧ t.lexeme.isFinal = false)
    (hspace : ∀ i ≤ ws.length, ∀ v ∈ gap i, v.isSpace)
    (hgap : ∀ i < ws.length, 0 < i → gap i ≠ []) (o : Nat) :
    ∃ us, Spelled o (Text.spread gap (ws.map Token.raw)) us ∧
      us.map (Token.move fun _ => 0) = ws.map (Token.move fun _ => 0) := by
  induction ws generalizing gap o with
  | nil => exact ⟨[], .blank (hspace 0 (Nat.le_refl 0)), rfl⟩
  | cons t ws ih =>
    obtain ⟨⟨hread, hl⟩, hws⟩ := List.forall_mem_cons.1 hws
    have hspace' : ∀ i ≤ ws.length, ∀ v ∈ gap (i + 1), v.isSpace :=
      fun i hi => hspace (i + 1) (Nat.succ_le_succ hi)
    have hgap' : ∀ i < ws.length, 0 < i → gap (i + 1) ≠ [] :=
      fun i hi _ => hgap (i + 1) (Nat.succ_lt_succ hi) (Nat.succ_pos i)
    have hfirst : ws.map Token.raw ≠ [] → gap 1 ≠ [] := fun hne =>
      hgap 1 (Nat.succ_lt_succ (List.length_pos_iff.2 (mt List.map_eq_nil_iff.2 hne))) Nat.one_pos
    obtain ⟨us, hus, hmap⟩ := ih hws hspace' hgap' (o + (gap 0).length + t.raw.length)
    have htame : Tame [] (Text.spread (fun i => gap (i + 1)) (ws.map Token.raw)) :=
      Text.tame_spread (hspace' 0 (Nat.zero_le _)) hfirst
    refine ⟨_, pad (hspace 0 (Nat.zero_le _)) (cons hread hl htame hus), ?_⟩
    rw [List.map_cons, hmap]
    rfl

/-- No token of a text is final. -/
lemma inner {o t ts} (h : Spelled o t ts) : ∀ x ∈ ts, x.lexeme.isFinal = false := by
  induction h with
  | blank => exact nofun
  | token _ _ hl _ ih => exact List.forall_mem_cons.2 ⟨hl, ih⟩

end Spelled

namespace Expr

/-- Texts with the same tokens up to their places are the same expression up to its spans. -/
lemma parse_of_spelled {s t ts us limit e} (hs : Spelled 0 s ts) (ht : Spelled 0 t us)
    (heq : us.map (Token.move fun _ => 0) = ts.map (Token.move fun _ => 0))
    (h : parse s limit = .ok e) : ∃ e', parse t limit = .ok e' ∧ e'.bare = e.bare := by
  obtain ⟨ts', n, hs', hts, hn⟩ := parse_spelled_iff.1 h
  obtain rfl := hs.unique hs'
  obtain ⟨e', he', hbare⟩ := (hts.move (f := fun _ => 0)).of_move heq
  exact ⟨e', parse_spelled_iff.2 ⟨us, n, ht, he', hn⟩, hbare⟩

/-- The texts of the tokens of a source, with any white space around them and some between any two,
are the same tokens again. What is spaced so is an expression exactly if the source is, with the
same tree up to spans. -/
theorem parse_spread {source : Text} {ts : List Token} {last : Token} {gap : Nat → Text}
    (h : tokenize source = .ok (ts ++ [last])) (hlast : last.lexeme = .eof)
    (hspace : ∀ i ≤ ts.length, ∀ v ∈ gap i, v.isSpace)
    (hgap : ∀ i < ts.length, 0 < i → gap i ≠ []) :
    let text := Text.spread gap (ts.map fun t => source.slice t.span.start t.span.stop)
    (∃ us, tokenize text = .ok (us ++ [Cursor.ending text.length]) ∧
      us.map Token.lexeme = ts.map Token.lexeme ∧ us.map Token.value = ts.map Token.value ∧
      us.map Token.raw = ts.map Token.raw) ∧
    ∀ limit,
      (∀ e, parse source limit = .ok e → ∃ e', parse text limit = .ok e' ∧ e'.bare = e.bare) ∧
      ∀ e', parse text limit = .ok e' → ∃ e, parse source limit = .ok e ∧ e.bare = e'.bare := by
  have htokens := tokenize_iff.1 h
  have hsource := (Cursor.tokens_eof_iff.1 ⟨htokens, hlast⟩).1
  have hraw : (ts.map fun t => source.slice t.span.start t.span.stop) = ts.map Token.raw := by
    refine List.map_congr_left fun t ht => (Cursor.raw_of_tokens (o := 0) ?_).symm
    rwa [htokens]
  have hws : ∀ t ∈ ts, Reads t.raw t.lexeme ∧ t.lexeme.isFinal = false :=
    fun t ht => ⟨hsource.reads t ht, hsource.inner t ht⟩
  obtain ⟨us, hus, heq⟩ := Spelled.spread hws hspace hgap 0
  rw [hraw]
  -- lexemes, values and texts do not look at the places
  have hsame {α} (g : Token → α) (hg : g ∘ Token.move (fun _ => 0) = g) :
      us.map g = ts.map g := by
    rw [← hg, ← List.map_map, heq, List.map_map]
  exact ⟨⟨us, tokenize_iff.2 hus.tokens_eof, hsame _ rfl, hsame _ rfl, hsame _ rfl⟩, fun limit =>
    ⟨fun e => parse_of_spelled hsource hus heq, fun e => parse_of_spelled hus hsource heq.symm⟩⟩

theorem parse_spread_difference :
    let ts : List Token := [⟨.number "1", "1", ⟨0, 1⟩⟩, ⟨.sign .minus, "-", ⟨1, 2⟩⟩,
      ⟨.number ".5", ".5", ⟨2, 4⟩⟩]
    tokenize "1-.5" = .ok (ts ++ [Cursor.ending 4]) ∧
    (∃ us, tokenize "\t1 -\n.5" = .ok (us ++ [Cursor.ending 7]) ∧
      us.map Token.lexeme = ts.map Token.lexeme ∧ us.map Token.value = ts.map Token.value ∧
      us.map Token.raw = ts.map Token.raw) ∧
    ∀ limit,
      (∀ e, parse "1-.5" limit = .ok e → ∃ e', parse "\t1 -\n.5" limit = .ok e' ∧
        e'.bare = e.bare) ∧
      ∀ e', parse "\t1 -\n.5" limit = .ok e' → ∃ e, parse "1-.5" limit = .ok e ∧
        e.bare = e'.bare := by
  intro ts
  let gap : Nat → Text := fun i => (["\t", " ", "\n"] : List Text).getD i []
  have hspelled : Spelled 0 "1-.5" ts :=
    @Spelled.token 0 [] '1' [] (.number "1") "-.5" _ nofun rfl rfl <|
      @Spelled.token 1 [] '-' [] (.sign .minus) ".5" _ nofun rfl rfl <|
      @Spelled.token 2 [] '.' "5" (.number ".5") [] _ nofun rfl rfl <| .blank nofun
  have htokens : tokenize "1-.5" = .ok (ts ++ [Cursor.ending 4]) :=
    tokenize_iff.2 hspelled.tokens_eof
  have hblank : ∀ i ≤ ts.length, (gap i).all CodeUnit.isSpace := by decide
  have hspace : ∀ i ≤ ts.length, ∀ v ∈ gap i, v.isSpace :=
    fun i hi => List.all_eq_true.1 (hblank i hi)
  have hgap : ∀ i < ts.length, 0 < i → gap i ≠ [] := by decide
  exact ⟨htokens, parse_spread htokens rfl hspace hgap⟩

end Expr

end Stencil
