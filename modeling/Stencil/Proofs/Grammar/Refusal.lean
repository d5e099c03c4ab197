import Stencil.Proofs.Grammar.Acceptance
import Stencil.Proofs.Grammar.Viable
import Stencil.Proofs.Token.Layout
import Stencil.Proofs.Token.Progress

/-!
# The first wrong token

Main statement: `Expr.parse_refused`. An error about an unexpected token lies at the first token
that makes the source wrong: no expression begins with the tokens up to it, and the text before it is
the beginning of one. What is missing there can be written with literals, commas, colons and closing
parentheses. Only a conditional call with more than two commas has no completion. Its arguments are
counted at the closing parenthesis, so that a token before that may be refused first.
-/

namespace Stencil

namespace Setting

variable {s : Setting} {us ts rest : List Token} {t last : Token}

/-- The next token stands among all tokens. -/
lemma next?_split (h : s.next? rest = some t) :
    ∃ after, rest ++ s.last.toOption.toList = t :: after := by
  cases rest with
  | cons t' rest =>
    cases h
    exact ⟨_, rfl⟩
  | nil =>
    have hlast : s.last.toOption = some t := h
    rw [hlast]
    exact ⟨[], rfl⟩

/-- Tokens that begin with some lexemes retrace the tokens of these. -/
lemma retraces_of_prefix (hlast : s.last = .ok last)
    (h : (us ++ [t]).map Token.lexeme <+: (ts ++ [last]).map Token.lexeme) :
    ∃ rest, s.Retraces us t.lexeme ts rest := by
  obtain ⟨ls, hls⟩ := h
  rw [List.map_append, List.append_assoc] at hls
  obtain ⟨us', ys, hsplit, hus, hys⟩ := List.map_eq_append_iff.1 hls.symm
  obtain ⟨t', zs, rfl, ht, -⟩ := List.map_eq_cons_iff.1 hys
  obtain rfl | ⟨ws, w, rfl⟩ := List.eq_nil_or_concat zs
  · obtain ⟨rfl, hfinal⟩ := List.append_inj' hsplit rfl
    cases hfinal
    refine ⟨[], ts, (List.append_nil ts).symm, hus, ?_⟩
    rw [next?, hlast]
    exact congrArg some ht
  · rw [List.concat_eq_append, ← List.cons_append, ← List.append_assoc] at hsplit
    obtain ⟨rfl, -⟩ := List.append_inj' hsplit rfl
    exact ⟨t' :: ws, us', rfl, hus, congrArg some ht⟩

end Setting

namespace Cursor

lemma plain_tokens (c : Cursor) : Setting.Plain ⟨c.tokens.last, none, none⟩ where
  opening := rfl
  allows _ := within_none
  final h := by
    obtain ⟨-, -, -, -, -, -, hfinal⟩ := c.tokens_run
    exact hfinal _ h
  proper h := by
    obtain ⟨m, p, rfl⟩ := lexical_last h
    rfl

end Cursor

/-- The words that complete an expression are read as the lexemes they are. -/
lemma reads_fillers : ∀ w ∈ fillers, Reads w.raw w.lexeme ∧ w.lexeme.isFinal = false := by
  intro w hw
  simp only [fillers, List.mem_cons, List.not_mem_nil, or_false] at hw
  obtain rfl | rfl | rfl | rfl := hw
  · exact ⟨⟨_, _, rfl, rfl⟩, rfl⟩
  · exact ⟨⟨_, _, rfl, rfl⟩, rfl⟩
  · exact ⟨⟨_, _, rfl, rfl⟩, rfl⟩
  · exact ⟨⟨_, _, rfl, rfl⟩, rfl⟩

namespace Expr

open Setting

variable {s : Setting} {ts : List Token} {final : Lexeme} {expected : Expected} {e : Expr}

/-- The pipeline that makes up an expression is followed by the final token. -/
lemma parseWhole_step (h : parseWhole s final expected ts = .ok e) :
    ∃ step last, parsePipeline s 1 ts = .ok step ∧ step.rest = [] ∧ s.last = .ok last ∧
      last.lexeme = final := by
  obtain ⟨last, n, hlast, hfinal, hts, hn⟩ := parseWhole_iff.1 h
  obtain ⟨step, hstep, -, hr⟩ :=
    accepted hts ⟨last, hlast⟩ hn ts [] (List.append_nil ts).symm ends_nil
  exact ⟨step, last, hstep, hr, hlast, hfinal⟩

/-- After the pipeline the expression ends, or the next token is wrong. -/
lemma parseWhole_rest {step : Step Expr ts} {t : Token} (hs : s.Plain)
    (hts : ∀ x ∈ step.rest, x.lexeme.isFinal = false) (hstep : parsePipeline s 1 ts = .ok step)
    (h : parseWhole s .eof .ending ts = .error (.unexpected expected t)) :
    s.next? step.rest = some t ∧ t.lexeme ≠ .eof := by
  unfold parseWhole at h
  rw [tooDeep?_eq_none.2 (hs.allows 1)] at h
  simp only [hstep] at h
  cases hr : step.rest with
  | cons t' rest =>
    rw [hr] at h hts
    cases h
    refine ⟨rfl, fun heof => ?_⟩
    have hfinal := hts t List.mem_cons_self
    rw [heof] at hfinal
    cases hfinal
  | nil =>
    rw [hr] at h
    cases hlast : s.last with
    | error fault =>
      simp only [hlast] at h
      have hproper := @Plain.refuse_proper s [] .ending hs (by rw [next?, hlast]; rfl)
      rw [Except.error.inj h] at hproper
      cases hproper
    | ok last =>
      simp only [hlast] at h
      split at h
      · cases h
      · next hne =>
        have hnext : s.next? [] = some last := by rw [next?, hlast]; rfl
        rw [hs.refuse hnext] at h
        cases h
        exact ⟨hnext, hne⟩

/-- Before a refused token stands the beginning of an expression, and no expression begins with
these lexemes and that of the token. -/
lemma parseWhole_refused {t : Token} (hs : s.Plain) (hts : ∀ x ∈ ts, x.lexeme.isFinal = false)
    (h : parseWhole s .eof .ending ts = .error (.unexpected expected t)) :
    ∃ us rest, ts = us ++ rest ∧ s.next? rest = some t ∧
      (Sparse us → Part.pipeline.Completable us) ∧
      ∀ s' : Setting, s'.Free → ∀ ts' rest', s'.Retraces us t.lexeme ts' rest' →
        ∀ e, parseWhole s' .eof .ending ts' ≠ .ok e := by
  have hviable : Viable s (.pipeline 1 ts) (parsePipeline s 1 ts) :=
    Call.answer_viable hs (.pipeline 1 ts) trivial
  cases hpipeline : parsePipeline s 1 ts with
  | error fault =>
    have hfault : fault = .unexpected expected t := by
      unfold parseWhole at h
      rw [tooDeep?_eq_none.2 (hs.allows 1), hpipeline] at h
      exact Except.error.inj h
    rw [hpipeline, hfault] at hviable
    cases hviable with
    | @refused us rest _ _ hsplit hnext hpending hfails =>
      refine ⟨us, rest, hsplit, hnext, hpending.completes, fun s' hs' ts' rest' hts' e he => ?_⟩
      obtain ⟨step, last, hstep, -⟩ := parseWhole_step he
      obtain ⟨fault, hfault⟩ := hfails s' hs' ts' rest' hts'
      rw [hstep] at hfault
      cases hfault
    | other hproper => cases hproper
  | ok step =>
    rw [hpipeline] at hviable
    cases hviable with
    | read us hpassed =>
      have hsplit : ts = us ++ step.rest := hpassed.split
      have hproper : ∀ x ∈ step.rest, x.lexeme.isFinal = false := fun x hx =>
        hts x (hsplit.symm ▸ List.mem_append_right us hx)
      obtain ⟨hnext, hne⟩ := parseWhole_rest hs hproper hpipeline h
      obtain ⟨n, hderives⟩ := hpassed.pipeline_derives hs hpipeline
      refine ⟨us, step.rest, hsplit, hnext, fun _ => ⟨[], nofun, fun zs hzs => ?_⟩,
        fun s' hs' ts' rest' hts' e he => ?_⟩
      · obtain rfl := List.map_eq_nil_iff.1 hzs
        rw [List.append_nil]
        exact ⟨n, _, hderives⟩
      -- there the same tokens would be passed, and the one after them does not end the text
      · obtain ⟨step', last, hstep', hr, hlast, heof⟩ := parseWhole_step he
        obtain ⟨again, hagain, hr', -⟩ := hpassed.again hnext s' hs' ts' rest' hts'
        rw [hstep'] at hagain
        cases hagain
        obtain ⟨-, -, -, ht⟩ := hts'
        rw [← hr', hr, next?, hlast] at ht
        exact hne ((Option.some.inj ht).symm.trans heof)

/-- A wrong token is found by the parser, and among the tokens of the source. -/
lemma parseWhole_of_parse {source : Text} {t : Token}
    (h : parse source none = .error (.unexpected expected t)) :
    parseWhole ⟨(Cursor.start source 0).tokens.last, none, none⟩ .eof .ending
      (Cursor.start source 0).tokens.list = .error (.unexpected expected t) := by
  unfold parse at h
  dsimp only at h
  split at h
  · next fault _ hlast =>
    obtain ⟨m, p, rfl⟩ := Cursor.lexical_last hlast
    cases h
  · next hlist hlast =>
    split at h
    · cases h
    · rw [hlist]
      exact h
  · exact h

/-- A text whose tokens are completed by words is completed by these with spaces between them. -/
lemma parse_completed {before : List Token} {text : Text} (htext : Spelled 0 text before)
    (h : Part.pipeline.Completable before) :
    ∃ more e rest, parse (text ++ (" " ++ more)) none = .ok e ∧
      tokenize (text ++ (" " ++ more)) = .ok (before ++ rest) := by
  obtain ⟨ws, hws, hcomplete⟩ := h
  obtain ⟨zs, hzs, hmap⟩ :=
    Spelled.join (fun w hw => reads_fillers w (hws w hw)) (0 + text.length + 1)
  have hlexemes : zs.map Token.lexeme = ws.map Token.lexeme := by
    have := congrArg (List.map Token.lexeme) hmap
    rwa [List.map_map, List.map_map] at this
  obtain ⟨n, e, hderives⟩ := hcomplete zs hlexemes
  have hgap : ∀ v ∈ (" " : Text), v.isSpace := Text.forall_mem (by decide)
  -- the space joins no lexeme before it
  have hspelled := htext.append (tame_cons rfl) (Spelled.pad hgap hzs)
  have htokens : (Cursor.start (text ++ (" " ++ Text.join " " (ws.map Token.raw))) 0).tokens = _ :=
    hspelled.tokens_eof
  exact ⟨_, e, zs ++ [_], parse_iff.2 ⟨_, _, n, htokens, rfl, hderives, within_none⟩,
    (tokenize_iff.2 htokens).trans (by rw [List.append_assoc])⟩

/-- What follows a whole expression is wrong. -/
lemma parse_surplus {source : Text} {us rest : List Token} {t last : Token} {n : Nat}
    (htokens : (Cursor.start source 0).tokens = ⟨us ++ t :: rest, .ok last⟩)
    (hus : Derives n us (.pipeline e)) (ht : t.lexeme.continues 0 = false) :
    parse source none = .error (.unexpected .ending t) := by
  let s : Setting := ⟨.ok last, none, none⟩
  have hs : s.Ready := ⟨last, rfl⟩
  have hd (d : Nat) : s.Allows d := within_none
  obtain ⟨step, hstep, -, hr⟩ :=
    accepted hus hs (hd (1 + n)) (us ++ t :: rest) (t :: rest) rfl (ends_cons.2 ht)
  have hwhole : parseWhole s .eof .ending (us ++ t :: rest) = .error (.unexpected .ending t) := by
    unfold parseWhole
    rw [tooDeep?_eq_none.2 (hd 1)]
    simp only [hstep, hr]
    rfl
  unfold parse
  rw [htokens]
  dsimp only
  split
  · next heq => cases heq
  · next heq _ => cases List.append_ne_nil_of_right_ne_nil us (List.cons_ne_nil t rest) heq
  · exact hwhole

/-- An error about an unexpected token lies at the first wrong token. Up to there the source can be
completed, unless a conditional call before it has too many arguments, and no expression begins with
the tokens before it and that token. -/
theorem parse_refused {source : Text} {t : Token}
    (h : parse source none = .error (.unexpected expected t)) :
    t ∈ (Cursor.start source 0).tokens.all ∧
      ∀ before after, (Cursor.start source 0).tokens.all = before ++ t :: after →
        (Sparse before → ∃ more e rest,
          parse (source.take t.span.start ++ (" " ++ more)) none = .ok e ∧
          tokenize (source.take t.span.start ++ (" " ++ more)) = .ok (before ++ rest)) ∧
        ∀ source' e' ts', parse source' none = .ok e' → tokenize source' = .ok ts' →
          ¬ (before ++ [t]).map Token.lexeme <+: ts'.map Token.lexeme := by
  have hplain := (Cursor.start source 0).plain_tokens
  have hproper : ∀ x ∈ (Cursor.start source 0).tokens.list, x.lexeme.isFinal = false := by
    obtain ⟨-, -, -, -, -, hproper, -⟩ := (Cursor.start source 0).tokens_run
    exact hproper
  obtain ⟨us, rest, hsplit, hnext, hcomplete, hrefused⟩ :=
    parseWhole_refused hplain hproper (parseWhole_of_parse h)
  obtain ⟨after, hafter⟩ := next?_split hnext
  have hall : (Cursor.start source 0).tokens.all = us ++ t :: after := by
    rw [Tokens.all, hsplit, List.append_assoc]
    exact congrArg _ hafter
  refine ⟨hall ▸ List.mem_append_right us List.mem_cons_self, fun before after' hbefore => ?_⟩
  have hpre := Cursor.spelled_take hbefore
  obtain rfl : before = us := hpre.unique (Cursor.spelled_take hall)
  refine ⟨fun hsparse => ?_, fun source' e' ts' hparse htokenize hprefix => ?_⟩
  · exact parse_completed hpre (hcomplete hsparse)
  · obtain ⟨ts, last, n, htokens, heof, hts, hn⟩ := parse_iff.1 hparse
    rw [tokenize_iff.2 htokens] at htokenize
    cases htokenize
    let s' : Setting := ⟨.ok last, none, none⟩
    obtain ⟨rest', hretraces⟩ := retraces_of_prefix (s := s') rfl hprefix
    exact hrefused s' ⟨⟨last, rfl⟩, fun _ => within_none⟩ ts rest' hretraces e'
      (parseWhole_iff.2 ⟨last, n, rfl, heof, hts, within_none⟩)

/-- In `true )` the parenthesis is wrong, and the literal before it begins an expression. -/
theorem parse_refused_parenthesis :
    parse "true )" none = .error (.unexpected .ending ⟨.mark .closing, ")", ⟨5, 6⟩⟩) ∧
      Sparse [truth] ∧
      (∃ more e rest, parse ("true " ++ (" " ++ more)) none = .ok e ∧
        tokenize ("true " ++ (" " ++ more)) = .ok (truth :: rest)) ∧
      ∀ source' e' ts', parse source' none = .ok e' → tokenize source' = .ok ts' →
        ¬ [.name "true", .mark .closing] <+: ts'.map Token.lexeme := by
  have hparenthesis : Spelled 4 " )" [⟨.mark .closing, ")", ⟨5, 6⟩⟩] :=
    .token (Text.forall_mem (t := " ") (by decide)) rfl rfl (.blank nofun)
  have hspelled : Spelled 0 "true )" [truth, ⟨.mark .closing, ")", ⟨5, 6⟩⟩] :=
    Spelled.cons (w := "true") ⟨_, _, rfl, rfl⟩ rfl (tame_cons rfl) hparenthesis
  have htokens : (Cursor.start "true )" 0).tokens =
      ⟨[truth] ++ [⟨.mark .closing, ")", ⟨5, 6⟩⟩], .ok (Cursor.ending 6)⟩ := hspelled.tokens_eof
  have htruth : [truth].map Token.lexeme = [truth].map Token.lexeme := rfl
  obtain ⟨e, he⟩ := derives_truth htruth
  have hparse := parse_surplus htokens he.lower_pipeline rfl
  have hsparse : Sparse [truth] := by decide
  obtain ⟨-, hbefore⟩ := parse_refused hparse
  have hall : (Cursor.start "true )" 0).tokens.all =
      [truth] ++ ⟨.mark .closing, ")", ⟨5, 6⟩⟩ :: [Cursor.ending 6] := by
    rw [Tokens.all, htokens]
    rfl
  obtain ⟨hcomplete, hrefused⟩ := hbefore [truth] [Cursor.ending 6] hall
  exact ⟨hparse, hsparse, hcomplete hsparse, hrefused⟩

end Expr

end Stencil
