import Stencil.Proofs.Grammar.Lookahead

/-!
# The parser looks one token ahead

Main statement: `Call.answer_viable`. Whatever the parser answers to a call is viable: it would read
the same tokens again, and refuse the same token, in any other text with these lexemes. The proof is
by induction on calls. For each form a `Passed` lemma says what is read again and `Refails` lemmas
say where the form fails again; the answer is put together from these.
-/

namespace Stencil

/-- No final lexeme is an operator. -/
lemma BinaryOp.not_isFinal {l : Lexeme} {op : BinaryOp} (h : ofLexeme? l = some op) :
    l.isFinal = false := by
  cases l with
  | eof => cases h
  | close => cases h
  | _ => rfl

/-- Whether a lexeme begins an expression without unary operators. -/
def Lexeme.opens : Lexeme → Bool
  | .number _ | .string _ | .reference .. | .name _ | .mark .opening => true
  | _ => false

namespace Expr

/-! ## Failures -/

variable {s : Setting} {d : Nat} {fault : SyntaxFault}

lemma parseOperators_error {ts t us op} {left : Step Expr ts} (hs : s.Ready)
    (hl : left.rest = t :: us) (hop : BinaryOp.ofLexeme? t.lexeme = some op)
    (h : parseOperand s d (op.level + 1) us = .error fault) :
    parseOperators s d op.level left = .error fault := by
  obtain ⟨e, stop, _, hlt⟩ := left
  subst hl
  rw [parseOperators]
  simp only [hs.blocked?, hop, h, if_pos]

lemma parseTernary_consequent_error {ts us r p} {c : Step Expr ts} (hs : s.Free)
    (hc : parseOperand s d 0 ts = .ok c) (hcr : c.rest = ⟨.mark .question, r, p⟩ :: us)
    (h : parseTernary s (d + 1) us = .error fault) : parseTernary s d ts = .error fault := by
  obtain ⟨e, stop, _, hlt⟩ := c
  subst hcr
  rw [parseTernary]
  simp only [hc, hs.barred?, h]

lemma parseTernary_colon_error {ts us r p} {c : Step Expr ts} {a : Step Expr us} (hs : s.Free)
    (hc : parseOperand s d 0 ts = .ok c) (hcr : c.rest = ⟨.mark .question, r, p⟩ :: us)
    (ha : parseTernary s (d + 1) us = .ok a)
    (har : ∀ r p rest, a.rest ≠ ⟨.mark .colon, r, p⟩ :: rest) :
    ∃ fault, parseTernary s d ts = .error fault := by
  obtain ⟨e, stop, _, hlt⟩ := c
  subst hcr
  rw [parseTernary]
  simp only [hc, hs.barred?, ha]
  exact ⟨_, rfl⟩

lemma parseTernary_alternate_error {ts us vs r p r' p'} {c : Step Expr ts} {a : Step Expr us}
    (hs : s.Free) (hc : parseOperand s d 0 ts = .ok c)
    (hcr : c.rest = ⟨.mark .question, r, p⟩ :: us) (ha : parseTernary s (d + 1) us = .ok a)
    (har : a.rest = ⟨.mark .colon, r', p'⟩ :: vs)
    (h : parseTernary s (d + 1) vs = .error fault) : parseTernary s d ts = .error fault := by
  obtain ⟨e, stop, _, hlt⟩ := c
  subst hcr
  obtain ⟨e', stop', _, hlt'⟩ := a
  subst har
  rw [parseTernary]
  simp only [hc, hs.barred?, ha, h]

/-- A lexeme that begins no expression is refused. -/
lemma parsePrimary_refuse {t rest} (h : t.lexeme.opens = false) :
    parsePrimary s d t rest = .error (s.refuse .expression (t :: rest)) := by
  obtain ⟨l, r, p⟩ := t
  rw [parsePrimary]
  cases l with
  | mark m =>
    cases m with
    | opening => cases h
    | _ => rfl
  | eof => rfl
  | close => rfl
  | sign => rfl
  | _ => cases h

lemma parseUnary_error {ts} (h : ∀ t ∈ ts.head?, UnaryOp.ofLexeme? t.lexeme = none ∧
    t.lexeme.opens = false) : ∃ fault, parseUnary s d ts = .error fault := by
  cases ts with
  | nil => exact ⟨_, by rw [parseUnary]⟩
  | cons t rest =>
    obtain ⟨hop, hopens⟩ := h t rfl
    exact ⟨_, (parseUnary_atom hop).trans (parsePrimary_refuse hopens)⟩

lemma parseUnary_operand_error {t ts op} (hs : s.Free) (hop : UnaryOp.ofLexeme? t.lexeme = some op)
    (h : parseUnary s (d + 1) ts = .error fault) : parseUnary s d (t :: ts) = .error fault := by
  rw [parseUnary]
  simp only [hop, hs.barred?, h]

lemma parsePrimary_group_error {r p ts} (hs : s.Free)
    (h : parsePipeline s (d + 1) ts = .error fault) :
    parsePrimary s d ⟨.mark .opening, r, p⟩ ts = .error fault := by
  rw [parsePrimary]
  simp only [hs.barred?, h]

lemma parsePrimary_closing_error {r p ts} {inner : Step Expr ts} (hs : s.Free)
    (h : parsePipeline s (d + 1) ts = .ok inner)
    (hr : ∀ r p rest, inner.rest ≠ ⟨.mark .closing, r, p⟩ :: rest) :
    ∃ fault, parsePrimary s d ⟨.mark .opening, r, p⟩ ts = .error fault := by
  rw [parsePrimary]
  simp only [hs.barred?, h]
  exact ⟨_, rfl⟩

lemma parsePrimary_call_error {name ts r p r' p'} (hs : s.Free)
    (hname : keywordLiteral? name = none)
    (h : parseArguments s (d + 1) ⟨.mark .opening, r', p'⟩ ts = .error fault) :
    parsePrimary s d ⟨.name name, r, p⟩ (⟨.mark .opening, r', p'⟩ :: ts) = .error fault := by
  rw [parsePrimary]
  simp only [hs.blocked?, hname, h]

lemma parseMoreArguments_error {ts} {done : Step (List Expr) ts} {arg : Step Expr done.rest}
    (h : parsePipeline s d done.rest = .ok arg)
    (hcomma : ∀ r p rest, arg.rest ≠ ⟨.mark .comma, r, p⟩ :: rest)
    (hclosing : ∀ r p rest, arg.rest ≠ ⟨.mark .closing, r, p⟩ :: rest) :
    ∃ fault, parseMoreArguments s d done = .error fault := by
  rw [parseMoreArguments]
  simp only [h]
  exact ⟨_, rfl⟩

lemma parseStages_name_error {ts us r p done} {input : Step Expr ts} (hs : s.Free)
    (hr : input.rest = ⟨.sign .bar, r, p⟩ :: us)
    (h : ∀ t ∈ us.head?, ∀ name, t.lexeme = .name name → name = conditionalName) :
    ∃ fault, parseStages s d input done = .error fault := by
  obtain ⟨e, stop, _, hlt⟩ := input
  subst hr
  rw [parseStages]
  simp only [hs.blocked?]
  split
  · next name _ _ _ _ _ => exact ⟨_, if_pos (h _ rfl name rfl)⟩
  · exact ⟨_, rfl⟩

lemma parseStages_arguments_error {ts us name r₀ p₀ r p r₁ p₁ done} {input : Step Expr ts}
    (hs : s.Free) (hname : name ≠ conditionalName)
    (hr : input.rest =
      ⟨.sign .bar, r₀, p₀⟩ :: ⟨.name name, r, p⟩ :: ⟨.mark .opening, r₁, p₁⟩ :: us)
    (h : parseArguments s (d + 1) ⟨.mark .opening, r₁, p₁⟩ us = .error fault) :
    parseStages s d input done = .error fault := by
  obtain ⟨e, stop, _, hlt⟩ := input
  subst hr
  rw [parseStages]
  simp only [hs.blocked?, if_neg hname, h]

lemma ofCall_error {t : Token} {name args stop} (h : ofCall t name args stop = .error fault) :
    fault.isRefusal = false := by
  unfold ofCall at h
  split at h
  · split at h <;> cases h
    rfl
  · cases h

/-- Whether a call is made depends on the number of its arguments only. -/
lemma ofCall_congr {t t' : Token} {name args args' stop stop' e}
    (hlength : args'.length = args.length) (h : ofCall t name args stop = .ok e) :
    ∃ e', ofCall t' name args' stop' = .ok e' := by
  unfold ofCall at h ⊢
  split
  · next hif =>
    rw [if_pos hif] at h
    match args, args', hlength, h with
    | [_, _], [c, a], _, _ => exact ⟨_, rfl⟩
    | [_, _, _], [c, a, b], _, _ => exact ⟨_, rfl⟩
  · exact ⟨_, rfl⟩

end Expr

/-- What is read is derived by the tokens before the rest. -/
lemma Setting.derives_of_reads {s : Setting} {depth : Nat} {ts us rest : List Token} {p : Phrase}
    (h : s.Reads depth ts rest p) (hts : ts = us ++ rest) : ∃ n, Derives n us p := by
  obtain ⟨us', n, hts', hus, -⟩ := h
  rw [hts] at hts'
  exact ⟨n, List.append_cancel_right hts' ▸ hus⟩

namespace Call

open Setting

variable {s : Setting} {depth level : Nat} {ts us rest : List Token}

/-- The answers to all calls before this one are viable. -/
def ViableBelow (s : Setting) {α : Type} {ts : List Token} (c : Call α ts) : Prop :=
  ∀ {β : Type} {us : List Token} (c' : Call β us), c'.Before c → c'.Proper →
    Viable s c' (answer s c')

namespace ViableBelow

variable {α : Type} {c : Call α ts}

lemma operators (ih : ViableBelow s c) {left : Step Expr us}
    (h : left.rest.length < c.tokens.length) (hlevel : level < BinaryOp.levels) :
    Viable s (.operators depth level left) (Expr.parseOperators s depth level left) :=
  ih (.operators depth level left) (.inl h) hlevel

lemma stages (ih : ViableBelow s c) {input : Step Expr us} {done : List Stage}
    (h : input.rest.length < c.tokens.length) :
    Viable s (.stages depth input done) (Expr.parseStages s depth input done) :=
  ih (.stages depth input done) (.inl h) trivial

lemma moreArguments (ih : ViableBelow s c) {done : Step (List Expr) us}
    (h : done.rest.length < c.tokens.length) :
    Viable s (.moreArguments depth done) (Expr.parseMoreArguments s depth done) :=
  ih (.moreArguments depth done) (.inl h) trivial

end ViableBelow

/-! ## What is derived -/

namespace Passed

lemma pipeline_derives {step : Step Expr ts} (hs : s.Plain)
    (h : (Call.pipeline depth ts).Passed s us step)
    (hstep : Expr.parsePipeline s depth ts = .ok step) :
    ∃ n, Derives n us (.pipeline step.value) :=
  derives_of_reads (Expr.parsePipeline_sound (hs.allows depth) hstep) h.split

lemma ternary_derives {step : Step Expr ts} (hs : s.Plain)
    (h : (Call.ternary depth ts).Passed s us step)
    (hstep : Expr.parseTernary s depth ts = .ok step) :
    ∃ n, Derives n us (.ternary step.value) :=
  derives_of_reads
    (Expr.parseTernary_sound (Expr.soundBelow s _) (Nat.le_refl _) (hs.allows depth) hstep) h.split

lemma operand_derives {step : Step Expr ts} (hs : s.Plain) (hlevel : level ≤ BinaryOp.levels)
    (h : (Call.operand depth level ts).Passed s us step)
    (hstep : Expr.parseOperand s depth level ts = .ok step) :
    ∃ n, Derives n us (.operand level step.value) :=
  derives_of_reads
    (Expr.parseOperand_sound (Expr.soundBelow s _) (Nat.le_refl _) hlevel (hs.allows depth) hstep)
    h.split

/-- The arguments that were passed end with the closing parenthesis. -/
lemma arguments_derives {opening : Token} {step : Step (List Expr) (opening :: rest)}
    (h : (Call.arguments depth opening rest).Passed s us step)
    (hstep : Expr.parseArguments s depth opening rest = .ok step) :
    ∃ vs n r p, us = vs ++ [⟨.mark .closing, r, p⟩] ∧ Derives n vs (.arguments step.value) := by
  obtain ⟨vs, n, r, p, hrest, hvs, -, -⟩ :=
    Expr.parseArguments_sound (Expr.soundBelow s _) (Nat.lt_succ_self _) hstep
  rw [List.append_cons] at hrest
  exact ⟨vs, n, r, p, List.append_cancel_right (h.split.symm.trans hrest), hvs⟩

end Passed

/-! ## Pipelines, operands and operators -/

lemma pipeline_viable (hs : s.Plain) (ih : ViableBelow s (.pipeline depth ts)) :
    Viable s (.pipeline depth ts) (Expr.parsePipeline s depth ts) := by
  rw [Expr.parsePipeline]
  have hinput : Viable s (.ternary depth ts) (Expr.parseTernary s depth ts) :=
    ih (.ternary depth ts) (.inr ⟨rfl, Nat.lt_succ_self _⟩) trivial
  refine hinput.seq [] rfl (fun _ => .input) ?_ (fun _ h => by simp only [h]) ?_
  · intro us l hfails s' hs' ts' rest' hts'
    obtain ⟨fault, h⟩ := hfails s' hs' ts' rest' hts'
    exact ⟨fault, by rw [Expr.parsePipeline, h]⟩
  intro input us h hinput
  simp only [h]
  obtain ⟨n, hus⟩ := hinput.ternary_derives hs h
  refine (ih.stages input.shorter).tail us hinput.split (fun _ => .piped hus) rfl ?_
  intro vs rest t hvs ht s' hs' ts' rest' hts'
  obtain ⟨mid, hmid, input', hi, hr, -⟩ := hinput.append hvs ht hs' hts'
  refine ⟨mid, hmid, fun P hP => ?_⟩
  change P (Expr.parsePipeline s' depth ts')
  rw [Expr.parsePipeline]
  simp only [hi]
  exact hP input' [] hr

lemma operand_viable (hs : s.Plain) (hlevel : level ≤ BinaryOp.levels)
    (ih : ViableBelow s (.operand depth level ts)) :
    Viable s (.operand depth level ts) (Expr.parseOperand s depth level ts) := by
  rw [Expr.parseOperand]
  split
  · next hlt =>
    have hleft : Viable s (.operand depth level.succ ts)
        (Expr.parseOperand s depth (level + 1) ts) :=
      ih (.operand depth level.succ ts) (.inr ⟨rfl, by simp only [tightness]; omega⟩) hlt
    refine hleft.seq [] rfl (fun _ => .tighter hlt) ?_ (fun _ h => by simp only [h]) ?_
    · intro us l hfails s' hs' ts' rest' hts'
      obtain ⟨fault, h⟩ := hfails s' hs' ts' rest' hts'
      exact ⟨fault, by rw [Expr.parseOperand, if_pos hlt, h]⟩
    intro left us h hleft
    simp only [h]
    obtain ⟨n, hus⟩ := hleft.operand_derives hs hlt h
    refine (ih.operators left.shorter hlt).tail us hleft.split
      (fun _ => .binary (.tighter hlt hus)) rfl ?_
    intro vs rest t hvs ht s' hs' ts' rest' hts'
    obtain ⟨mid, hmid, left', hl, hr, -⟩ := hleft.append hvs ht hs' hts'
    refine ⟨mid, hmid, fun P hP => ?_⟩
    change P (Expr.parseOperand s' depth level ts')
    rw [Expr.parseOperand, if_pos hlt]
    simp only [hl]
    exact hP left' hr
  · next hge =>
    obtain rfl : level = BinaryOp.levels := by omega
    have hunary : Viable s (.unary depth ts) (Expr.parseUnary s depth ts) :=
      ih (.unary depth ts) (.inr ⟨rfl, by simp only [tightness]; omega⟩) trivial
    refine hunary.tail [] rfl (fun _ => .factor) rfl ?_
    intro vs rest t _ _ s' hs' ts' rest' hts'
    refine ⟨ts', hts', fun P hP => ?_⟩
    change P (Expr.parseOperand s' depth BinaryOp.levels ts')
    rw [Expr.parseOperand, if_neg hge]
    exact hP

/-- Without an operator of the level the loop ends, for the same next lexeme as before. -/
lemma operators_passed {left : Step Expr ts} (h : ∀ t, s.next? left.rest = some t →
    ∀ op, BinaryOp.ofLexeme? t.lexeme = some op → op.level ≠ level) :
    (Call.operators depth level left).Passed s [] left := by
  refine ⟨rfl, fun ht s' hs' ts' rest' hts' base left' hl => ?_⟩
  obtain rfl := hts'.nil
  refine ⟨left', Expr.parseOperators_done fun t' ht' op hop => ?_, hl, rfl⟩
  rw [hl] at ht'
  rw [hts'.head t' ht'] at hop
  exact h _ ht op hop

lemma operators_viable (hs : s.Plain) (hlevel : level < BinaryOp.levels)
    {left : Step Expr ts} (ih : ViableBelow s (.operators depth level left)) :
    Viable s (.operators depth level left) (Expr.parseOperators s depth level left) := by
  rw [Expr.parseOperators]
  split
  · next hr =>
    refine .read [] (operators_passed fun t ht op hop => ?_)
    rw [hr] at ht
    have hfinal := hs.next_final ht
    rw [BinaryOp.not_isFinal hop] at hfinal
    cases hfinal
  · next t rest hr =>
    have hnext {t' : Token} (ht : s.next? left.rest = some t') : t' = t := by
      rw [hr] at ht
      cases ht
      rfl
    split
    · next hop =>
      refine .read [] (operators_passed fun t' ht op hop' => ?_)
      rw [hnext ht, hop] at hop'
      cases hop'
    · next op hop =>
      split
      · next hl =>
        subst hl
        apply Viable.guard (fun _ => hs.blocked)
        have hright : Viable s (.operand depth op.level.succ rest)
            (Expr.parseOperand s depth (op.level + 1) rest) :=
          ih (.operand depth op.level.succ rest)
            (.inl (by simp only [tokens, hr, List.length_cons]; omega)) hlevel
        refine hright.seq [t] hr (fun _ => .right hop) ?_ (fun _ h => by simp only [h]) ?_
        · intro us l hfails s' hs' ts' rest' hts' base left' hl
          obtain ⟨r, p, mid, rfl, hmid⟩ := hts'.cons
          obtain ⟨fault, h⟩ := hfails s' hs' mid rest' hmid
          exact ⟨fault, Expr.parseOperators_error hs'.ready hl hop h⟩
        intro right us h hright
        simp only [h]
        obtain ⟨n, hus⟩ := hright.operand_derives hs hlevel h
        have hlt := right.shorter
        refine (ih.operators ?_ hlevel).tail (t :: us) ?_ (fun _ => .further hop hus) rfl ?_
        · simp only [tokens, hr, List.length_cons]
          omega
        · exact hr.trans (congrArg (t :: ·) hright.split)
        intro vs rest' t' hvs ht s' hs' ts' rest'' hts'
        obtain ⟨r, p, mid, rfl, hmid⟩ := hts'.cons
        obtain ⟨mid', hmid', right', hr₁, hr₂, -⟩ := hright.append hvs ht hs' hmid
        refine ⟨mid', hmid', fun P hP base left' hl => ?_⟩
        have hop' : BinaryOp.ofLexeme? (Token.mk t.lexeme r p).lexeme = some op := hop
        obtain ⟨next, he, -, hn⟩ := Expr.parseOperators_binary hs'.ready hop' hl hr₁
        rw [he]
        exact hP next (hn.trans hr₂)
      · next hl =>
        refine .read [] (operators_passed fun t' ht op' hop' => ?_)
        rw [hnext ht, hop] at hop'
        cases hop'
        exact hl

/-! ## Ternaries -/

section Ternary

variable {us vs ws rest' : List Token} {l : Lexeme} {r r' : Text} {p p' : Span}
  {condition : Step Expr ts} {consequent : Step Expr rest} {alternate : Step Expr rest'}

lemma consequent_refails (hcondition : (Call.operand depth 0 ts).Passed s us condition)
    (hr : condition.rest = ⟨.mark .question, r, p⟩ :: rest)
    (h : (Call.ternary depth.succ rest).Refails vs l) :
    (Call.ternary depth ts).Refails (us ++ ⟨.mark .question, r, p⟩ :: vs) l := by
  intro s' hs' ts' rest' hts'
  obtain ⟨_, _, mid, hmid, c, hc, hcr, -⟩ := hcondition.after hr hs' hts'
  obtain ⟨fault, hfault⟩ := h s' hs' mid rest' hmid
  exact ⟨fault, Expr.parseTernary_consequent_error hs' hc hcr hfault⟩

lemma colon_refails {t : Token} (hs : s.Plain)
    (hcondition : (Call.operand depth 0 ts).Passed s us condition)
    (hr : condition.rest = ⟨.mark .question, r, p⟩ :: rest)
    (hconsequent : (Call.ternary depth.succ rest).Passed s vs consequent)
    (hcolon : ∀ r p more, consequent.rest ≠ ⟨.mark .colon, r, p⟩ :: more)
    (ht : s.next? consequent.rest = some t) :
    (Call.ternary depth ts).Refails (us ++ ⟨.mark .question, r, p⟩ :: vs) t.lexeme := by
  intro s' hs' ts' rest' hts'
  obtain ⟨_, _, mid, hmid, c, hc, hcr, -⟩ := hcondition.after hr hs' hts'
  obtain ⟨a, ha, har, -⟩ := hconsequent.again ht s' hs' mid rest' hmid
  have hne := hmid.ne_cons (hs.next_ne ht rfl hcolon)
  exact Expr.parseTernary_colon_error hs' hc hcr ha (har ▸ hne)

lemma alternate_refails (hcondition : (Call.operand depth 0 ts).Passed s us condition)
    (hr : condition.rest = ⟨.mark .question, r, p⟩ :: rest)
    (hconsequent : (Call.ternary depth.succ rest).Passed s vs consequent)
    (hr' : consequent.rest = ⟨.mark .colon, r', p'⟩ :: rest')
    (h : (Call.ternary depth.succ rest').Refails ws l) :
    (Call.ternary depth ts).Refails
      (us ++ ⟨.mark .question, r, p⟩ :: (vs ++ ⟨.mark .colon, r', p'⟩ :: ws)) l := by
  intro s' hs' ts' rest'' hts'
  obtain ⟨_, _, mid, hmid, c, hc, hcr, -⟩ := hcondition.after hr hs' hts'
  obtain ⟨_, _, mid', hmid', a, ha, har, -⟩ := hconsequent.after hr' hs' hmid
  obtain ⟨fault, hfault⟩ := h s' hs' mid' rest'' hmid'
  exact ⟨fault, Expr.parseTernary_alternate_error hs' hc hcr ha har hfault⟩

lemma ternary_passed {step : Step Expr ts}
    (hcondition : (Call.operand depth 0 ts).Passed s us condition)
    (hr : condition.rest = ⟨.mark .question, r, p⟩ :: rest)
    (hconsequent : (Call.ternary depth.succ rest).Passed s vs consequent)
    (hr' : consequent.rest = ⟨.mark .colon, r', p'⟩ :: rest')
    (halternate : (Call.ternary depth.succ rest').Passed s ws alternate)
    (hstep : step.rest = alternate.rest) :
    (Call.ternary depth ts).Passed s
      (us ++ ⟨.mark .question, r, p⟩ :: (vs ++ ⟨.mark .colon, r', p'⟩ :: ws)) step where
  split := by
    have hsplit : ts = us ++ ⟨.mark .question, r, p⟩ :: rest := hcondition.split_cons hr
    have hsplit' : rest = vs ++ ⟨.mark .colon, r', p'⟩ :: rest' := hconsequent.split_cons hr'
    have hsplit'' : rest' = ws ++ alternate.rest := halternate.split
    change ts = _
    rw [hstep, List.append_assoc, List.cons_append, List.append_assoc, List.cons_append,
      ← hsplit'', ← hsplit', ← hsplit]
  again ht s' hs' ts' rest'' hts' := by
    rw [hstep] at ht
    obtain ⟨_, _, mid, hmid, c, hc, hcr, -⟩ := hcondition.after hr hs' hts'
    obtain ⟨_, _, mid', hmid', a, ha, har, -⟩ := hconsequent.after hr' hs' hmid
    obtain ⟨b, hb, hbr, -⟩ := halternate.again ht s' hs' mid' rest'' hmid'
    obtain ⟨step', hstep', -, hrest⟩ :=
      Expr.parseTernary_ternary hs'.ready (hs'.allows _) hc hcr ha har hb
    exact ⟨step', hstep', hrest.trans hbr, rfl⟩

lemma choice_passed (hs : s.Plain) (hcondition : (Call.operand depth 0 ts).Passed s us condition)
    (hquestion : ∀ r p more, condition.rest ≠ ⟨.mark .question, r, p⟩ :: more) :
    (Call.ternary depth ts).Passed s us condition where
  split := hcondition.split
  again ht s' hs' ts' rest' hts' := by
    obtain ⟨c, hc, hcr, -⟩ := hcondition.again ht s' hs' ts' rest' hts'
    have hne := hts'.ne_cons (hs.next_ne ht rfl hquestion)
    exact ⟨c, Expr.parseTernary_choice hc (hcr ▸ hne), hcr, rfl⟩

end Ternary

lemma ternary_viable (hs : s.Plain) (ih : ViableBelow s (.ternary depth ts)) :
    Viable s (.ternary depth ts) (Expr.parseTernary s depth ts) := by
  rw [Expr.parseTernary]
  have hcondition : Viable s (.operand depth 0 ts) (Expr.parseOperand s depth 0 ts) :=
    ih (.operand depth 0 ts) (.inr ⟨rfl, Nat.lt_succ_self _⟩) (Nat.zero_le _)
  refine hcondition.seq [] rfl (fun _ => .condition) ?_ (fun _ h => by simp only [h]) ?_
  · intro us l hfails s' hs' ts' rest' hts'
    obtain ⟨fault, h⟩ := hfails s' hs' ts' rest' hts'
    exact ⟨fault, by rw [Expr.parseTernary]; simp only [h]⟩
  intro condition us h hcondition
  simp only [h]
  have hlt := condition.shorter
  obtain ⟨n, hus⟩ := hcondition.operand_derives hs (Nat.zero_le _) h
  split
  · next r p rest hr =>
    rw [hr, List.length_cons] at hlt
    apply Viable.guard (fun _ => hs.barred)
    have hsplit : ts = us ++ ⟨.mark .question, r, p⟩ :: rest := hcondition.split_cons hr
    have hconsequent : Viable s (.ternary depth.succ rest)
        (Expr.parseTernary s (depth + 1) rest) :=
      ih (.ternary depth.succ rest) (.inl (Nat.lt_of_succ_lt hlt)) trivial
    refine hconsequent.seq (us ++ [⟨.mark .question, r, p⟩]) ?_ ?_ ?_
      (fun _ h => by simp only [h]) ?_
    · exact hsplit.trans (List.append_cons _ _ _)
    · intro vs hvs
      rw [← List.append_cons]
      exact .consequent hus hvs
    · intro vs l hfails
      rw [← List.append_cons]
      exact consequent_refails hcondition hr hfails
    intro consequent vs h' hconsequent
    simp only [h']
    have hlt' := consequent.shorter
    obtain ⟨m, hvs⟩ := hconsequent.ternary_derives hs h'
    split
    · next r' p' rest' hr' =>
      rw [hr', List.length_cons] at hlt'
      apply Viable.guard (fun _ => hs.barred)
      have hsplit' : rest = vs ++ ⟨.mark .colon, r', p'⟩ :: rest' := hconsequent.split_cons hr'
      have hshape (xs : List Token) :
          us ++ ⟨.mark .question, r, p⟩ :: (vs ++ [⟨.mark .colon, r', p'⟩]) ++ xs =
            us ++ ⟨.mark .question, r, p⟩ :: (vs ++ ⟨.mark .colon, r', p'⟩ :: xs) := by simp
      have halternate : Viable s (.ternary depth.succ rest')
          (Expr.parseTernary s (depth + 1) rest') :=
        ih (.ternary depth.succ rest') (.inl (by simp only [tokens]; omega)) trivial
      refine halternate.seq (us ++ ⟨.mark .question, r, p⟩ :: (vs ++ [⟨.mark .colon, r', p'⟩]))
        ?_ ?_ ?_ (fun _ h => by simp only [h]) ?_
      · rw [hshape]
        exact hsplit.trans (congrArg (us ++ _ :: ·) hsplit')
      · intro ws hws
        rw [hshape]
        exact .alternate hus hvs hws
      · intro ws l hfails
        rw [hshape]
        exact alternate_refails hcondition hr hconsequent hr' hfails
      intro alternate ws h'' halternate
      simp only [h'']
      exact .read _ (ternary_passed hcondition hr hconsequent hr' halternate rfl)
    · next hcolon =>
      refine .refuse hs (us ++ ⟨.mark .question, r, p⟩ :: vs) ?_ (.colon hus hvs)
        fun t ht => colon_refails hs hcondition hr hconsequent hcolon ht
      rw [List.append_assoc, List.cons_append]
      exact hsplit.trans (congrArg (us ++ _ :: ·) hconsequent.split)
  · next hquestion => exact .read us (choice_passed hs hcondition hquestion)

/-! ## Unary operators and primaries -/

lemma unary_viable (hs : s.Plain) (ih : ViableBelow s (.unary depth ts)) :
    Viable s (.unary depth ts) (Expr.parseUnary s depth ts) := by
  cases ts with
  | nil =>
    rw [Expr.parseUnary]
    refine .refuse hs [] rfl (.atom .start) fun t ht s' hs' ts' rest hts' => ?_
    have hfinal := hs.next_final ht
    obtain rfl := hts'.nil
    refine Expr.parseUnary_error fun t' ht' => ?_
    rw [hts'.head t' ht']
    cases hl : t.lexeme with
    | eof => exact ⟨rfl, rfl⟩
    | close => exact ⟨rfl, rfl⟩
    | _ => rw [hl] at hfinal; cases hfinal
  | cons t rest =>
    rw [Expr.parseUnary]
    split
    · next op hop =>
      apply Viable.guard (fun _ => hs.barred)
      have hinner : Viable s (.unary depth.succ rest) (Expr.parseUnary s (depth + 1) rest) :=
        ih (.unary depth.succ rest) (.inl (Nat.lt_succ_self _)) trivial
      refine hinner.seq [t] rfl (fun _ => .unary hop) ?_ (fun _ h => by simp only [h]) ?_
      · intro us l hfails s' hs' ts' rest' hts'
        obtain ⟨r, p, mid, rfl, hmid⟩ := hts'.cons
        obtain ⟨fault, h⟩ := hfails s' hs' mid rest' hmid
        exact ⟨fault, Expr.parseUnary_operand_error hs' hop h⟩
      intro inner us h hinner
      simp only [h]
      refine .read (t :: us) ⟨congrArg (t :: ·) hinner.split, fun ht s' hs' ts' rest' hts' => ?_⟩
      obtain ⟨r, p, mid, rfl, hmid⟩ := hts'.cons
      obtain ⟨inner', hi, hr, -⟩ := hinner.again ht s' hs' mid rest' hmid
      have hop' : UnaryOp.ofLexeme? (Token.mk t.lexeme r p).lexeme = some op := hop
      obtain ⟨step, hstep, -, hr'⟩ := Expr.parseUnary_unary hs'.ready (hs'.allows _) hop' hi
      exact ⟨step, hstep, hr'.trans hr, rfl⟩
    · next hop =>
      have hprimary : Viable s (.primary depth t rest) (Expr.parsePrimary s depth t rest) :=
        ih (.primary depth t rest) (.inr ⟨rfl, Nat.lt_succ_self _⟩) hop
      refine hprimary.tail [] rfl (fun _ => .atom) rfl ?_
      intro us rest' t' _ _ s' hs' ts' rest'' hts'
      exact ⟨ts', hts', fun P hP => hP⟩

/-- A token that is an expression by itself is one wherever it stands. -/
lemma atom_passed {t : Token} {e : Expr} (hop : UnaryOp.ofLexeme? t.lexeme = none)
    (h : ∀ s' : Setting, s'.Free → ∀ r p mid, ∃ e, Expr.parsePrimary s' depth ⟨t.lexeme, r, p⟩ mid =
      .ok (.pass e ⟨t.lexeme, r, p⟩ mid)) :
    (Call.primary depth t rest).Passed s [t] (.pass e t rest) := by
  refine ⟨rfl, fun _ s' hs' ts' rest' hts' => ?_⟩
  obtain ⟨r, p, mid, rfl, hmid⟩ := hts'.cons
  obtain rfl := hmid.nil
  obtain ⟨e', he⟩ := h s' hs' r p mid
  have hop' : UnaryOp.ofLexeme? (Token.mk t.lexeme r p).lexeme = none := hop
  exact ⟨.pass e' ⟨t.lexeme, r, p⟩ mid, (Expr.parseUnary_atom hop').trans he, rfl, rfl⟩

section Primary

variable {us : List Token} {l : Lexeme} {name : Text} {r r' : Text} {p p' : Span}

lemma call_refails (hname : keywordLiteral? name = none)
    (h : (Call.arguments depth.succ ⟨.mark .opening, r', p'⟩ rest).Refails us l) :
    (Call.primary depth ⟨.name name, r, p⟩ (⟨.mark .opening, r', p'⟩ :: rest)).Refails
      (⟨.name name, r, p⟩ :: ⟨.mark .opening, r', p'⟩ :: us) l := by
  intro s' hs' ts' rest' hts'
  obtain ⟨r₁, p₁, _, rfl, hopening⟩ := hts'.cons
  obtain ⟨r₂, p₂, mid, rfl, hmid⟩ := hopening.cons
  obtain ⟨fault, hfault⟩ := h s' hs' mid rest' hmid ⟨.mark .opening, r₂, p₂⟩
  exact ⟨fault, (Expr.parseUnary_atom rfl).trans (Expr.parsePrimary_call_error hs' hname hfault)⟩

lemma call_passed {args : Step (List Expr) (⟨.mark .opening, r', p'⟩ :: rest)} {e : Expr}
    {step : Step Expr (⟨.name name, r, p⟩ :: ⟨.mark .opening, r', p'⟩ :: rest)}
    (hname : keywordLiteral? name = none)
    (hargs : (Call.arguments depth.succ ⟨.mark .opening, r', p'⟩ rest).Passed s us args)
    (hcall : Expr.ofCall ⟨.name name, r, p⟩ name args.value args.stop = .ok e)
    (hstep : step.rest = args.rest) :
    (Call.primary depth ⟨.name name, r, p⟩ (⟨.mark .opening, r', p'⟩ :: rest)).Passed s
      (⟨.name name, r, p⟩ :: ⟨.mark .opening, r', p'⟩ :: us) step where
  split := by
    rw [hstep]
    exact congrArg (_ :: _ :: ·) hargs.split
  again ht s' hs' ts' rest' hts' := by
    rw [hstep] at ht
    obtain ⟨r₁, p₁, _, rfl, hopening⟩ := hts'.cons
    obtain ⟨r₂, p₂, mid, rfl, hmid⟩ := hopening.cons
    obtain ⟨args', ha, hr, hlength⟩ :=
      hargs.again ht s' hs' mid rest' hmid ⟨.mark .opening, r₂, p₂⟩
    obtain ⟨e', he⟩ := Expr.ofCall_congr hlength hcall
    obtain ⟨step', hstep', -, hr'⟩ := Expr.parsePrimary_call hs'.ready hname ha rfl hr he
    exact ⟨step', (Expr.parseUnary_atom rfl).trans hstep', hr', rfl⟩

/-- A name is a literal, or that of a function which arguments follow. -/
lemma name_viable (hs : s.Plain) (ih : ViableBelow s (.primary depth ⟨.name name, r, p⟩ rest)) :
    Viable s (.primary depth ⟨.name name, r, p⟩ rest)
      (Expr.parsePrimary s depth ⟨.name name, r, p⟩ rest) := by
  rw [Expr.parsePrimary]
  apply Viable.guard (fun _ => hs.blocked)
  split
  · next value hvalue =>
    exact .read _ (atom_passed rfl fun s' hs' r p mid =>
      ⟨_, Expr.parsePrimary_literal hs'.ready hvalue⟩)
  · next hname =>
    split
    · next r' p' rest =>
      have hargs : Viable s (.arguments depth.succ ⟨.mark .opening, r', p'⟩ rest)
          (Expr.parseArguments s (depth + 1) ⟨.mark .opening, r', p'⟩ rest) :=
        ih (.arguments depth.succ ⟨.mark .opening, r', p'⟩ rest) (.inl (Nat.lt_succ_self _)) trivial
      refine hargs.seq [⟨.name name, r, p⟩, ⟨.mark .opening, r', p'⟩] rfl (fun _ => .call hname)
        (fun _ _ => call_refails hname) (fun _ h => by simp only [h]) ?_
      intro args us h hargs
      simp only [h]
      split
      · next hcall => exact .other (Expr.ofCall_error hcall)
      · next e hcall => exact .read _ (call_passed hname hargs hcall rfl)
    · exact .other rfl

lemma closing_refails {inner : Step Expr rest} {t : Token} (hs : s.Plain)
    (hinner : (Call.pipeline depth.succ rest).Passed s us inner)
    (hclosing : ∀ r p more, inner.rest ≠ ⟨.mark .closing, r, p⟩ :: more)
    (ht : s.next? inner.rest = some t) :
    (Call.primary depth ⟨.mark .opening, r, p⟩ rest).Refails (⟨.mark .opening, r, p⟩ :: us)
      t.lexeme := by
  intro s' hs' ts' rest' hts'
  obtain ⟨r₁, p₁, mid, rfl, hmid⟩ := hts'.cons
  obtain ⟨inner', hi, hir, -⟩ := hinner.again ht s' hs' mid rest' hmid
  have hne := hmid.ne_cons (hs.next_ne ht rfl hclosing)
  obtain ⟨fault, h⟩ := Expr.parsePrimary_closing_error hs' hi (hir ▸ hne)
  exact ⟨fault, (Expr.parseUnary_atom rfl).trans h⟩

lemma group_passed {inner : Step Expr rest} {step : Step Expr (⟨.mark .opening, r, p⟩ :: rest)}
    (hinner : (Call.pipeline depth.succ rest).Passed s us inner)
    (hr : inner.rest = ⟨.mark .closing, r', p'⟩ :: step.rest) :
    (Call.primary depth ⟨.mark .opening, r, p⟩ rest).Passed s
      (⟨.mark .opening, r, p⟩ :: (us ++ [⟨.mark .closing, r', p'⟩])) step where
  split := by
    have hsplit : rest = us ++ ⟨.mark .closing, r', p'⟩ :: step.rest := hinner.split_cons hr
    rw [List.append_cons] at hsplit
    exact congrArg (_ :: ·) hsplit
  again ht s' hs' ts' rest' hts' := by
    obtain ⟨r₁, p₁, mid, rfl, hmid⟩ := hts'.cons
    obtain ⟨r₂, p₂, _, hrest, inner', hi, hir, -⟩ := hinner.after hr hs' hmid
    obtain rfl := hrest.nil
    obtain ⟨step', hstep', -, hr'⟩ := Expr.parsePrimary_group hs'.ready (hs'.allows _) hi hir
    exact ⟨step', (Expr.parseUnary_atom rfl).trans hstep', hr', rfl⟩

lemma group_viable (hs : s.Plain)
    (ih : ViableBelow s (.primary depth ⟨.mark .opening, r, p⟩ rest)) :
    Viable s (.primary depth ⟨.mark .opening, r, p⟩ rest)
      (Expr.parsePrimary s depth ⟨.mark .opening, r, p⟩ rest) := by
  rw [Expr.parsePrimary]
  apply Viable.guard (fun _ => hs.barred)
  have hinner : Viable s (.pipeline depth.succ rest) (Expr.parsePipeline s (depth + 1) rest) :=
    ih (.pipeline depth.succ rest) (.inl (Nat.lt_succ_self _)) trivial
  refine hinner.seq [⟨.mark .opening, r, p⟩] rfl (fun _ => .inner) ?_
    (fun _ h => by simp only [h]) ?_
  · intro us l hfails s' hs' ts' rest' hts'
    obtain ⟨r₁, p₁, mid, rfl, hmid⟩ := hts'.cons
    obtain ⟨fault, h⟩ := hfails s' hs' mid rest' hmid
    exact ⟨fault, (Expr.parseUnary_atom rfl).trans (Expr.parsePrimary_group_error hs' h)⟩
  intro inner us h hinner
  simp only [h]
  obtain ⟨n, hus⟩ := hinner.pipeline_derives hs h
  split
  · next r' p' rest' hr =>
    apply Viable.guard (fun _ => hs.blocked)
    exact .read _ (group_passed hinner hr)
  · next hclosing =>
    exact .refuse hs (⟨.mark .opening, r, p⟩ :: us) (congrArg (_ :: ·) hinner.split) (.group hus)
      fun t ht => closing_refails hs hinner hclosing ht

end Primary

/-- A lexeme that begins no expression is refused everywhere. -/
lemma refused_viable (hs : s.Plain) {t : Token} (hop : UnaryOp.ofLexeme? t.lexeme = none)
    (hopens : t.lexeme.opens = false) :
    Viable s (.primary depth t rest) (Expr.parsePrimary s depth t rest) := by
  rw [Expr.parsePrimary_refuse hopens]
  refine .refuse hs [] rfl .start fun t' ht s' hs' ts' rest' hts' => ?_
  cases ht
  obtain rfl := hts'.nil
  refine Expr.parseUnary_error fun t' ht => ?_
  rw [hts'.head t' ht]
  exact ⟨hop, hopens⟩

lemma primary_viable (hs : s.Plain) {t : Token}
    (hop : UnaryOp.ofLexeme? t.lexeme = none) (ih : ViableBelow s (.primary depth t rest)) :
    Viable s (.primary depth t rest) (Expr.parsePrimary s depth t rest) := by
  obtain ⟨l, r, p⟩ := t
  cases l with
  | number text =>
    rw [Expr.parsePrimary]
    apply Viable.guard (fun _ => hs.blocked)
    split
    · next value hvalue =>
      exact .read _ (atom_passed hop fun s' hs' r p mid =>
        ⟨_, Expr.parsePrimary_literal hs'.ready hvalue⟩)
    · exact .other rfl
  | string value =>
    rw [Expr.parsePrimary]
    apply Viable.guard (fun _ => hs.blocked)
    exact .read _ (atom_passed hop fun s' hs' r p mid =>
      ⟨_, Expr.parsePrimary_literal hs'.ready rfl⟩)
  | reference source path =>
    rw [Expr.parsePrimary]
    apply Viable.guard (fun _ => hs.blocked)
    exact .read _ (atom_passed hop fun s' hs' r p mid => ⟨_, Expr.parsePrimary_access hs'.ready⟩)
  | name name => exact name_viable hs ih
  | mark m =>
    cases m with
    | opening => exact group_viable hs ih
    | _ => exact refused_viable hs hop rfl
  | _ => exact refused_viable hs hop rfl

/-! ## Arguments and stages -/

lemma arguments_viable (hs : s.Plain) {opening : Token}
    (ih : ViableBelow s (.arguments depth opening rest)) :
    Viable s (.arguments depth opening rest) (Expr.parseArguments s depth opening rest) := by
  rw [Expr.parseArguments.eq_def]
  apply Viable.guard
  · intro fault h
    rw [tooDeep?_eq_none.2 (hs.allows depth), Option.orElse_eq_orElse, Option.orElse_eq_or,
      Option.none_or] at h
    exact hs.blocked h
  · split
    · next r p rest =>
      apply Viable.guard (fun _ => hs.blocked)
      refine .read [⟨.mark .closing, r, p⟩] ⟨rfl, fun ht s' hs' ts' rest' hts' opening' => ?_⟩
      obtain ⟨r₁, p₁, mid, rfl, hmid⟩ := hts'.cons
      obtain rfl := hmid.nil
      obtain ⟨step, hstep, hv, -, hr⟩ := Expr.parseArguments_none hs'.ready (hs'.allows depth)
      exact ⟨step, hstep, hr, congrArg List.length hv⟩
    · next hclosing =>
      refine (ih.moreArguments (Nat.lt_succ_self _)).tail [] rfl (fun _ h => h) rfl ?_
      intro us rest' t hus ht s' hs' ts' rest'' hts'
      refine ⟨ts', hts', fun P hP opening' => ?_⟩
      obtain ⟨t', mid, ht', hmid, -⟩ := hts'.append ht
      obtain rfl := hmid.nil
      rw [← hus] at ht'
      rw [Expr.parseArguments_some hs'.ready (hs'.allows depth)]
      · exact hP _ rfl rfl
      · intro t'' ht''
        rw [hmid.head t'' ht'']
        exact hs.next_ne ht' rfl hclosing

section Arguments

variable {us more : List Token} {r : Text} {p : Span} {done : Step (List Expr) ts}
  {arg : Step Expr done.rest}

lemma lastArgument_passed {step : Step (List Expr) ts}
    (harg : (Call.pipeline depth done.rest).Passed s us arg)
    (hr : arg.rest = ⟨.mark .closing, r, p⟩ :: step.rest)
    (hstep : step.value = done.value ++ [arg.value]) :
    (Call.moreArguments depth done).Passed s (us ++ [⟨.mark .closing, r, p⟩]) step where
  split := by
    rw [← List.append_cons, ← hr]
    exact harg.split
  again ht s' hs' ts' rest' hts' base done' hdone hlength := by
    subst hdone
    obtain ⟨_, _, _, hrest, arg', ha, har, -⟩ := harg.after hr hs' hts'
    obtain rfl := hrest.nil
    obtain ⟨step', hstep', hv, -, hr'⟩ := Expr.parseMoreArguments_last hs'.ready ha har
    refine ⟨step', hstep', hr', ?_⟩
    simp only [extent, hv, hstep, List.length_append, hlength, List.length_singleton]

lemma argument_refails {t : Token} (hs : s.Plain)
    (harg : (Call.pipeline depth done.rest).Passed s us arg)
    (hcomma : ∀ r p more, arg.rest ≠ ⟨.mark .comma, r, p⟩ :: more)
    (hclosing : ∀ r p more, arg.rest ≠ ⟨.mark .closing, r, p⟩ :: more)
    (ht : s.next? arg.rest = some t) : (Call.moreArguments depth done).Refails us t.lexeme := by
  intro s' hs' ts' rest' hts' base done' hdone _
  subst hdone
  obtain ⟨arg', ha, har, -⟩ := harg.again ht s' hs' _ rest' hts'
  have hcomma' := hts'.ne_cons (hs.next_ne ht rfl hcomma)
  have hclosing' := hts'.ne_cons (hs.next_ne ht rfl hclosing)
  exact Expr.parseMoreArguments_error ha (har ▸ hcomma') (har ▸ hclosing')

end Arguments

lemma moreArguments_viable (hs : s.Plain) {done : Step (List Expr) ts}
    (ih : ViableBelow s (.moreArguments depth done)) :
    Viable s (.moreArguments depth done) (Expr.parseMoreArguments s depth done) := by
  rw [Expr.parseMoreArguments]
  have harg : Viable s (.pipeline depth done.rest) (Expr.parsePipeline s depth done.rest) :=
    ih (.pipeline depth done.rest) (.inr ⟨rfl, Nat.lt_succ_self _⟩) trivial
  refine harg.seq [] rfl (fun _ => .argument) ?_ (fun _ h => by simp only [h]) ?_
  · intro us l hfails s' hs' ts' rest' hts' base done' hdone _
    subst hdone
    obtain ⟨fault, h⟩ := hfails s' hs' _ rest' hts'
    exact ⟨fault, by rw [Expr.parseMoreArguments]; simp only [h]⟩
  intro arg us h harg
  simp only [h]
  have hlt := arg.shorter
  obtain ⟨n, hus⟩ := harg.pipeline_derives hs h
  split
  · next r p rest hr =>
    rw [hr, List.length_cons] at hlt
    apply Viable.guard (fun _ => hs.blocked)
    refine (ih.moreArguments ?_).tail (us ++ [⟨.mark .comma, r, p⟩]) ?_ ?_ rfl ?_
    · exact Nat.lt_of_succ_lt hlt
    · exact (harg.split_cons hr).trans (List.append_cons _ _ _)
    · intro vs hvs
      rw [← List.append_cons]
      refine .nextArgument hus ?_
      simpa [part] using hvs
    · intro vs rest' t hvs ht s' hs' ts' rest'' hts'
      rw [← List.append_cons] at hts'
      obtain ⟨_, _, mid, hmid, arg', ha, har, -⟩ := harg.after hr hs' hts'
      refine ⟨mid, hmid, fun P hP base done' hdone hlength => ?_⟩
      subst hdone
      obtain ⟨next, he, hv, hn⟩ := Expr.parseMoreArguments_more hs'.ready ha har
      rw [he]
      refine hP next hn ?_
      rw [hv, List.length_append, List.length_append, hlength]
      rfl
  · next r p rest hr =>
    apply Viable.guard (fun _ => hs.blocked)
    exact .read _ (lastArgument_passed harg hr rfl)
  · next hcomma hclosing =>
    exact .refuse hs us harg.split (.lastArgument hus)
      fun t ht => argument_refails hs harg hcomma hclosing ht

section Stages

variable {us : List Token} {l : Lexeme} {name : Text} {r₀ r₁ r₂ : Text} {p₀ p₁ p₂ : Span}
  {input : Step Expr ts} {done : List Stage}

lemma stageArguments_refails (hname : name ≠ conditionalName)
    (h : (Call.arguments depth.succ ⟨.mark .opening, r₂, p₂⟩ rest).Refails us l) :
    (Call.stages depth input done).Refails
      (⟨.sign .bar, r₀, p₀⟩ :: ⟨.name name, r₁, p₁⟩ :: ⟨.mark .opening, r₂, p₂⟩ :: us) l := by
  intro s' hs' ts' rest' hts' base input' done' hi
  obtain ⟨r, p, _, rfl, hafter⟩ := hts'.cons
  obtain ⟨r', p', _, rfl, hopening⟩ := hafter.cons
  obtain ⟨r'', p'', mid, rfl, hmid⟩ := hopening.cons
  obtain ⟨fault, hfault⟩ := h s' hs' mid rest' hmid ⟨.mark .opening, r'', p''⟩
  exact ⟨fault, Expr.parseStages_arguments_error hs' hname hi hfault⟩

/-- After the bar no other token is read than the name of a function. -/
lemma stageName_refails (h : ∀ name, l = .name name → name = conditionalName) :
    (Call.stages depth input done).Refails [⟨.sign .bar, r₀, p₀⟩] l := by
  intro s' hs' ts' rest' hts' base input' done' hi
  obtain ⟨r, p, mid, rfl, hmid⟩ := hts'.cons
  obtain rfl := hmid.nil
  refine Expr.parseStages_name_error hs' hi fun t ht name hl => ?_
  rw [hmid.head t ht] at hl
  exact h name hl

/-- A stage with arguments, and those after it. -/
lemma stage_viable (ih : ViableBelow s (.stages depth input done))
    (hr : input.rest =
      ⟨.sign .bar, r₀, p₀⟩ :: ⟨.name name, r₁, p₁⟩ :: ⟨.mark .opening, r₂, p₂⟩ :: rest)
    (hname : name ≠ conditionalName) {args : Step (List Expr) (⟨.mark .opening, r₂, p₂⟩ :: rest)}
    (h : Expr.parseArguments s (depth + 1) ⟨.mark .opening, r₂, p₂⟩ rest = .ok args)
    (hargs : (Call.arguments depth.succ ⟨.mark .opening, r₂, p₂⟩ rest).Passed s us args)
    {next : Step Expr ts} {stage : Stage} (hnext : next.rest = args.rest) :
    Viable s (.stages depth input done) (Expr.parseStages s depth next (done ++ [stage])) := by
  have hlen : input.rest.length = rest.length + 3 := by rw [hr]; rfl
  have hlt : args.rest.length < rest.length + 1 := args.shorter
  obtain ⟨vs, n, r, p, rfl, hvs⟩ := hargs.arguments_derives h
  have hshape (xs : List Token) :
      ⟨.sign .bar, r₀, p₀⟩ :: ⟨.name name, r₁, p₁⟩ :: ⟨.mark .opening, r₂, p₂⟩ ::
          (vs ++ [⟨.mark .closing, r, p⟩]) ++ xs =
        ⟨.sign .bar, r₀, p₀⟩ :: ⟨.name name, r₁, p₁⟩ :: ⟨.mark .opening, r₂, p₂⟩ ::
          (vs ++ ⟨.mark .closing, r, p⟩ :: xs) := by simp
  refine (ih.stages ?_).tail (⟨.sign .bar, r₀, p₀⟩ :: ⟨.name name, r₁, p₁⟩ ::
    ⟨.mark .opening, r₂, p₂⟩ :: (vs ++ [⟨.mark .closing, r, p⟩])) ?_ ?_ rfl ?_
  · simp only [tokens, hnext]
    omega
  · refine hr.trans (congrArg (_ :: _ :: _ :: ·) (hargs.split.trans ?_))
    exact congrArg (_ ++ ·) hnext.symm
  · intro ws hws
    rw [hshape]
    exact .stage hname hvs hws
  · intro ws rest' t hws ht s' hs' ts' rest'' hts'
    obtain ⟨r', p', _, rfl, hafter⟩ := hts'.cons
    obtain ⟨r'', p'', _, rfl, hopening⟩ := hafter.cons
    obtain ⟨r₃, p₃, mid, rfl, hmid⟩ := hopening.cons
    have hws' : args.rest = ws ++ rest' := hnext.symm.trans hws
    obtain ⟨mid', hmid', hagain⟩ := hargs.append hws' ht hs' hmid
    obtain ⟨args', ha, har, -⟩ := hagain ⟨.mark .opening, r₃, p₃⟩
    refine ⟨mid', hmid', fun P hP base input' done' hi => ?_⟩
    obtain ⟨next', he, -, -, hn⟩ := Expr.parseStages_call done' hs'.ready hname hi ha
    rw [he]
    exact hP next' _ (hn.trans har)

/-- A stage without arguments, and those after it. -/
lemma bareStage_viable (hs : s.Plain) (ih : ViableBelow s (.stages depth input done))
    (hr : input.rest = ⟨.sign .bar, r₀, p₀⟩ :: ⟨.name name, r₁, p₁⟩ :: rest)
    (hname : name ≠ conditionalName)
    (hopening : ∀ r p more, rest ≠ ⟨.mark .opening, r, p⟩ :: more)
    {next : Step Expr ts} {stage : Stage} (hnext : next.rest = rest) :
    Viable s (.stages depth input done) (Expr.parseStages s depth next (done ++ [stage])) := by
  subst hnext
  have hlen : input.rest.length = next.rest.length + 2 := by rw [hr]; rfl
  refine (ih.stages ?_).tail [⟨.sign .bar, r₀, p₀⟩, ⟨.name name, r₁, p₁⟩] hr
    (fun _ => .bareStage hname) rfl ?_
  · simp only [tokens]
    omega
  intro vs rest' t hvs ht s' hs' ts' rest'' hts'
  obtain ⟨r, p, _, rfl, hafter⟩ := hts'.cons
  obtain ⟨r', p', mid, rfl, hmid⟩ := hafter.cons
  refine ⟨mid, hmid, fun P hP base input' done' hi => ?_⟩
  obtain ⟨t', mid', ht', hmid', -⟩ := hmid.append ht
  obtain rfl := hmid'.nil
  have hvs' : next.rest = vs ++ rest' := hvs
  rw [← hvs'] at ht'
  have hne := hmid'.ne_cons (hs.next_ne ht' rfl hopening)
  obtain ⟨next', he, -, -, hn⟩ := Expr.parseStages_bare done' hs'.ready hname hi hne
  rw [he]
  exact hP next' _ hn

lemma stages_viable (hs : s.Plain) (ih : ViableBelow s (.stages depth input done)) :
    Viable s (.stages depth input done) (Expr.parseStages s depth input done) := by
  rw [Expr.parseStages]
  split
  · next r p rest hr =>
    have hbar : (Call.stages depth input done).ahead = [⟨.sign .bar, r, p⟩] ++ rest := hr
    apply Viable.guard (fun _ => hs.blocked)
    split
    · next name r' p' rest hr =>
      split
      · next hname =>
        refine .refuse hs [⟨.sign .bar, r, p⟩] hbar .stageName
          fun t ht => stageName_refails fun name' hl => ?_
        cases ht
        cases hl
        exact hname
      · next hname =>
        apply Viable.guard (fun _ => hs.blocked)
        split
        · next r'' p'' rest hr =>
          have hlen : input.rest.length = rest.length + 3 := by rw [hr]; rfl
          have hargs : Viable s (.arguments depth.succ ⟨.mark .opening, r'', p''⟩ rest)
              (Expr.parseArguments s (depth + 1) ⟨.mark .opening, r'', p''⟩ rest) :=
            ih (.arguments depth.succ ⟨.mark .opening, r'', p''⟩ rest)
              (.inl (by simp only [tokens, List.length_cons]; omega)) trivial
          refine hargs.seq
            [⟨.sign .bar, r, p⟩, ⟨.name name, r', p'⟩, ⟨.mark .opening, r'', p''⟩] hr
            (fun _ => .stageArguments hname) (fun _ _ => stageArguments_refails hname)
            (fun _ h => by simp only [h]) ?_
          intro args us h hargs
          simp only [h]
          exact stage_viable ih hr hname h hargs rfl
        · next _ hopening =>
          refine bareStage_viable hs ih hr hname ?_ rfl
          rintro r p more rfl
          exact hopening r p more hr rfl HEq.rfl
    · next _ hname =>
      refine .refuse hs [⟨.sign .bar, r, p⟩] hbar .stageName
        fun t ht => stageName_refails fun name hl => ?_
      refine absurd hl (hs.next_ne ht rfl ?_)
      rintro r p more rfl
      exact hname name r p more hr rfl HEq.rfl
  · next hbar =>
    refine .read [] ⟨rfl, fun ht s' hs' ts' rest' hts' base input' done' hi => ?_⟩
    obtain rfl := hts'.nil
    have hne := hts'.ne_cons (hs.next_ne ht rfl hbar)
    exact ⟨_, Expr.parseStages_done (hi ▸ hne), hi, rfl⟩

end Stages

/-- Whatever the parser answers, it looks no further than the next token. -/
theorem answer_viable (hs : s.Plain) {α : Type} (c : Call α ts) (hc : c.Proper) :
    Viable s c (answer s c) := by
  induction c using induction with
  | step c ih =>
    cases c with
    | pipeline => exact pipeline_viable hs ih
    | stages => exact stages_viable hs ih
    | ternary => exact ternary_viable hs ih
    | operand => exact operand_viable hs hc ih
    | operators => exact operators_viable hs hc ih
    | unary => exact unary_viable hs ih
    | primary => exact primary_viable hs hc ih
    | arguments => exact arguments_viable hs ih
    | moreArguments => exact moreArguments_viable hs ih

end Call

end Stencil
