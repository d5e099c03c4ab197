import Stencil.Proofs.Grammar.Soundness

/-!
# Completeness of the parser

What the grammar derives is read by the parser, whatever follows it, as long as that does not
continue the phrase.
-/

namespace Stencil

/-- Whether a lexeme continues an expression of a level that it follows: 0 is that of pipelines, 1
that of ternaries, and from 2 on come the levels of the binary operators. -/
def Lexeme.continues (level : Nat) (l : Lexeme) : Bool :=
  match l with
  | .mark .opening => true
  | .mark .question => level ≤ 1
  | .sign .bar => level = 0
  | l => match BinaryOp.ofLexeme? l with
    | some op => level ≤ op.level + 2
    | none => false

/-- Whether the tokens after an expression of a level leave it as it is. -/
def Ends (level : Nat) (rest : List Token) : Prop :=
  ∀ t ∈ rest.head?, t.lexeme.continues level = false

@[simp] lemma ends_nil {k} : Ends k [] := nofun

@[simp] lemma ends_cons {k t rest} : Ends k (t :: rest) ↔ t.lexeme.continues k = false := by
  simp [Ends]

lemma Ends.mono {k k' rest} (h : Ends k rest) (hk : k ≤ k') : Ends k' rest := by
  intro t ht
  have := h t ht
  unfold Lexeme.continues at *
  split at this
  · exact this
  · simp only [decide_eq_false_iff_not] at *; omega
  · simp only [decide_eq_false_iff_not] at *; omega
  · split at this
    · simp only [decide_eq_false_iff_not] at *; omega
    · rfl

/-- An operator continues the levels up to its own. -/
lemma Lexeme.continues_operator {level l op} (h : BinaryOp.ofLexeme? l = some op) :
    Lexeme.continues (level + 2) l = decide (level ≤ op.level) := by
  unfold Lexeme.continues
  split <;> simp_all [BinaryOp.ofLexeme?, BinaryOp.ofSign?]

/-- What ends an expression does not begin with a lexeme that continues it. -/
lemma Ends.ne_cons {k l ts} (h : Ends k ts) (hl : l.continues k) :
    ∀ r p rest, ts ≠ ⟨l, r, p⟩ :: rest := by
  rintro r p rest rfl
  rw [ends_cons.1 h] at hl
  cases hl

namespace Setting

/-- All tokens could be read. -/
def Ready (s : Setting) : Prop := ∃ t, s.last = .ok t

lemma Ready.blocked? {s : Setting} {ts} (hs : s.Ready) : s.blocked? ts = none := by
  obtain ⟨t, ht⟩ := hs
  cases ts with
  | nil => simp [Setting.blocked?, ht]
  | cons => rfl

lemma Ready.barred? {s : Setting} {d ts} (hs : s.Ready) (hd : s.Allows d) :
    s.barred? d ts = none := by
  rw [Setting.barred?, hs.blocked?, tooDeep?_eq_none.2 hd]; rfl

end Setting

namespace Expr

open Setting

/-- The phrase that the tokens `us` make up is read by the parser, whatever follows it. -/
def Accepted (s : Setting) (d : Nat) (us : List Token) : Phrase → Prop
  | .pipeline e => ∀ ts rest, ts = us ++ rest → Ends 0 rest →
    ∃ step : Step Expr ts, parsePipeline s d ts = .ok step ∧ step.value = e ∧ step.rest = rest
  | .ternary e => ∀ ts rest, ts = us ++ rest → Ends 1 rest →
    ∃ step : Step Expr ts, parseTernary s d ts = .ok step ∧ step.value = e ∧ step.rest = rest
  | .operand level e => ∀ ts rest, ts = us ++ rest → Ends (level + 3) rest →
    ∃ left : Step Expr ts, parseOperand s d level ts = parseOperators s d level left ∧
      left.value = e ∧ left.rest = rest
  | .unary e => ∀ ts rest, ts = us ++ rest →
    ∃ step : Step Expr ts, parseUnary s d ts = .ok step ∧ step.value = e ∧ step.rest = rest
  | .primary e => ∃ t vs, us = t :: vs ∧ UnaryOp.ofLexeme? t.lexeme = none ∧ ∀ rest,
    ∃ step, parsePrimary s d t (vs ++ rest) = .ok step ∧ step.value = e ∧ step.rest = rest
  | .arguments args => ∀ {ts} (done : Step (List Expr) ts) r p rest, args ≠ [] →
    done.rest = us ++ ⟨.mark .closing, r, p⟩ :: rest →
    ∃ step, parseMoreArguments s d done = .ok step ∧ step.value = done.value ++ args ∧
      step.stop = p.stop ∧ step.rest = rest
  | .stages stages => ∀ {ts} (input : Step Expr ts) done rest,
    (∀ last, done.getLast? = some last → last.span.stop = input.stop) →
    input.rest = us ++ rest → Ends 0 rest →
    ∃ step, parseStages s d input done = .ok step ∧
      step.value = input.value.piped (done ++ stages) ∧ step.rest = rest

variable {s : Setting} {d : Nat}

lemma parsePrimary_literal {t v rest} (hs : s.Ready) (h : t.lexeme.literal? = some v) :
    parsePrimary s d t rest = .ok (.pass (.literal t.span v t.raw) t rest) := by
  obtain ⟨l, r, p⟩ := t
  rw [parsePrimary]
  cases l with
  | number text =>
    simp only [Lexeme.literal?] at h
    simp only [hs.blocked?, h]
  | string value => cases h; simp only [hs.blocked?]
  | name name =>
    simp only [Lexeme.literal?] at h
    simp only [hs.blocked?, h]
  | _ => cases h

lemma parsePrimary_access {source path r p rest} (hs : s.Ready) :
    parsePrimary s d ⟨.reference source path, r, p⟩ rest =
      .ok (.pass (.access p source path) ⟨.reference source path, r, p⟩ rest) := by
  rw [parsePrimary]
  simp only [hs.blocked?]

lemma parsePrimary_group {ts r p r' p' rest} {inner : Step Expr ts} (hs : s.Ready)
    (hd : s.Allows (d + 1)) (h : parsePipeline s (d + 1) ts = .ok inner)
    (hr : inner.rest = ⟨.mark .closing, r', p'⟩ :: rest) :
    ∃ step, parsePrimary s d ⟨.mark .opening, r, p⟩ ts = .ok step ∧ step.value = inner.value ∧
      step.rest = rest := by
  obtain ⟨e, stop, _, hlt⟩ := inner
  subst hr
  rw [parsePrimary]
  simp only [hs.blocked?, hs.barred? hd, h]
  exact ⟨_, rfl, rfl, rfl⟩

lemma parsePrimary_call {name ts r p r' p' args e rest}
    {step : Step (List Expr) (⟨.mark .opening, r', p'⟩ :: ts)} (hs : s.Ready)
    (hname : keywordLiteral? name = none)
    (h : parseArguments s (d + 1) ⟨.mark .opening, r', p'⟩ ts = .ok step)
    (hv : step.value = args) (hr : step.rest = rest)
    (hcall : ofCall ⟨.name name, r, p⟩ name args step.stop = .ok e) :
    ∃ step', parsePrimary s d ⟨.name name, r, p⟩ (⟨.mark .opening, r', p'⟩ :: ts) = .ok step' ∧
      step'.value = e ∧ step'.rest = rest := by
  subst hv hr
  rw [parsePrimary]
  simp only [hs.blocked?, hname, h, hcall]
  exact ⟨_, rfl, rfl, rfl⟩

lemma parseArguments_none {opening r p rest} (hs : s.Ready) (hd : s.Allows d) :
    ∃ step, parseArguments s d opening (⟨.mark .closing, r, p⟩ :: rest) = .ok step ∧
      step.value = [] ∧ step.stop = p.stop ∧ step.rest = rest := by
  unfold parseArguments
  rw [tooDeep?_eq_none.2 hd, hs.blocked?]
  simp only [Option.orElse_eq_orElse, Option.orElse_eq_or, Option.or_none, hs.blocked?]
  exact ⟨_, rfl, rfl, rfl, rfl⟩

lemma parseArguments_some {opening ts} (hs : s.Ready) (hd : s.Allows d)
    (h : ∀ t ∈ ts.head?, t.lexeme ≠ .mark .closing) :
    parseArguments s d opening ts = parseMoreArguments s d (.pass [] opening ts) := by
  unfold parseArguments
  rw [tooDeep?_eq_none.2 hd, hs.blocked?]
  simp only [Option.orElse_eq_orElse, Option.orElse_eq_or, Option.or_none]
  split
  · exact absurd rfl (h _ rfl)
  · rfl

lemma parseMoreArguments_last {ts r p rest} {done : Step (List Expr) ts} {arg : Step Expr done.rest}
    (hs : s.Ready) (h : parsePipeline s d done.rest = .ok arg)
    (hr : arg.rest = ⟨.mark .closing, r, p⟩ :: rest) :
    ∃ step, parseMoreArguments s d done = .ok step ∧ step.value = done.value ++ [arg.value] ∧
      step.stop = p.stop ∧ step.rest = rest := by
  obtain ⟨e, stop, _, hlt⟩ := arg
  subst hr
  rw [parseMoreArguments]
  simp only [hs.blocked?, h]
  exact ⟨_, rfl, rfl, rfl, rfl⟩

lemma parseMoreArguments_more {ts r p rest} {done : Step (List Expr) ts} {arg : Step Expr done.rest}
    (hs : s.Ready) (h : parsePipeline s d done.rest = .ok arg)
    (hr : arg.rest = ⟨.mark .comma, r, p⟩ :: rest) :
    ∃ next : Step (List Expr) ts, parseMoreArguments s d done = parseMoreArguments s d next ∧
      next.value = done.value ++ [arg.value] ∧ next.rest = rest := by
  obtain ⟨e, stop, _, hlt⟩ := arg
  subst hr
  rw [parseMoreArguments]
  simp only [hs.blocked?, h]
  exact ⟨_, rfl, rfl, rfl⟩

lemma parseUnary_atom {t rest} (h : UnaryOp.ofLexeme? t.lexeme = none) :
    parseUnary s d (t :: rest) = parsePrimary s d t rest := by
  rw [parseUnary]
  simp only [h]

lemma parseUnary_unary {t ts op} {operand : Step Expr ts} (hs : s.Ready) (hd : s.Allows (d + 1))
    (hop : UnaryOp.ofLexeme? t.lexeme = some op) (h : parseUnary s (d + 1) ts = .ok operand) :
    ∃ step, parseUnary s d (t :: ts) = .ok step ∧
      step.value = .unary ⟨t.span.start, operand.value.span.stop⟩ op operand.value ∧
      step.rest = operand.rest := by
  rw [parseUnary]
  simp only [hop, hs.barred? hd, h]
  exact ⟨_, rfl, rfl, rfl⟩

lemma parseOperators_binary {ts t us op} {left : Step Expr ts} {right : Step Expr us}
    (hs : s.Ready) (hop : BinaryOp.ofLexeme? t.lexeme = some op) (hl : left.rest = t :: us)
    (h : parseOperand s d (op.level + 1) us = .ok right) :
    ∃ next : Step Expr ts, parseOperators s d op.level left = parseOperators s d op.level next ∧
      next.value =
        .binary ⟨left.value.span.start, right.value.span.stop⟩ op left.value right.value ∧
      next.rest = right.rest := by
  obtain ⟨e, stop, _, hlt⟩ := left
  subst hl
  rw [parseOperators]
  simp only [hs.blocked?, hop, h, if_pos]
  exact ⟨_, rfl, rfl, rfl⟩

lemma parseOperators_done {ts level} {left : Step Expr ts}
    (h : ∀ t ∈ left.rest.head?, ∀ op, BinaryOp.ofLexeme? t.lexeme = some op → op.level ≠ level) :
    parseOperators s d level left = .ok left := by
  obtain ⟨e, stop, rest, hlt⟩ := left
  rw [parseOperators]
  cases rest with
  | nil => rfl
  | cons t rest =>
    cases hop : BinaryOp.ofLexeme? t.lexeme with
    | none => simp only [hop]
    | some op => simp only [hop, if_neg (h t rfl op hop)]

lemma parseTernary_choice {ts} {c : Step Expr ts} (h : parseOperand s d 0 ts = .ok c)
    (hr : ∀ r p rest, c.rest ≠ ⟨.mark .question, r, p⟩ :: rest) : parseTernary s d ts = .ok c := by
  obtain ⟨e, stop, rest, hlt⟩ := c
  rw [parseTernary]
  simp only [h]

lemma parseTernary_ternary {ts us vs r₁ p₁ r₂ p₂} {c : Step Expr ts} {a : Step Expr us}
    {b : Step Expr vs} (hs : s.Ready) (hd : s.Allows (d + 1))
    (hc : parseOperand s d 0 ts = .ok c) (hcr : c.rest = ⟨.mark .question, r₁, p₁⟩ :: us)
    (ha : parseTernary s (d + 1) us = .ok a) (har : a.rest = ⟨.mark .colon, r₂, p₂⟩ :: vs)
    (hb : parseTernary s (d + 1) vs = .ok b) :
    ∃ step, parseTernary s d ts = .ok step ∧
      step.value = .ternary ⟨c.value.span.start, b.value.span.stop⟩ c.value a.value b.value ∧
      step.rest = b.rest := by
  obtain ⟨e, stop, _, hlt⟩ := c
  subst hcr
  obtain ⟨e', stop', _, hlt'⟩ := a
  subst har
  rw [parseTernary]
  simp only [hc, hs.barred? hd, ha, hb]
  exact ⟨_, rfl, rfl, rfl⟩

lemma parseStages_done {ts done} {input : Step Expr ts}
    (hr : ∀ r p rest, input.rest ≠ ⟨.sign .bar, r, p⟩ :: rest) :
    parseStages s d input done =
      .ok { input with value := ofStages input.value done input.stop } := by
  rw [parseStages]
  split
  · next heq => exact absurd heq (hr _ _ _)
  · rfl

lemma parseStages_bare {ts name r₀ p₀ r p rest} {input : Step Expr ts} (done) (hs : s.Ready)
    (hname : name ≠ conditionalName)
    (hr : input.rest = ⟨.sign .bar, r₀, p₀⟩ :: ⟨.name name, r, p⟩ :: rest)
    (hrest : ∀ r p more, rest ≠ ⟨.mark .opening, r, p⟩ :: more) :
    ∃ next : Step Expr ts, parseStages s d input done =
        parseStages s d next (done ++ [.mk p name []]) ∧
      next.value = input.value ∧ next.stop = p.stop ∧ next.rest = rest := by
  obtain ⟨e, stop, _, hlt⟩ := input
  subst hr
  rw [parseStages]
  simp only [hs.blocked?, if_neg hname]
  split
  · exact absurd rfl (hrest _ _ _)
  · exact ⟨_, rfl, rfl, rfl, rfl⟩

lemma parseStages_call {ts us name r₀ p₀ r p r₁ p₁} {input : Step Expr ts}
    {args : Step (List Expr) (⟨.mark .opening, r₁, p₁⟩ :: us)} (done) (hs : s.Ready)
    (hname : name ≠ conditionalName)
    (hr : input.rest =
      ⟨.sign .bar, r₀, p₀⟩ :: ⟨.name name, r, p⟩ :: ⟨.mark .opening, r₁, p₁⟩ :: us)
    (h : parseArguments s (d + 1) ⟨.mark .opening, r₁, p₁⟩ us = .ok args) :
    ∃ next : Step Expr ts, parseStages s d input done =
        parseStages s d next (done ++ [.mk ⟨p.start, args.stop⟩ name args.value]) ∧
      next.value = input.value ∧ next.stop = args.stop ∧ next.rest = args.rest := by
  obtain ⟨e, stop, _, hlt⟩ := input
  subst hr
  rw [parseStages]
  simp only [hs.blocked?, if_neg hname, h]
  exact ⟨_, rfl, rfl, rfl, rfl⟩

/-- The operators of its own level after an operand are left to the loop; without them it ends. -/
lemma Accepted.operand {us level e ts rest} (h : Accepted s d us (.operand level e))
    (hts : ts = us ++ rest) (hr : Ends (level + 2) rest) :
    ∃ step : Step Expr ts, parseOperand s d level ts = .ok step ∧ step.value = e ∧
      step.rest = rest := by
  obtain ⟨left, hl, hv, hrest⟩ := h ts rest hts (hr.mono (Nat.le_succ _))
  refine ⟨left, hl.trans (parseOperators_done fun t ht op hop => ?_), hv, hrest⟩
  have hends := hr t (hrest ▸ ht)
  rw [Lexeme.continues_operator hop, decide_eq_false_iff_not, Nat.not_le] at hends
  exact Nat.ne_of_lt hends

lemma Accepted.arguments {n us args r p rest ts} (opening : Token)
    (h : Accepted s d us (.arguments args)) (hus : Derives n us (.arguments args)) (hs : s.Ready)
    (hd : s.Allows d) (hts : ts = us ++ ⟨.mark .closing, r, p⟩ :: rest) :
    ∃ step, parseArguments s d opening ts = .ok step ∧ step.value = args ∧
      step.stop = p.stop ∧ step.rest = rest := by
  cases args with
  | nil =>
    cases hus
    subst hts
    exact parseArguments_none hs hd
  | cons arg args =>
    obtain ⟨t, vs, rfl, ht⟩ := hus.head (List.cons_ne_nil _ _)
    rw [parseArguments_some hs hd (by rw [hts]; rintro _ ⟨⟩; exact ht)]
    exact h (.pass [] opening ts) r p rest (List.cons_ne_nil _ _) hts

/-- What follows the input of a pipeline does not continue the input. -/
lemma ends_stages {n us stages rest} (h : Derives n us (.stages stages)) (hr : Ends 0 rest) :
    Ends 1 (us ++ rest) := by
  cases h with
  | noStages => exact hr.mono (Nat.zero_le _)
  | bareStage => rw [List.cons_append, ends_cons]; rfl
  | stage => rw [List.cons_append, ends_cons]; rfl

/-- A derived phrase is accepted wherever the limit allows its depth. -/
lemma accepted {n us p} (h : Derives n us p) (hs : s.Ready) (hd : s.Allows (d + n)) :
    Accepted s d us p := by
  -- on the derivation; what follows a phrase must not continue it (`Ends`), which each case
  -- owes to the tokens that the grammar puts there
  induction h generalizing d with
  | @literal t v hv =>
    refine ⟨t, [], rfl, ?_, fun rest => ⟨_, parsePrimary_literal hs hv, rfl, rfl⟩⟩
    cases hl : t.lexeme with
    | sign s => rw [hl] at hv; cases hv
    | _ => rfl
  | access => exact ⟨_, [], rfl, rfl, fun rest => ⟨_, parsePrimary_access hs, rfl, rfl⟩⟩
  | @group n ts e r₁ p₁ r₂ p₂ _ ih =>
    refine ⟨_, _, rfl, rfl, fun rest => ?_⟩
    obtain ⟨inner, hi, rfl, hr⟩ := ih hd.succ (ts ++ [⟨.mark .closing, r₂, p₂⟩] ++ rest)
      (⟨.mark .closing, r₂, p₂⟩ :: rest) (by simp) (by rw [ends_cons]; rfl)
    exact parsePrimary_group hs hd.succ.here hi hr
  | @call n ts name args r p r₁ p₁ r₂ p₂ hname hts ih =>
    refine ⟨_, _, rfl, rfl, fun rest => ?_⟩
    have hrest : ts ++ [⟨.mark .closing, r₂, p₂⟩] ++ rest =
        ts ++ ⟨.mark .closing, r₂, p₂⟩ :: rest := by simp
    obtain ⟨step, hstep, hv, hstop, hr⟩ :=
      Accepted.arguments ⟨.mark .opening, r₁, p₁⟩ (ih hd.succ) hts hs hd.succ.here hrest
    refine parsePrimary_call hs hname.1 hstep hv hr ?_
    unfold ofCall
    rw [if_neg hname.2, hstop]
  | @conditional n ts c a b r p r₁ p₁ r₂ p₂ hts ih =>
    refine ⟨_, _, rfl, rfl, fun rest => ?_⟩
    have hrest : ts ++ [⟨.mark .closing, r₂, p₂⟩] ++ rest =
        ts ++ ⟨.mark .closing, r₂, p₂⟩ :: rest := by simp
    obtain ⟨step, hstep, hv, hstop, hr⟩ :=
      Accepted.arguments ⟨.mark .opening, r₁, p₁⟩ (ih hd.succ) hts hs hd.succ.here hrest
    refine parsePrimary_call hs (by decide) hstep hv hr ?_
    rw [hstop]
    cases b <;> rfl
  | noArguments => exact fun done r p rest h => absurd rfl h
  | lastArgument _ ih =>
    intro _ done r p rest _ hts
    obtain ⟨arg, ha, rfl, hr⟩ := ih hd _ _ hts (by rw [ends_cons]; rfl)
    exact parseMoreArguments_last hs ha hr
  | argument _ _ ih ih' =>
    intro _ done r p rest _ hts
    rw [List.append_assoc, List.cons_append] at hts
    obtain ⟨arg, ha, rfl, hr⟩ := ih hd.left _ _ hts (by rw [ends_cons]; rfl)
    obtain ⟨next, he, hv, hr'⟩ := parseMoreArguments_more hs ha hr
    obtain ⟨step, hstep, hv', hstop, hrest⟩ :=
      ih' hd.right next r p rest (List.cons_ne_nil _ _) hr'
    exact ⟨step, he.trans hstep, by rw [hv', hv]; simp, hstop, hrest⟩
  | atom _ ih =>
    intro ts rest hts
    obtain ⟨t, vs, rfl, ht, hp⟩ := ih hd
    subst hts
    rw [List.cons_append, parseUnary_atom ht]
    exact hp rest
  | unary hop _ ih =>
    intro ts rest hts
    subst hts
    obtain ⟨operand, ho, rfl, hr⟩ := ih hd.succ _ rest rfl
    obtain ⟨step, hstep, hv, hrest⟩ := parseUnary_unary hs hd.succ.here hop ho
    exact ⟨step, hstep, hv, hrest.trans hr⟩
  | factor _ ih =>
    intro ts rest hts hr
    obtain ⟨step, hstep, hv, hrest⟩ := ih hd ts rest hts
    refine ⟨step, ?_, hv, hrest⟩
    rw [parseOperand, if_neg (Nat.lt_irrefl _), hstep]
    exact (parseOperators_done fun _ _ op _ => Nat.ne_of_lt op.level_lt).symm
  | tighter hlt _ ih =>
    intro ts rest hts hr
    obtain ⟨step, hstep, hv, hrest⟩ := Accepted.operand (ih hd) hts hr
    refine ⟨step, ?_, hv, hrest⟩
    rw [parseOperand, if_pos hlt, hstep]
  | @binary n m t ts us op left right hop _ _ ih ih' =>
    intro ts' rest hts hr
    rw [List.append_assoc, List.cons_append] at hts
    -- the operator itself ends its left operand, which is of the same level
    obtain ⟨left', hl, rfl, hrest⟩ := ih hd.left ts' _ hts (by
      rw [ends_cons, Lexeme.continues_operator hop, decide_eq_false_iff_not]
      exact Nat.not_succ_le_self _)
    obtain ⟨right', hright, rfl, hrest'⟩ := Accepted.operand (ih' hd.right) rfl hr
    obtain ⟨next, he, hv, hn⟩ := parseOperators_binary hs hop hrest hright
    exact ⟨next, hl.trans he, hv, hn.trans hrest'⟩
  | choice _ ih =>
    intro ts rest hts hr
    obtain ⟨c, hc, hv, hrest⟩ := Accepted.operand (ih hd) hts (hr.mono (by decide))
    exact ⟨c, parseTernary_choice hc (hrest ▸ hr.ne_cons rfl), hv, hrest⟩
  | @ternary n m k ts us vs c a b r₁ p₁ r₂ p₂ _ _ _ ih ih' ih'' =>
    intro ts' rest hts hr
    simp only [List.append_assoc, List.cons_append] at hts
    obtain ⟨c, hc, rfl, hcr⟩ := Accepted.operand (ih hd.left) hts (by rw [ends_cons]; rfl)
    obtain ⟨a, ha, rfl, har⟩ :=
      ih' hd.right.succ.left _ (⟨.mark .colon, r₂, p₂⟩ :: (vs ++ rest)) rfl
        (by rw [ends_cons]; rfl)
    obtain ⟨b, hb, rfl, hbr⟩ := ih'' hd.right.succ.right _ _ rfl hr
    obtain ⟨step, hstep, hv, hrest⟩ :=
      parseTernary_ternary hs hd.right.succ.here hc hcr ha har hb
    exact ⟨step, hstep, hv, hrest.trans hbr⟩
  | noStages =>
    intro _ input done rest hdone hi hr
    obtain rfl : input.rest = rest := hi
    rw [List.append_nil]
    exact ⟨_, parseStages_done (hr.ne_cons rfl), ofStages_eq_piped hdone, rfl⟩
  | @bareStage n us name stages r₀ p₀ r p hname hus ih =>
    intro _ input done rest hdone hi hr
    obtain ⟨next, he, hv, hstop, hrest⟩ :=
      parseStages_bare done hs hname hi ((ends_stages hus hr).ne_cons rfl)
    obtain ⟨step, hstep, hv', hrest'⟩ :=
      ih hd next (done ++ [.mk p name []]) rest (by simp [hstop, Stage.span]) hrest hr
    exact ⟨step, he.trans hstep, by rw [hv', hv]; simp, hrest'⟩
  | @stage n m ts us name args stages r₀ p₀ r p r₁ p₁ r₂ p₂ hname hts hus ih ih' =>
    intro _ input done rest hdone hi hr
    have hrest : ts ++ ⟨.mark .closing, r₂, p₂⟩ :: us ++ rest =
        ts ++ ⟨.mark .closing, r₂, p₂⟩ :: (us ++ rest) := by simp
    obtain ⟨args', ha, rfl, hstop, har⟩ :=
      Accepted.arguments ⟨.mark .opening, r₁, p₁⟩ (ih hd.left.succ) hts hs hd.left.succ.here hrest
    obtain ⟨next, he, hv, hstop', hrest⟩ := parseStages_call done hs hname hi ha
    obtain ⟨step, hstep, hv', hrest'⟩ :=
      ih' hd.right next (done ++ [.mk ⟨p.start, args'.stop⟩ name args'.value]) rest
        (by simp [hstop', Stage.span]) (hrest.trans har) hr
    exact ⟨step, he.trans hstep, by rw [hv', hv, hstop]; simp, hrest'⟩
  | pipeline _ hus ih ih' =>
    intro ts rest hts hr
    rw [List.append_assoc] at hts
    obtain ⟨input, hi, rfl, hir⟩ := ih hd.left ts _ hts (ends_stages hus hr)
    have hdone : ∀ last, ([] : List Stage).getLast? = some last → last.span.stop = input.stop := by
      intro last hlast
      cases hlast
    obtain ⟨step, hstep, hv, hrest⟩ := ih' hd.right input [] rest hdone hir hr
    refine ⟨step, ?_, hv, hrest⟩
    rw [parsePipeline, hi]
    exact hstep

end Expr

end Stencil
