import Mathlib.Data.List.Forall2
import Stencil.Proofs.Grammar.Move
import Stencil.Proofs.Print.Basic
import Stencil.Proofs.Template.Segment

/-!
# Reading printed expressions

A printed expression is read as the expression itself, at other spans. Main statement:
`Expr.parse_print`. The words of an expression are tokens that derive it (`Expr.Printable.prints`),
in any wrapping.
-/

namespace Stencil

/-- The word is the token, which stands at no place in particular. -/
structure Word (w : Text) (t : Token) : Prop where
  raw : t.raw = w
  reads : Reads w t.lexeme
  inner : t.lexeme.isFinal = false
  bare : t.span = ⟨0, 0⟩

lemma word_mark (m : Mark) : Word m.text ⟨.mark m, m.text, ⟨0, 0⟩⟩ := ⟨rfl, reads_mark m, rfl, rfl⟩

lemma word_bar : Word Sign.bar.text ⟨.sign .bar, Sign.bar.text, ⟨0, 0⟩⟩ :=
  ⟨rfl, reads_bar, rfl, rfl⟩

lemma word_name {name : Text} (h : name.isName) : Word name ⟨.name name, name, ⟨0, 0⟩⟩ :=
  ⟨rfl, reads_name h, rfl, rfl⟩

lemma word_literal {raw l v} (h : Reads raw l) (hl : l.literal? = some v) :
    Word raw ⟨l, raw, ⟨0, 0⟩⟩ := by
  refine ⟨rfl, h, ?_, rfl⟩
  cases l <;> first | rfl | cases hl

lemma word_reference {w source path} (h : Reads w (.reference source path)) :
    Word (source.spelling path) ⟨.reference source path, source.spelling path, ⟨0, 0⟩⟩ :=
  ⟨rfl, Reading.reads_spelling h, rfl, rfl⟩

lemma word_conditional :
    Word conditionalName ⟨.name conditionalName, conditionalName, ⟨0, 0⟩⟩ :=
  word_name (by decide)

/-- Words with spaces between them are read as their tokens, at other places. -/
lemma Word.spelled {ws ts} (h : List.Forall₂ Word ws ts) :
    ∃ us, Spelled 0 (Text.join " " ws) us ∧ us.map (Token.move fun _ => 0) = ts := by
  have hwords : ts.map Token.raw = ws ∧ ts.map (Token.move fun _ => 0) = ts ∧
      ∀ t ∈ ts, Reads t.raw t.lexeme ∧ t.lexeme.isFinal = false := by
    induction h with
    | nil => exact ⟨rfl, rfl, nofun⟩
    | @cons w t ws ts ht _ ih =>
      obtain ⟨hraw, hmove, hts⟩ := ih
      obtain ⟨l, raw, span⟩ := t
      obtain ⟨rfl, hreads, hinner, rfl⟩ := ht
      exact ⟨congrArg _ hraw, congrArg _ hmove, List.forall_mem_cons.2 ⟨⟨hreads, hinner⟩, hts⟩⟩
  obtain ⟨rfl, hmove, hts⟩ := hwords
  obtain ⟨us, hus, heq⟩ := Spelled.join hts 0
  exact ⟨us, hus, heq.trans hmove⟩

namespace Expr

lemma span_bare {e : Expr} : e.bare.span = ⟨0, 0⟩ := span_move

lemma bare_pipeline {p input} {stages : List Stage} (hne : stages ≠ []) :
    (Expr.pipeline p input stages).bare = input.bare.piped (moveStages (fun _ => 0) stages) := by
  have hlast := getLast?_moveStages (f := fun _ => 0) stages
  obtain ⟨last, hs⟩ := Option.ne_none_iff_exists'.1 (mt List.getLast?_eq_none_iff.1 hne)
  rw [hs] at hlast
  obtain ⟨last', hs', hspan⟩ := Option.map_eq_some_iff.1 hlast
  rw [piped, hs']
  dsimp only
  rw [span_bare, hspan]
  rfl

end Expr

/-- The words are tokens that derive the phrase. -/
def Prints (ws : List Text) (p : Phrase) : Prop :=
  ∃ n ts, List.Forall₂ Word ws ts ∧ Derives n ts p

namespace Prints

variable {us vs ws : List Text} {e e' : Expr} {l l' : Level}

lemma lower (h : Prints ws (l'.phrase e)) (hle : l.rank ≤ l'.rank) : Prints ws (l.phrase e) := by
  obtain ⟨n, ts, hws, h⟩ := h
  exact ⟨n, ts, hws, h.lower hle⟩

lemma group (h : Prints ws (.pipeline e)) :
    Prints (Mark.opening.text :: (ws ++ [Mark.closing.text])) (.primary e) := by
  obtain ⟨n, ts, hws, h⟩ := h
  exact ⟨_, _, .cons (word_mark _) (List.rel_append hws (.cons (word_mark _) .nil)), .group h⟩

/-- Parts that have the parentheses they need are what their position requires. -/
lemma enclose {w : Wrapping} (h : Prints ws (e.level.phrase e')) :
    Prints (w.enclose l e ws) (l.phrase e') := by
  unfold Wrapping.enclose
  split
  -- any expression can stand inside of parentheses, and these can stand anywhere
  · have hpipeline : Prints ws (Level.pipeline.phrase e') := h.lower (Nat.zero_le _)
    have hprimary : Prints _ (Level.primary.phrase e') := hpipeline.group
    exact hprimary.lower l.rank_le
  · next hwraps => exact h.lower (Nat.le_of_not_lt (mt (w.suffices_of_lt l e) hwraps))

lemma call {p name args} (hname : name.isName) (hcallable : Callable name)
    (h : Prints ws (.arguments (Expr.moveAll (fun _ => 0) args))) :
    Prints (name :: Mark.opening.text :: (ws ++ [Mark.closing.text]))
      (.primary (Expr.call p name args).bare) := by
  obtain ⟨n, ts, hws, h⟩ := h
  exact ⟨_, _, .cons (word_name hname) (.cons (word_mark _)
    (List.rel_append hws (.cons (word_mark _) .nil))), .call hcallable h⟩

lemma conditional {p b} {c a : Expr}
    (h : Prints ws (.arguments (Expr.moveAll (fun _ => 0) (c :: a :: Option.toList b)))) :
    Prints (conditionalName :: Mark.opening.text :: (ws ++ [Mark.closing.text]))
      (.primary (Expr.conditional p c a b).bare) := by
  obtain ⟨n, ts, hws, h⟩ := h
  have hwords := List.Forall₂.cons word_conditional (.cons (word_mark .opening)
    (List.rel_append hws (.cons (word_mark .closing) .nil)))
  cases b with
  | none => exact ⟨_, _, hwords, .conditional (b := none) h⟩
  | some b => exact ⟨_, _, hwords, .conditional (b := some b.bare) h⟩

lemma binary {p left right} {op : BinaryOp} (h : Prints us (op.before.phrase left.bare))
    (h' : Prints vs (op.after.phrase right.bare)) :
    Prints (us ++ op.symbol :: vs) (op.before.phrase (Expr.binary p op left right).bare) := by
  obtain ⟨n, ts, hus, h⟩ := h
  obtain ⟨m, ts', hvs, h'⟩ := h'
  obtain ⟨l, hl, hinner, hop⟩ := op.reads
  have hword : Word op.symbol ⟨l, op.symbol, ⟨0, 0⟩⟩ := ⟨rfl, hl, hinner, rfl⟩
  have hbare : (Expr.binary p op left right).bare =
      .binary ⟨left.bare.span.start, right.bare.span.stop⟩ op left.bare right.bare := by
    rw [Expr.span_bare, Expr.span_bare]
    rfl
  rw [hbare]
  exact ⟨_, _, List.rel_append hus (.cons hword hvs), .binary hop h h'⟩

lemma unary {p operand} {op : UnaryOp} (h : Prints ws (.unary operand.bare)) :
    Prints (op.symbol :: ws) (.unary (Expr.unary p op operand).bare) := by
  obtain ⟨n, ts, hws, h⟩ := h
  obtain ⟨l, hl, hinner, hop⟩ := op.reads
  have hword : Word op.symbol ⟨l, op.symbol, ⟨0, 0⟩⟩ := ⟨rfl, hl, hinner, rfl⟩
  have hbare : (Expr.unary p op operand).bare =
      .unary ⟨0, operand.bare.span.stop⟩ op operand.bare := by
    rw [Expr.span_bare]
    rfl
  rw [hbare]
  exact ⟨_, _, .cons hword hws, .unary hop h⟩

lemma ternary {p c a b} (hc : Prints us (.operand 0 c.bare)) (ha : Prints vs (.ternary a.bare))
    (hb : Prints ws (.ternary b.bare)) :
    Prints (us ++ Mark.question.text :: (vs ++ Mark.colon.text :: ws))
      (.ternary (Expr.ternary p c a b).bare) := by
  obtain ⟨n, ts, hus, hc⟩ := hc
  obtain ⟨m, ts', hvs, ha⟩ := ha
  obtain ⟨k, ts'', hws, hb⟩ := hb
  have hbare : (Expr.ternary p c a b).bare =
      .ternary ⟨c.bare.span.start, b.bare.span.stop⟩ c.bare a.bare b.bare := by
    rw [Expr.span_bare, Expr.span_bare]
    rfl
  rw [hbare]
  exact ⟨_, _, List.rel_append hus (.cons (word_mark _)
    (List.rel_append hvs (.cons (word_mark _) hws))), .ternary hc ha hb⟩

/-- Arguments whose words are read are read with commas between them. -/
lemma arguments {w : Wrapping} {args}
    (h : ∀ e ∈ args, Prints (e.words w) (e.level.phrase e.bare)) :
    Prints (Expr.wordsAll w args) (.arguments (Expr.moveAll (fun _ => 0) args)) := by
  induction args with
  | nil => exact ⟨0, [], .nil, .noArguments⟩
  | cons e args ih =>
    obtain ⟨he, hargs⟩ := List.forall_mem_cons.1 h
    obtain ⟨n, ts, hws, he⟩ := enclose (l := .pipeline) he
    cases args with
    | nil => exact ⟨_, _, hws, .lastArgument he⟩
    | cons arg args =>
      obtain ⟨m, us, hus, hargs⟩ := ih hargs
      exact ⟨_, _, List.rel_append hws (.cons (word_mark _) hus), .argument he hargs⟩

lemma stages {w : Wrapping} {stages : List Stage}
    (hnames : ∀ stage ∈ stages, stage.name.isName ∧ stage.name ≠ conditionalName)
    (hargs : ∀ stage ∈ stages, ∀ e ∈ stage.args, Prints (e.words w) (e.level.phrase e.bare)) :
    Prints (Expr.wordsStages w stages) (.stages (Expr.moveStages (fun _ => 0) stages)) := by
  induction stages with
  | nil => exact ⟨0, [], .nil, .noStages⟩
  | cons stage rest ih =>
    obtain ⟨⟨hname, hne⟩, hnames⟩ := List.forall_mem_cons.1 hnames
    obtain ⟨hstage, hargs⟩ := List.forall_mem_cons.1 hargs
    obtain ⟨m, us, hus, hrest⟩ := ih hnames hargs
    obtain ⟨p, name, args⟩ := stage
    cases args with
    | nil => exact ⟨_, _, .cons word_bar (.cons (word_name hname) hus), .bareStage hne hrest⟩
    | cons arg args =>
      obtain ⟨n, ts, hws, hstage⟩ := arguments hstage
      exact ⟨_, _, .cons word_bar (.cons (word_name hname) (.cons (word_mark _)
        (List.rel_append hws (.cons (word_mark _) hus)))), .stage hne hstage hrest⟩

lemma pipeline {p input} {stages : List Stage} (hne : stages ≠ [])
    (h : Prints us (.ternary input.bare))
    (h' : Prints vs (.stages (Expr.moveStages (fun _ => 0) stages))) :
    Prints (us ++ vs) (.pipeline (Expr.pipeline p input stages).bare) := by
  obtain ⟨n, ts, hus, h⟩ := h
  obtain ⟨m, ts', hvs, h'⟩ := h'
  rw [Expr.bare_pipeline hne]
  exact ⟨_, _, List.rel_append hus hvs, .pipeline h h'⟩

end Prints

namespace Expr

/-- The words of an expression derive it at its own level. -/
theorem Printable.prints {w : Wrapping} {e} (h : Printable e) :
    Prints (e.words w) (e.level.phrase e.bare) := by
  induction h with
  | literal hreads hl =>
    exact ⟨_, _, .cons (word_literal hreads hl) .nil, .literal hl⟩
  | access hreads => exact ⟨_, _, .cons (word_reference hreads) .nil, .access⟩
  | call hname hcallable _ ih => exact Prints.call hname hcallable (Prints.arguments ih)
  | pipeline hne _ hnames _ ih ihs =>
    exact Prints.pipeline hne (Prints.enclose (l := .ternary) ih) (Prints.stages hnames ihs)
  | binary _ _ ih ih' => exact Prints.binary ih.enclose ih'.enclose
  | unary _ ih => exact Prints.unary (Prints.enclose (l := .unary) ih)
  | ternary _ _ _ ihc iha ihb =>
    exact Prints.ternary (Prints.enclose (l := .operand 0) ihc) (Prints.enclose (l := .ternary) iha)
      (Prints.enclose (l := .ternary) ihb)
  | @conditional p c a b _ _ _ ihc iha ihb =>
    have hargs : ∀ e ∈ c :: a :: b.toList, Prints (e.words w) (e.level.phrase e.bare) :=
      List.forall_mem_cons.2 ⟨ihc, List.forall_mem_cons.2 ⟨iha, by simpa using ihb⟩⟩
    have hwords : (Expr.conditional p c a b).words w = conditionalName :: Mark.opening.text ::
        (wordsAll w (c :: a :: b.toList) ++ [Mark.closing.text]) := by
      cases b <;> simp [words, wordsAll]
    rw [hwords]
    exact Prints.conditional (Prints.arguments hargs)

/-- In any wrapping a printed expression is read as the expression. -/
lemma Printable.parse {w : Wrapping} {e} (h : Printable e) :
    ∃ e', Expr.parse (e.print w) none = .ok e' ∧ e'.bare = e.bare := by
  have hprints : Prints (w.enclose .pipeline e (e.words w)) (.pipeline e.bare) :=
    Prints.enclose (l := .pipeline) h.prints
  obtain ⟨n, ts, hws, hts⟩ := hprints
  obtain ⟨us, hus, hmove⟩ := Word.spelled hws
  -- the tokens in the text differ from the words in their spans only
  obtain ⟨e', he', heq⟩ := hts.of_move hmove
  exact ⟨e', parse_spelled_iff.2 ⟨us, n, hus, he', within_none⟩, heq⟩

/-- To print an expression and to read it again is the identity up to spans, with parentheses where
they are needed as well as with parentheses everywhere. -/
theorem parse_print {e} (h : Printable e) :
    (∃ e', Expr.parse (e.print .needed) none = .ok e' ∧ e'.bare = e.bare) ∧
      ∃ e', Expr.parse (e.print .every) none = .ok e' ∧ e'.bare = e.bare :=
  ⟨h.parse, h.parse⟩

theorem parse_print_product :
    ∃ e : Expr, e.Printable ∧ e.print .needed = "( 1 + $input.a ) * ( true | f )" ∧
      e.print .every = "( ( 1 + $input.a ) * ( true | f ) )" ∧
      (∃ e', Expr.parse "( 1 + $input.a ) * ( true | f )" none = .ok e' ∧ e'.bare = e.bare) ∧
      ∃ e', Expr.parse "( ( 1 + $input.a ) * ( true | f ) )" none = .ok e' ∧ e'.bare = e.bare := by
  have hone : Printable (.literal ⟨0, 0⟩ (.integer ⟨1, by decide⟩) "1") :=
    .literal (l := .number "1") ⟨_, _, rfl, rfl⟩ rfl
  have hinput : Printable (.access ⟨0, 0⟩ .input "a") :=
    .access (w := "$input.a") ⟨_, _, rfl, rfl⟩
  have htrue : Printable (.literal ⟨0, 0⟩ (.bool true) "true") :=
    .literal (l := .name "true") ⟨_, _, rfl, rfl⟩ rfl
  have hpipeline : Printable (.pipeline ⟨0, 0⟩ (.literal ⟨0, 0⟩ (.bool true) "true")
      [.mk ⟨0, 0⟩ "f" []]) :=
    .pipeline (List.cons_ne_nil _ _) htrue (by decide) (by simp [Stage.args])
  have h : Printable (.binary ⟨0, 0⟩ .multiply
      (.binary ⟨0, 0⟩ .add (.literal ⟨0, 0⟩ (.integer ⟨1, by decide⟩) "1")
        (.access ⟨0, 0⟩ .input "a"))
      (.pipeline ⟨0, 0⟩ (.literal ⟨0, 0⟩ (.bool true) "true") [.mk ⟨0, 0⟩ "f" []])) :=
    .binary (.binary hone hinput) hpipeline
  exact ⟨_, h, by rfl, by rfl, parse_print h⟩

end Expr

end Stencil
