import Stencil.Proofs.Expr.Nodes
import Stencil.Proofs.Grammar.Basic
import Stencil.Template.Element

/-!
# Moving tokens and trees

A map of offsets acts on spans, tokens, trees and elements. Main statements: derivations are moved along
(`Derives.move`), and a derivation of moved tokens comes from one of the tokens themselves
(`Derives.of_move`). So the grammar does not look at spans.
-/

namespace Stencil

/-- The span with both ends moved. -/
def Span.move (f : Nat → Nat) (p : Span) : Span := ⟨f p.start, f p.stop⟩

/-- The token with its span moved. -/
def Token.move (f : Nat → Nat) (t : Token) : Token := { t with span := t.span.move f }

mutual
/-- The expression with all spans moved. -/
def Expr.move (f : Nat → Nat) : Expr → Expr
  | .literal p value raw => .literal (p.move f) value raw
  | .access p source path => .access (p.move f) source path
  | .call p name args => .call (p.move f) name (moveAll f args)
  | .pipeline p input stages => .pipeline (p.move f) (input.move f) (moveStages f stages)
  | .binary p op left right => .binary (p.move f) op (left.move f) (right.move f)
  | .unary p op operand => .unary (p.move f) op (operand.move f)
  | .ternary p c a b => .ternary (p.move f) (c.move f) (a.move f) (b.move f)
  | .conditional p c a none => .conditional (p.move f) (c.move f) (a.move f) none
  | .conditional p c a (some b) => .conditional (p.move f) (c.move f) (a.move f) (some (b.move f))
/-- The expressions with all spans moved. -/
def Expr.moveAll (f : Nat → Nat) : List Expr → List Expr
  | [] => []
  | e :: rest => e.move f :: moveAll f rest
/-- The stages with all spans moved. -/
def Expr.moveStages (f : Nat → Nat) : List Stage → List Stage
  | [] => []
  | .mk p name args :: rest => .mk (p.move f) name (moveAll f args) :: moveStages f rest
end

/-- The expression moved `n` units to the right. -/
def Expr.shift (n : Nat) : Expr → Expr := Expr.move (· + n)

/-- The expression without its spans. -/
def Expr.bare : Expr → Expr := Expr.move fun _ => 0

namespace Expr

variable {f : Nat → Nat}

lemma moveAll_eq (es : List Expr) : moveAll f es = es.map (move f) := by
  induction es with
  | nil => rfl
  | cons e rest ih => rw [moveAll, ih, List.map_cons]

lemma moveStages_eq (stages : List Stage) :
    moveStages f stages =
      stages.map fun s => .mk (s.span.move f) s.name (s.args.map (move f)) := by
  induction stages with
  | nil => rfl
  | cons s rest ih =>
    obtain ⟨p, name, args⟩ := s
    rw [moveStages, ih, moveAll_eq, List.map_cons]
    rfl

/-- Two moves make one. -/
lemma move_move (g : Nat → Nat) (e : Expr) : (e.move f).move g = e.move (g ∘ f) := by
  induction e using induct_children with
  | step e ih =>
    cases e with
    | literal => rfl
    | access => rfl
    | call p name args =>
      have hargs : (args.map (move f)).map (move g) = args.map (move (g ∘ f)) := by
        rw [List.map_map]
        exact List.map_congr_left ih
      simp only [move, moveAll_eq, hargs]
      rfl
    | pipeline p input stages =>
      obtain ⟨hinput, hargs⟩ := List.forall_mem_cons.1 ih
      have hstages : moveStages g (moveStages f stages) = moveStages (g ∘ f) stages := by
        simp only [moveStages_eq, List.map_map]
        refine List.map_congr_left fun s hs => ?_
        have hs' : (s.args.map (move f)).map (move g) = s.args.map (move (g ∘ f)) := by
          rw [List.map_map]
          exact List.map_congr_left fun e he => hargs e (List.mem_flatMap.2 ⟨s, hs, he⟩)
        exact congrArg (Stage.mk _ _) hs'
      simp only [move, hinput, hstages]
      rfl
    | binary p op left right =>
      simp only [move, ih left (by simp [children]), ih right (by simp [children])]
      rfl
    | unary p op operand =>
      simp only [move, ih operand (by simp [children])]
      rfl
    | ternary p c a b =>
      simp only [move, ih c (by simp [children]), ih a (by simp [children]),
        ih b (by simp [children])]
      rfl
    | conditional p c a b =>
      cases b with
      | none =>
        simp only [move, ih c (by simp [children]), ih a (by simp [children])]
        rfl
      | some b =>
        simp only [move, ih c (by simp [children]), ih a (by simp [children]),
          ih b (by simp [children])]
        rfl

/-- Without its spans a moved expression is the same. -/
lemma bare_move (e : Expr) : (e.move f).bare = e.bare := move_move _ e

lemma span_move {e : Expr} : (e.move f).span = e.span.move f := by
  cases e with
  | conditional _ _ _ b => cases b <;> simp only [move, span]
  | _ => simp only [move, span]

lemma getLast?_moveStages (stages : List Stage) :
    (moveStages f stages).getLast?.map Stage.span =
      stages.getLast?.map fun s => s.span.move f := by
  induction stages with
  | nil => simp only [moveStages, List.getLast?_nil, Option.map_none]
  | cons s rest ih =>
    obtain ⟨p, name, args⟩ := s
    cases rest with
    | nil => simp [moveStages, Stage.span]
    | cons s' rest =>
      obtain ⟨p', name', args'⟩ := s'
      simp only [moveStages, List.getLast?_cons_cons] at ih ⊢
      exact ih

lemma move_piped {input : Expr} {stages : List Stage} :
    (input.piped stages).move f = (input.move f).piped (moveStages f stages) := by
  have hlast := getLast?_moveStages (f := f) stages
  unfold piped
  cases hs : stages.getLast? with
  | none =>
    rw [hs] at hlast
    rw [Option.map_eq_none_iff.1 hlast]
  | some last =>
    rw [hs] at hlast
    obtain ⟨last', hs', hspan⟩ := Option.map_eq_some_iff.1 hlast
    rw [hs']
    simp only [move, span_move, hspan]
    rfl

end Expr

namespace Element

/-- The element with all spans moved. -/
def move (f : Nat → Nat) : Element → Element
  | .text value => .text value
  | .expression source expr span => .expression source (expr.move f) (span.move f)

/-- The element moved `n` units to the right. -/
def shift (n : Nat) : Element → Element := move (· + n)

/-- The element without its spans. -/
def bare : Element → Element := move fun _ => 0

end Element

/-- The phrase with all spans moved. -/
def Phrase.move (f : Nat → Nat) : Phrase → Phrase
  | .pipeline e => .pipeline (e.move f)
  | .ternary e => .ternary (e.move f)
  | .operand level e => .operand level (e.move f)
  | .unary e => .unary (e.move f)
  | .primary e => .primary (e.move f)
  | .arguments args => .arguments (Expr.moveAll f args)
  | .stages rest => .stages (Expr.moveStages f rest)

variable {f : Nat → Nat}

/-- Moved tokens derive the moved phrase. -/
theorem Derives.move {n ts p} (h : Derives n ts p) :
    Derives n (ts.map (Token.move f)) (p.move f) := by
  induction h with
  | @literal t v hv => exact .literal (t := t.move f) hv
  | access => exact .access
  | group _ ih =>
    simp only [List.map_cons, List.map_append, List.map_nil]
    exact .group ih
  | call hname _ ih =>
    simp only [List.map_cons, List.map_append, List.map_nil, Phrase.move, Expr.move]
    exact .call hname ih
  | @conditional n ts c a b r p r₁ p₁ r₂ p₂ _ ih =>
    simp only [List.map_cons, List.map_append, List.map_nil]
    cases b with
    | none => exact .conditional (b := none) ih
    | some b => exact .conditional (b := some (b.move f)) ih
  | noArguments => exact .noArguments
  | lastArgument _ ih => exact .lastArgument ih
  | argument _ _ ih ih' =>
    rw [List.map_append, List.map_cons]
    exact .argument ih ih'
  | atom _ ih => exact .atom ih
  | @unary n t ts op e hop _ ih =>
    have hmove := Derives.unary (t := t.move f) hop ih
    rw [Expr.span_move] at hmove
    exact hmove
  | factor _ ih => exact .factor ih
  | tighter hlt _ ih => exact .tighter hlt ih
  | @binary n m t ts us op left right hop _ _ ih ih' =>
    have hmove := Derives.binary (t := t.move f) hop ih ih'
    rw [Expr.span_move, Expr.span_move] at hmove
    rw [List.map_append, List.map_cons]
    exact hmove
  | choice _ ih => exact .choice ih
  | @ternary n m k ts us vs c a b r₁ p₁ r₂ p₂ _ _ _ ih ih' ih'' =>
    have hmove : Phrase.move f (.ternary (.ternary ⟨c.span.start, b.span.stop⟩ c a b)) =
        .ternary (.ternary ⟨(c.move f).span.start, (b.move f).span.stop⟩ (c.move f) (a.move f)
          (b.move f)) := by
      rw [Expr.span_move, Expr.span_move]
      rfl
    simp only [List.map_cons, List.map_append, hmove]
    exact .ternary ih ih' ih''
  | noStages => exact .noStages
  | bareStage hname _ ih => exact .bareStage hname ih
  | stage hname _ _ ih ih' =>
    simp only [List.map_cons, List.map_append]
    exact .stage hname ih ih'
  | pipeline _ _ ih ih' =>
    rw [List.map_append, Phrase.move, Expr.move_piped]
    exact .pipeline ih ih'

/-- A token that is moved to another one has its lexeme and its text. -/
lemma map_move_cons {ts us l r p} (h : ts.map (Token.move f) = ⟨l, r, p⟩ :: us) :
    ∃ p' ts', ts = ⟨l, r, p'⟩ :: ts' ∧ p'.move f = p ∧ ts'.map (Token.move f) = us := by
  obtain ⟨⟨l', r', p'⟩, ts', rfl, ht, hts⟩ := List.map_eq_cons_iff.1 h
  cases ht
  exact ⟨p', ts', rfl, rfl, hts⟩

/-- The tokens derive a phrase of the same form that is moved to the given one. -/
def Lifts (f : Nat → Nat) (n : Nat) (ts : List Token) : Phrase → Prop
  | .pipeline e => ∃ e', Derives n ts (.pipeline e') ∧ e'.move f = e
  | .ternary e => ∃ e', Derives n ts (.ternary e') ∧ e'.move f = e
  | .operand level e => ∃ e', Derives n ts (.operand level e') ∧ e'.move f = e
  | .unary e => ∃ e', Derives n ts (.unary e') ∧ e'.move f = e
  | .primary e => ∃ e', Derives n ts (.primary e') ∧ e'.move f = e
  | .arguments args => ∃ args', Derives n ts (.arguments args') ∧ Expr.moveAll f args' = args
  | .stages rest => ∃ rest', Derives n ts (.stages rest') ∧ Expr.moveStages f rest' = rest

/-- What moved tokens derive comes from what the tokens derive. -/
theorem Derives.of_move {n us p} (h : Derives n us p) {ts} (hts : ts.map (Token.move f) = us) :
    Lifts f n ts p := by
  induction h generalizing ts with
  | @literal t v hv =>
    obtain ⟨p', ts', rfl, hp, hnil⟩ := map_move_cons (l := t.lexeme) hts
    obtain rfl := List.map_eq_nil_iff.1 hnil
    refine ⟨_, .literal hv, ?_⟩
    rw [← hp]
    rfl
  | access =>
    obtain ⟨p', ts', rfl, rfl, hnil⟩ := map_move_cons hts
    obtain rfl := List.map_eq_nil_iff.1 hnil
    exact ⟨_, .access, rfl⟩
  | group _ ih =>
    obtain ⟨p', ts', rfl, rfl, hts'⟩ := map_move_cons hts
    obtain ⟨us, vs, rfl, hus, hvs⟩ := List.map_eq_append_iff.1 hts'
    obtain ⟨p'', ws, rfl, rfl, hnil⟩ := map_move_cons hvs
    obtain rfl := List.map_eq_nil_iff.1 hnil
    obtain ⟨e, he, rfl⟩ := ih hus
    exact ⟨e, .group he, rfl⟩
  | call hname _ ih =>
    obtain ⟨p', ts', rfl, rfl, hts'⟩ := map_move_cons hts
    obtain ⟨p'', ts'', rfl, rfl, hts''⟩ := map_move_cons hts'
    obtain ⟨us, vs, rfl, hus, hvs⟩ := List.map_eq_append_iff.1 hts''
    obtain ⟨p₃, ws, rfl, rfl, hnil⟩ := map_move_cons hvs
    obtain rfl := List.map_eq_nil_iff.1 hnil
    obtain ⟨args, hargs, rfl⟩ := ih hus
    exact ⟨_, .call hname hargs, rfl⟩
  | @conditional n ts c a b r p r₁ p₁ r₂ p₂ _ ih =>
    obtain ⟨p', ts', rfl, rfl, hts'⟩ := map_move_cons hts
    obtain ⟨p'', ts'', rfl, rfl, hts''⟩ := map_move_cons hts'
    obtain ⟨us, vs, rfl, hus, hvs⟩ := List.map_eq_append_iff.1 hts''
    obtain ⟨p₃, ws, rfl, rfl, hnil⟩ := map_move_cons hvs
    obtain rfl := List.map_eq_nil_iff.1 hnil
    obtain ⟨args, hargs, heq⟩ := ih hus
    match args, b, heq with
    | [c', a'], none, heq =>
      cases heq
      exact ⟨_, .conditional (b := none) hargs, rfl⟩
    | [c', a', b'], some b, heq =>
      cases heq
      exact ⟨_, .conditional (b := some b') hargs, rfl⟩
  | noArguments =>
    obtain rfl := List.map_eq_nil_iff.1 hts
    exact ⟨[], .noArguments, rfl⟩
  | lastArgument _ ih =>
    obtain ⟨e, he, rfl⟩ := ih hts
    exact ⟨[e], .lastArgument he, rfl⟩
  | argument _ _ ih ih' =>
    obtain ⟨us, vs, rfl, hus, hvs⟩ := List.map_eq_append_iff.1 hts
    obtain ⟨p', ws, rfl, rfl, hws⟩ := map_move_cons hvs
    obtain ⟨e, he, rfl⟩ := ih hus
    obtain ⟨args, hargs, heq⟩ := ih' hws
    cases args with
    | nil => cases heq
    | cons arg args =>
      cases heq
      exact ⟨e :: arg :: args, .argument he hargs, rfl⟩
  | atom _ ih =>
    obtain ⟨e, he, rfl⟩ := ih hts
    exact ⟨e, .atom he, rfl⟩
  | @unary n t ts op e hop _ ih =>
    obtain ⟨p', ts', rfl, hp, hts'⟩ := map_move_cons (l := t.lexeme) hts
    obtain ⟨e, he, rfl⟩ := ih hts'
    refine ⟨_, .unary hop he, ?_⟩
    rw [Expr.span_move, ← hp]
    rfl
  | factor _ ih =>
    obtain ⟨e, he, rfl⟩ := ih hts
    exact ⟨e, .factor he, rfl⟩
  | tighter hlt _ ih =>
    obtain ⟨e, he, rfl⟩ := ih hts
    exact ⟨e, .tighter hlt he, rfl⟩
  -- the spans of a tree are those of its tokens, so they are recovered part by part
  | @binary n m t ts us op left right hop _ _ ih ih' =>
    obtain ⟨us, vs, rfl, hus, hvs⟩ := List.map_eq_append_iff.1 hts
    obtain ⟨p', ws, rfl, -, hws⟩ := map_move_cons (l := t.lexeme) hvs
    obtain ⟨left, hleft, rfl⟩ := ih hus
    obtain ⟨right, hright, rfl⟩ := ih' hws
    refine ⟨_, .binary hop hleft hright, ?_⟩
    rw [Expr.span_move, Expr.span_move]
    rfl
  | choice _ ih =>
    obtain ⟨e, he, rfl⟩ := ih hts
    exact ⟨e, .choice he, rfl⟩
  | ternary _ _ _ ih ih' ih'' =>
    obtain ⟨us, vs, rfl, hus, hvs⟩ := List.map_eq_append_iff.1 hts
    obtain ⟨p', ws, rfl, rfl, hws⟩ := map_move_cons hvs
    obtain ⟨xs, ys, rfl, hxs, hys⟩ := List.map_eq_append_iff.1 hws
    obtain ⟨p'', zs, rfl, rfl, hzs⟩ := map_move_cons hys
    obtain ⟨c, hc, rfl⟩ := ih hus
    obtain ⟨a, ha, rfl⟩ := ih' hxs
    obtain ⟨b, hb, rfl⟩ := ih'' hzs
    refine ⟨_, .ternary hc ha hb, ?_⟩
    rw [Expr.span_move, Expr.span_move]
    rfl
  | noStages =>
    obtain rfl := List.map_eq_nil_iff.1 hts
    exact ⟨[], .noStages, rfl⟩
  | bareStage hname _ ih =>
    obtain ⟨p', ts', rfl, rfl, hts'⟩ := map_move_cons hts
    obtain ⟨p'', ts'', rfl, rfl, hts''⟩ := map_move_cons hts'
    obtain ⟨rest, hrest, rfl⟩ := ih hts''
    exact ⟨_, .bareStage hname hrest, rfl⟩
  | stage hname _ _ ih ih' =>
    obtain ⟨p', ts', rfl, rfl, hts'⟩ := map_move_cons hts
    obtain ⟨p'', ts'', rfl, rfl, hts''⟩ := map_move_cons hts'
    obtain ⟨p₃, ts₃, rfl, rfl, hts₃⟩ := map_move_cons hts''
    obtain ⟨us, vs, rfl, hus, hvs⟩ := List.map_eq_append_iff.1 hts₃
    obtain ⟨p₄, ws, rfl, rfl, hws⟩ := map_move_cons hvs
    obtain ⟨args, hargs, rfl⟩ := ih hus
    obtain ⟨rest, hrest, rfl⟩ := ih' hws
    exact ⟨_, .stage hname hargs hrest, rfl⟩
  | pipeline _ _ ih ih' =>
    obtain ⟨us, vs, rfl, hus, hvs⟩ := List.map_eq_append_iff.1 hts
    obtain ⟨input, hinput, rfl⟩ := ih hus
    obtain ⟨rest, hrest, rfl⟩ := ih' hvs
    exact ⟨_, .pipeline hinput hrest, Expr.move_piped⟩

end Stencil
