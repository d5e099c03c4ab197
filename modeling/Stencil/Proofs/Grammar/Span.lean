import Stencil.Proofs.Expr.Nodes
import Stencil.Proofs.Grammar.Basic
import Stencil.Proofs.Token.Run

/-!
# Where trees stand

The tokens of a text stand one after the other, and so do the parts of every node that is derived
from them. Main statements: `Spelled.ordered`, `Derives.fits`, and `Expr.Nests.inside_of_mem`: all nodes
of a tree stand inside of it.
-/

namespace Stencil

namespace Span

/-- The part has units, and all of them belong to the other one. -/
structure Inside (p q : Span) : Prop where
  start_le : q.start ≤ p.start
  start_lt_stop : p.start < p.stop
  stop_le : p.stop ≤ q.stop

lemma Inside.trans {p q r : Span} (h : p.Inside q) (h' : q.Inside r) : p.Inside r :=
  ⟨h'.start_le.trans h.start_le, h.start_lt_stop, h.stop_le.trans h'.stop_le⟩

/-- The part ends where the other one begins, or before. -/
def Before (p q : Span) : Prop := p.stop ≤ q.start

/-- The parts stand one after the other between two offsets, and none of them is empty. -/
def Ordered : Nat → List Span → Nat → Prop
  | lo, [], hi => lo ≤ hi
  | lo, p :: ps, hi => lo ≤ p.start ∧ p.start < p.stop ∧ Ordered p.stop ps hi

namespace Ordered

variable {lo mid hi : Nat} {p : Span} {ps qs : List Span}

lemma le (h : Ordered lo ps hi) : lo ≤ hi := by
  induction ps generalizing lo with
  | nil => exact h
  | cons p ps ih =>
    obtain ⟨hlo, hp, hps⟩ := h
    have := ih hps
    omega

lemma mono {lo' hi' : Nat} (h : Ordered lo ps hi) (hlo : lo' ≤ lo) (hhi : hi ≤ hi') :
    Ordered lo' ps hi' := by
  induction ps generalizing lo lo' with
  | nil => exact (hlo.trans h).trans hhi
  | cons p ps ih =>
    obtain ⟨hlo', hp, hps⟩ := h
    exact ⟨hlo.trans hlo', hp, ih hps le_rfl⟩

lemma append (h : Ordered lo ps mid) (h' : Ordered mid qs hi) : Ordered lo (ps ++ qs) hi := by
  induction ps generalizing lo with
  | nil => exact h'.mono h le_rfl
  | cons p ps ih =>
    obtain ⟨hlo, hp, hps⟩ := h
    exact ⟨hlo, hp, ih hps⟩

/-- Parts in a row split where the list of them does. -/
lemma split (h : Ordered lo (ps ++ qs) hi) : ∃ mid, Ordered lo ps mid ∧ Ordered mid qs hi := by
  induction ps generalizing lo with
  | nil => exact ⟨lo, le_rfl, h⟩
  | cons p ps ih =>
    obtain ⟨hlo, hp, hps⟩ := h
    obtain ⟨mid, hps, hqs⟩ := ih hps
    exact ⟨mid, ⟨hlo, hp, hps⟩, hqs⟩

/-- What stands on either side of a part of a row is two rows. -/
lemma separated (h : Ordered lo (ps ++ p :: qs) hi) :
    ∃ mid, Ordered lo ps mid ∧ Ordered mid qs hi := by
  obtain ⟨mid, hps, hmid, hp, hqs⟩ := h.split
  exact ⟨mid, hps, hqs.mono (hmid.trans hp.le) le_rfl⟩

lemma inside (h : Ordered lo ps hi) (hp : p ∈ ps) : p.Inside ⟨lo, hi⟩ := by
  induction ps generalizing lo with
  | nil => cases hp
  | cons q ps ih =>
    obtain ⟨hlo, hq, hps⟩ := h
    cases hp with
    | head => exact ⟨hlo, hq, hps.le⟩
    | tail _ hp =>
      obtain ⟨hstart, hp, hstop⟩ := ih hps hp
      exact ⟨by dsimp only at hstart ⊢; omega, hp, hstop⟩

lemma pairwise (h : Ordered lo ps hi) : ps.Pairwise Before := by
  induction ps generalizing lo with
  | nil => exact .nil
  | cons p ps ih =>
    obtain ⟨-, -, hps⟩ := h
    exact .cons (fun q hq => (hps.inside hq).start_le) (ih hps)

/-- Parts in a row stand in what begins with the first and ends with the last of them. -/
lemma enclosed {q : Span} (h : Ordered lo (p :: ps) hi) (hq : (p :: ps).getLast? = some q) :
    (Span.mk p.start q.stop).Inside ⟨lo, hi⟩ ∧ Ordered p.start (p :: ps) q.stop := by
  induction ps generalizing lo p with
  | nil =>
    cases hq
    obtain ⟨hlo, hp, hhi⟩ := h
    exact ⟨⟨hlo, hp, hhi⟩, le_rfl, hp, le_rfl⟩
  | cons r ps ih =>
    obtain ⟨hlo, hp, hps⟩ := h
    rw [List.getLast?_cons_cons] at hq
    obtain ⟨⟨hr, hlt, hhi⟩, hrow⟩ := ih hps hq
    dsimp only at hr hlt hhi
    exact ⟨⟨hlo, by dsimp only; omega, hhi⟩, le_rfl, hp, hrow.mono hr le_rfl⟩

/-- A name and what stands in parentheses after it are one part, which holds the latter. -/
lemma call {p' q : Span} (h : Ordered lo (p :: p' :: (ps ++ q :: qs)) hi) :
    Ordered lo (⟨p.start, q.stop⟩ :: qs) hi ∧ Ordered p.start ps q.stop := by
  obtain ⟨hlo, hp, hopen, hp', hrest⟩ := h
  obtain ⟨mid, hps, hclose, hq, hqs⟩ := hrest.split
  have hle := hps.le
  exact ⟨⟨hlo, by dsimp only; omega, hqs⟩, hps.mono (by omega) (by omega)⟩

/-- What stands in a row inside of parts in a row stands in a row. -/
lemma flatMap {α : Type} {f : α → Span} {g : α → List Span} {xs : List α}
    (h : Ordered lo (xs.map f) hi) (hg : ∀ x ∈ xs, Ordered (f x).start (g x) (f x).stop) :
    Ordered lo (xs.flatMap g) hi := by
  induction xs generalizing lo with
  | nil => exact h
  | cons x xs ih =>
    obtain ⟨hx, hxs⟩ := List.forall_mem_cons.1 hg
    obtain ⟨hlo, -, hrest⟩ := h
    exact (hx.mono hlo le_rfl).append (ih hrest hxs)

end Ordered

end Span

/-- The tokens of a text stand one after the other in it. -/
theorem Spelled.ordered {o t ts} (h : Spelled o t ts) :
    Span.Ordered o (ts.map Token.span) (o + t.length) := by
  induction h with
  | blank => exact Nat.le_add_right ..
  | @token o gap u w l rest ts _ _ _ _ ih =>
    have hlen : o + gap.length + (w.length + 1) + rest.length =
        o + (gap ++ u :: (w ++ rest)).length := by
      simp only [List.length_append, List.length_cons]
      omega
    rw [← hlen]
    exact ⟨Nat.le_add_right .., Nat.lt_add_of_pos_right (Nat.succ_pos _), ih⟩

/-- The part of the source that the stage was read from holds those of its arguments. -/
def Stage.Nests (stage : Stage) : Prop := ∀ arg ∈ stage.args, arg.span.Inside stage.span

namespace Expr

/-- The expression has units in the source, and its parts stand in it one after the other. So do the
stages of a pipeline after its input, and they hold their arguments. -/
structure Nests (x : Expr) : Prop where
  start_lt_stop : x.span.start < x.span.stop
  inside : ∀ c ∈ x.children, c.span.Inside x.span
  before : x.children.Pairwise fun c d => c.span.Before d.span
  stages {p : Span} {input : Expr} {stages : List Stage} : x = .pipeline p input stages →
    (∀ stage ∈ stages, stage.span.Inside ⟨input.span.stop, p.stop⟩ ∧ stage.Nests) ∧
      stages.Pairwise fun s t => s.span.Before t.span

/-- If all nodes of an expression nest, they stand inside of it. -/
lemma Nests.inside_of_mem {e x : Expr} (h : ∀ y ∈ e.nodes, y.Nests) (hx : x ∈ e.nodes) :
    x.span.Inside e.span := by
  induction e using induct_children with
  | step e ih =>
    have hself := h e e.self_mem_nodes
    obtain rfl | ⟨c, hc, hx⟩ := mem_nodes.1 hx
    · exact ⟨le_rfl, hself.start_lt_stop, le_rfl⟩
    · exact (ih c hc (fun y hy => h y (mem_nodes_of_child hc hy)) hx).trans (hself.inside c hc)

/-- The expressions stand one after the other between two offsets, and all their nodes nest. -/
structure Fit (lo : Nat) (es : List Expr) (hi : Nat) : Prop where
  ordered : Span.Ordered lo (es.map span) hi
  nests : ∀ e ∈ es, ∀ x ∈ e.nodes, x.Nests

/-- The stages stand one after the other between two offsets, and the arguments of each fit into
it. -/
structure StagesFit (lo : Nat) (stages : List Stage) (hi : Nat) : Prop where
  ordered : Span.Ordered lo (stages.map Stage.span) hi
  args : ∀ stage ∈ stages, Fit stage.span.start stage.args stage.span.stop

namespace Fit

variable {lo mid hi : Nat} {e : Expr} {es es' : List Expr}

lemma nil (h : lo ≤ hi) : Fit lo [] hi := ⟨h, nofun⟩

lemma mono {lo' hi' : Nat} (h : Fit lo es hi) (hlo : lo' ≤ lo) (hhi : hi ≤ hi') :
    Fit lo' es hi' := ⟨h.ordered.mono hlo hhi, h.nests⟩

lemma append (h : Fit lo es mid) (h' : Fit mid es' hi) : Fit lo (es ++ es') hi := by
  refine ⟨?_, List.forall_mem_append.2 ⟨h.nests, h'.nests⟩⟩
  rw [List.map_append]
  exact h.ordered.append h'.ordered

lemma inside (h : Fit lo [e] hi) : e.span.Inside ⟨lo, hi⟩ :=
  h.ordered.inside (List.mem_singleton.2 rfl)

/-- An expression that fits anywhere fits into its own part of the source. -/
lemma self (h : Fit lo [e] hi) : Fit e.span.start [e] e.span.stop :=
  ⟨⟨le_rfl, h.inside.start_lt_stop, le_rfl⟩, h.nests⟩

/-- An expression fits where its part of the source does, if its parts fit into that. -/
lemma node (hspan : e.span.Inside ⟨lo, hi⟩) (h : Fit e.span.start e.children e.span.stop)
    (hstages : ∀ {p input stages}, e = .pipeline p input stages →
      StagesFit input.span.stop stages p.stop) : Fit lo [e] hi := by
  have hself : e.Nests := by
    refine ⟨hspan.start_lt_stop, ?_, List.pairwise_map.1 h.ordered.pairwise, ?_⟩
    · intro c hc
      exact h.ordered.inside (List.mem_map_of_mem hc)
    · intro p input stages he
      have hfit := hstages he
      refine ⟨?_, List.pairwise_map.1 hfit.ordered.pairwise⟩
      intro stage hstage
      refine ⟨hfit.ordered.inside (List.mem_map_of_mem hstage), ?_⟩
      intro arg harg
      exact (hfit.args stage hstage).ordered.inside (List.mem_map_of_mem harg)
  refine ⟨⟨hspan.start_le, hspan.start_lt_stop, hspan.stop_le⟩, ?_⟩
  intro e' he' x hx
  obtain rfl := List.mem_singleton.1 he'
  obtain rfl | ⟨c, hc, hx⟩ := mem_nodes.1 hx
  · exact hself
  · exact h.nests c hc x hx

end Fit

namespace StagesFit

variable {lo hi : Nat} {stages : List Stage}

/-- The arguments of stages that fit stand one after the other. -/
lemma flatMap (h : StagesFit lo stages hi) : Fit lo (stages.flatMap Stage.args) hi := by
  constructor
  · rw [List.map_flatMap]
    exact h.ordered.flatMap fun stage hstage => (h.args stage hstage).ordered
  · intro e he
    obtain ⟨stage, hstage, he⟩ := List.mem_flatMap.1 he
    exact (h.args stage hstage).nests e he

lemma cons {stage : Stage} (hlo : lo ≤ stage.span.start)
    (hlt : stage.span.start < stage.span.stop)
    (hargs : Fit stage.span.start stage.args stage.span.stop)
    (h : StagesFit stage.span.stop stages hi) : StagesFit lo (stage :: stages) hi :=
  ⟨⟨hlo, hlt, h.ordered⟩, List.forall_mem_cons.2 ⟨hargs, h.args⟩⟩

end StagesFit

/-- A pipeline fits where its input and then its stages do. -/
lemma Fit.piped {lo mid hi : Nat} {input : Expr} {stages : List Stage}
    (h : Fit lo [input] mid) (hstages : StagesFit mid stages hi) :
    Fit lo [input.piped stages] hi := by
  unfold Expr.piped
  cases hl : stages.getLast? with
  | none => exact h.mono le_rfl hstages.ordered.le
  | some last =>
    have hrow : Span.Ordered lo (input.span :: stages.map Stage.span) hi :=
      h.ordered.append hstages.ordered
    have hlast : (input.span :: stages.map Stage.span).getLast? = some last.span := by
      rw [List.getLast?_cons, List.getLast?_map, hl]
      rfl
    obtain ⟨hspan, -, hinput, hafter⟩ := hrow.enclosed hlast
    have hfit : StagesFit input.span.stop stages last.span.stop := ⟨hafter, hstages.args⟩
    refine node hspan (h.self.append hfit.flatMap) ?_
    rintro p input stages ⟨⟩
    exact hfit

end Expr

/-- The tree of the phrase stands between two offsets, and all its nodes nest. -/
def Phrase.Fits (lo hi : Nat) : Phrase → Prop
  | .pipeline e | .ternary e | .operand _ e | .unary e | .primary e => Expr.Fit lo [e] hi
  | .arguments args => Expr.Fit lo args hi
  | .stages list => Expr.StagesFit lo list hi

/-- What tokens in a row derive stands where they do, and all its nodes nest. -/
theorem Derives.fits {n ts p} (h : Derives n ts p) {lo hi : Nat}
    (hts : Span.Ordered lo (ts.map Token.span) hi) : p.Fits lo hi := by
  -- on the derivation; the tokens between the parts keep these apart
  induction h generalizing lo hi with
  | literal =>
    obtain ⟨hlo, hp, hhi⟩ := hts
    exact Expr.Fit.node ⟨hlo, hp, hhi⟩ (.nil hp.le) nofun
  | access =>
    obtain ⟨hlo, hp, hhi⟩ := hts
    exact Expr.Fit.node ⟨hlo, hp, hhi⟩ (.nil hp.le) nofun
  | group _ ih =>
    rw [List.map_cons, List.map_append] at hts
    obtain ⟨hopen, hp₁, hrest⟩ := hts
    obtain ⟨mid, hts, hclose⟩ := hrest.separated
    exact Expr.Fit.mono (ih hts) (hopen.trans hp₁.le) hclose
  | call _ _ ih =>
    simp only [List.map_cons, List.map_append] at hts
    obtain ⟨⟨hlo, hp, hhi⟩, hargs⟩ := hts.call
    exact Expr.Fit.node ⟨hlo, hp, hhi⟩ (ih hargs) nofun
  | @conditional n ts c a b r p r₁ p₁ r₂ p₂ _ ih =>
    simp only [List.map_cons, List.map_append] at hts
    obtain ⟨⟨hlo, hp, hhi⟩, hargs⟩ := hts.call
    exact Expr.Fit.node ⟨hlo, hp, hhi⟩ (ih hargs) nofun
  | noArguments => exact Expr.Fit.nil hts
  | lastArgument _ ih => exact ih hts
  | argument _ _ ih ih' =>
    rw [List.map_append, List.map_cons] at hts
    obtain ⟨mid, hts, hus⟩ := hts.separated
    exact Expr.Fit.append (ih hts) (ih' hus)
  | atom _ ih => exact ih hts
  | @unary n t ts op e _ _ ih =>
    obtain ⟨hlo, ht, hts⟩ := hts
    have hoperand : Expr.Fit t.span.stop [e] hi := ih hts
    have hrow : Span.Ordered lo [t.span, e.span] hi := ⟨hlo, ht, hoperand.ordered⟩
    obtain ⟨hspan, -, -, hrest⟩ := hrow.enclosed rfl
    exact Expr.Fit.node hspan ⟨hrest.mono ht.le le_rfl, hoperand.nests⟩ nofun
  | factor _ ih => exact ih hts
  | tighter _ _ ih => exact ih hts
  | binary _ _ _ ih ih' =>
    rw [List.map_append, List.map_cons] at hts
    obtain ⟨mid, hts, hus⟩ := hts.separated
    have hparts := Expr.Fit.append (ih hts) (ih' hus)
    obtain ⟨hspan, hrow⟩ := hparts.ordered.enclosed rfl
    exact Expr.Fit.node hspan ⟨hrow, hparts.nests⟩ nofun
  | choice _ ih => exact ih hts
  | ternary _ _ _ ih ih' ih'' =>
    simp only [List.map_append, List.map_cons] at hts
    obtain ⟨mid, hts, hrest⟩ := hts.separated
    obtain ⟨mid', hus, hvs⟩ := hrest.separated
    have hbranches := Expr.Fit.append (ih' hus) (ih'' hvs)
    have hparts := Expr.Fit.append (ih hts) hbranches
    obtain ⟨hspan, hrow⟩ := hparts.ordered.enclosed rfl
    exact Expr.Fit.node hspan ⟨hrow, hparts.nests⟩ nofun
  | noStages => exact ⟨hts, nofun⟩
  | bareStage _ _ ih =>
    obtain ⟨hlo, hbar, hp, hlt, hus⟩ := hts
    exact Expr.StagesFit.cons (hlo.trans (hbar.le.trans hp)) hlt (.nil hlt.le) (ih hus)
  | stage _ _ _ ih ih' =>
    simp only [List.map_cons, List.map_append] at hts
    obtain ⟨hlo, hbar, hrest⟩ := hts
    obtain ⟨⟨hp, hlt, hus⟩, hargs⟩ := hrest.call
    exact Expr.StagesFit.cons (hlo.trans (hbar.le.trans hp)) hlt (ih hargs) (ih' hus)
  | pipeline _ _ ih ih' =>
    rw [List.map_append] at hts
    obtain ⟨mid, hts, hus⟩ := hts.split
    exact Expr.Fit.piped (ih hts) (ih' hus)

end Stencil
