import Stencil.Proofs.Eval.Relation
import Stencil.Proofs.Eval.Report
import Stencil.Proofs.Grammar.Level
import Stencil.Proofs.Grammar.Span
import Stencil.Proofs.Template.Append

/-!
# Where faults stand

All nodes of an accepted template stand inside the braces of their expression, and faults of an
evaluation are at nodes, at their calls, or at their operands. Main statement: `Template.parse_spans`.
-/

namespace Stencil

/-- The offset belongs to the part of the source. -/
def Span.Has (p : Span) (offset : Nat) : Prop := p.start ≤ offset ∧ offset < p.stop

lemma Span.Inside.has_start {p q : Span} (h : p.Inside q) : q.Has p.start :=
  ⟨h.start_le, h.start_lt_stop.trans_le h.stop_le⟩

/-- The fault has no offset, or one with the property. -/
def EvalFault.At (holds : Nat → Prop) (fault : EvalFault) : Prop :=
  ∀ offset, fault.offset? = some offset → holds offset

namespace Expr

variable {p : Span} {x e : Expr}

/-- The calls of a node stand in it. -/
lemma Nests.call_inside (hx : x.Nests) {call : CallSite} (hcall : call ∈ x.callSites) :
    call.span.Inside x.span := by
  cases x with
  | call p name args =>
    obtain rfl := List.mem_singleton.1 hcall
    exact ⟨le_rfl, hx.start_lt_stop, le_rfl⟩
  | pipeline p input stages =>
    obtain ⟨stage, hstage, rfl⟩ := List.mem_map.1 hcall
    obtain ⟨hstages, -⟩ := hx.stages rfl
    obtain ⟨⟨hafter, hlt, hstop⟩, -⟩ := hstages stage hstage
    have hinput : input.span.Inside p := hx.inside input (List.mem_cons_self ..)
    have hbefore : p.start ≤ input.span.stop := hinput.start_le.trans hinput.start_lt_stop.le
    exact ⟨hbefore.trans hafter, hlt, hstop⟩
  | _ => cases hcall

/-- What a node that nests reports itself lies in it. -/
lemma Nests.step_at (hx : x.Nests) (hp : x.span.Inside p) (s : Scope) :
    StepRelated (fun _ m _ => m.FailsOnly (EvalFault.At p.Has)) s s x := by
  apply step_failsOnly
  · apply Scope.count_failsOnly
    rintro _ ⟨⟩
    exact hp.has_start
  · intro miss
    exact nofun
  · intro d
    exact nofun
  · rintro call hcall _ ⟨⟩
    exact ((hx.call_inside hcall).trans hp).has_start
  · rintro call hcall name fault _ ⟨⟩
    exact ((hx.call_inside hcall).trans hp).has_start
  · rintro call hcall name failure args _ ⟨⟩
    exact ((hx.call_inside hcall).trans hp).has_start
  · rintro op _ ⟨⟩
    exact hp.has_start
  · rintro span left right rfl _ ⟨⟩
    have hright : right.span.Inside span := hx.inside right (by simp [children])
    exact (hright.trans hp).has_start

/-- Faults of an expression whose nodes all nest lie in it. -/
lemma eval_at (h : ∀ x ∈ e.nodes, x.Nests) (hp : e.span.Inside p) (s : Scope) :
    (e.eval s).FailsOnly (EvalFault.At p.Has) := by
  have hsequential : Sequential (fun _ m _ => m.FailsOnly (EvalFault.At p.Has)) :=
    sequential_failsOnly fun _ => nofun
  apply eval_related_steps hsequential s s
  intro x hx
  exact (h x hx).step_at ((Nests.inside_of_mem h hx).trans hp) s

end Expr

/-- An expression of an accepted template fits between the braces of its element. -/
lemma Element.fit_of_mem {source maxLength limit els inner expr span}
    (h : parse source maxLength limit = .ok els) (hmem : .expression inner expr span ∈ els) :
    ∃ stop, span.stop = stop + 2 ∧ Expr.Fit (span.start + 2) [expr] stop := by
  obtain ⟨pre, t, after, ts, n, rfl, rfl, rfl, -, ht, hts, -⟩ := (parse_splits h).of_mem hmem
  exact ⟨_, rfl, hts.fits ht.ordered⟩

namespace Template

variable {source : Text} {functions : Registry} {limits : Limits} {t : Template}

lemma elements_of_parse (h : parse source functions limits = .ok t) :
    Element.parse source limits.normalize.length limits.normalize.depth = .ok t.elements := by
  rw [parse] at h
  cases hels : Element.parse source limits.normalize.length limits.normalize.depth with
  | error => rw [hels] at h; cases h
  | ok els => rw [hels] at h; cases h; rfl

/-- The offset is between the braces of an expression of the template. -/
def Encloses (t : Template) (offset : Nat) : Prop :=
  ∃ inner expr p, .expression inner expr p ∈ t.elements ∧ p.start + 2 ≤ offset ∧ offset + 2 < p.stop

/-- Faults of a rendering are between the braces of an expression. -/
lemma render_encloses (h : parse source functions limits = .ok t) (c : Context) :
    (t.render c).FailsOnly (EvalFault.At t.Encloses) := by
  have hsequential : Sequential (fun _ m _ => m.FailsOnly (EvalFault.At t.Encloses)) :=
    sequential_failsOnly fun _ => nofun
  apply renderAll_related hsequential (t.scope c) (t.scope c)
  intro e he
  obtain ⟨el, hmem, hel⟩ := List.mem_filterMap.1 he
  cases el with
  | text => cases hel
  | expression inner expr p =>
    cases hel
    obtain ⟨stop, hstop, hfit⟩ := Element.fit_of_mem (elements_of_parse h) hmem
    have hnests := hfit.nests e (List.mem_singleton.2 rfl)
    refine (Expr.eval_at hnests hfit.inside (t.scope c)).mono ?_
    intro fault hfault o ho
    obtain ⟨hstart, hlt⟩ := hfault o ho
    exact ⟨inner, e, p, hmem, hstart, by rw [hstop]; exact Nat.add_lt_add_right hlt 2⟩

/-- Every node of an accepted template stands between the braces of its expression. It has units there,
and its parts stand in it one after the other; the stages of a pipeline do so after its input, and
hold their arguments. So the index of whatever the evaluation itself reports, in any rendering, is
between the braces of an expression. -/
theorem parse_spans (h : parse source functions limits = .ok t) :
    (∀ inner expr p, .expression inner expr p ∈ t.elements → ∀ x ∈ expr.nodes,
      p.start + 2 ≤ x.span.start ∧ x.span.stop + 2 ≤ p.stop ∧ x.Nests) ∧
    ∀ c fault trace, (t.render c).runFrom {} = (.error fault, trace) → fault.isOwn →
      ∀ text index, (fault.diagnostic text).index = some index →
        ∃ offset : Nat, index = offset ∧ t.Encloses offset := by
  constructor
  · intro inner expr p hmem x hx
    obtain ⟨stop, hstop, hfit⟩ := Element.fit_of_mem (elements_of_parse h) hmem
    have hnests := hfit.nests expr (List.mem_singleton.2 rfl)
    have hinside := (Expr.Nests.inside_of_mem hnests hx).trans hfit.inside
    rw [hstop]
    exact ⟨hinside.start_le, Nat.add_le_add_right hinside.stop_le 2, hnests x hx⟩
  · intro c fault trace hrun hown text index hindex
    rw [EvalFault.index_diagnostic hown] at hindex
    obtain ⟨o, ho, hindex⟩ := Option.map_eq_some_iff.1 hindex
    exact ⟨o, hindex.symm, render_encloses h c _ _ _ hrun o ho⟩

theorem parse_spans_stage :
    let x : Expr :=
      .pipeline ⟨2, 10⟩ (.literal ⟨2, 6⟩ (.bool true) "true") [.mk ⟨9, 10⟩ "f" []]
    let t : Template :=
      ⟨"\x7b\x7btrue | f\x7d\x7d", [.expression "true | f" x ⟨0, 12⟩], .unbound, {}⟩
    let c : Context := ⟨none, [], [], [], [], []⟩
    let fault : EvalFault := .unknownFunction "f" ⟨9, 10⟩
    parse "\x7b\x7btrue | f\x7d\x7d" .unbound {} = .ok t ∧ x.Nests ∧
      (t.render c).runFrom {} = (.error fault, ⟨2, []⟩) ∧ fault.isOwn ∧
      (fault.diagnostic none).index = some (9 : Nat) ∧
      ∃ offset : Nat, ((9 : Nat) : Quantity) = offset ∧ t.Encloses offset := by
  intro x t c fault
  have hblank : ∀ v ∈ (" " : Text), v.isSpace := Text.forall_mem (by decide)
  have hname : Spelled 8 (" " ++ "f") [⟨.name "f", "f", ⟨9, 10⟩⟩] :=
    .pad hblank (.single ⟨_, _, rfl, rfl⟩ rfl)
  have hbar : Spelled 6 (" " ++ ("|" ++ (" " ++ "f")))
      [⟨.sign .bar, "|", ⟨7, 8⟩⟩, ⟨.name "f", "f", ⟨9, 10⟩⟩] :=
    .pad hblank (.cons ⟨_, _, rfl, rfl⟩ rfl (tame_cons rfl) hname)
  have hspelled : Spelled 2 ("true" ++ (" " ++ ("|" ++ (" " ++ "f"))))
      [⟨.name "true", "true", ⟨2, 6⟩⟩, ⟨.sign .bar, "|", ⟨7, 8⟩⟩, ⟨.name "f", "f", ⟨9, 10⟩⟩] :=
    .cons ⟨_, _, rfl, rfl⟩ rfl (tame_cons rfl) hbar
  have hliteral : Derives 0 [⟨.name "true", "true", ⟨2, 6⟩⟩]
      (Level.primary.phrase (.literal ⟨2, 6⟩ (.bool true) "true")) := .literal rfl
  have hstages : Derives 0 [⟨.sign .bar, "|", ⟨7, 8⟩⟩, ⟨.name "f", "f", ⟨9, 10⟩⟩]
      (.stages [.mk ⟨9, 10⟩ "f" []]) := .bareStage (by decide) .noStages
  have hderives := Derives.pipeline (hliteral.lower_ternary (by decide)) hstages
  have hwithin : Within (effective none) (1 + max 0 0) := within_none
  have hsplits := Element.Splits.expression (o := 0) .done hspelled hderives hwithin (.text .done)
  have hels : Element.parse "\x7b\x7btrue | f\x7d\x7d" none none =
      .ok [.expression "true | f" x ⟨0, 12⟩] := Element.parseFrom_iff.2 hsplits
  have hparse : parse "\x7b\x7btrue | f\x7d\x7d" .unbound {} = .ok t :=
    parse_of_elements hels .unbound
  obtain ⟨hnodes, hfaults⟩ := parse_spans hparse
  have hrun : (t.render c).runFrom {} = (.error fault, ⟨2, []⟩) := rfl
  have hindex : (fault.diagnostic none).index = some (9 : Nat) := EvalFault.index_diagnostic rfl
  obtain ⟨-, -, hnests⟩ := hnodes _ _ _ (List.mem_singleton.2 rfl) x x.self_mem_nodes
  exact ⟨hparse, hnests, hrun, rfl, hindex, hfaults c fault _ hrun rfl none _ hindex⟩

end Template

end Stencil
