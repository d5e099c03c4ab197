import Stencil.Proofs.Expr.Dependencies
import Stencil.Proofs.Grammar.Basic

/-!
# Where references come from

A tree refers to nothing that its tokens do not name. Main statement: `Derives.named`.
-/

namespace Stencil

/-- All that the trees refer to is named by tokens. -/
def Named (ts : List Token) (es : List Expr) : Prop :=
  ∀ e ∈ es, ∀ x ∈ e.reads, ∃ t ∈ ts, t.lexeme = .reference x.1 x.2

/-- The trees of a phrase. -/
def Phrase.trees : Phrase → List Expr
  | .pipeline e | .ternary e | .operand _ e | .unary e | .primary e => [e]
  | .arguments args => args
  | .stages list => list.flatMap Stage.args

/-- A node reads what it is a reference to, and what its children read. -/
lemma Expr.mem_reads_cases {e : Expr} {x : DataSource × Text} (h : x ∈ e.reads) :
    x ∈ e.ownReads ∨ ∃ c ∈ e.children, x ∈ c.reads := by
  obtain ⟨span, hx⟩ := mem_reads.1 h
  obtain rfl | ⟨c, hc, hx⟩ := mem_nodes.1 hx
  · exact .inl (List.mem_singleton.2 rfl)
  · exact .inr ⟨c, hc, mem_reads.2 ⟨span, hx⟩⟩

namespace Named

variable {ts us : List Token} {e : Expr} {es es' : List Expr}

lemma mono (h : Named ts es) (hsub : ts ⊆ us) : Named us es := by
  intro e he x hx
  obtain ⟨t, ht, hlexeme⟩ := h e he x hx
  exact ⟨t, hsub ht, hlexeme⟩

lemma append (h : Named ts es) (h' : Named ts es') : Named ts (es ++ es') :=
  List.forall_mem_append.2 ⟨h, h'⟩

lemma cons (h : Named ts [e]) (h' : Named ts es) : Named ts (e :: es) := h.append h'

/-- A node that is no reference itself refers to what its children do. -/
lemma node (hown : e.ownReads = []) (h : Named ts e.children) : Named ts [e] := by
  refine List.forall_mem_singleton.2 fun x hx => ?_
  obtain hx | ⟨c, hc, hx⟩ := Expr.mem_reads_cases hx
  · rw [hown] at hx
    cases hx
  · exact h c hc x hx

lemma piped {stages : List Stage} (h : Named ts [e]) (h' : Named ts (stages.flatMap Stage.args)) :
    Named ts [e.piped stages] := by
  unfold Expr.piped
  split
  · exact h
  · exact node rfl (h.cons h')

end Named

/-- What the trees of a phrase refer to is named by its tokens. -/
theorem Derives.named {n ts p} (h : Derives n ts p) : Named ts p.trees := by
  induction h with
  | literal => exact .node rfl nofun
  | access =>
    refine List.forall_mem_singleton.2 fun x hx => ⟨_, List.mem_singleton.2 rfl, ?_⟩
    rw [List.mem_singleton.1 hx]
  | group _ ih => exact ih.mono fun t ht => by simp [ht]
  | call _ _ ih => exact .node rfl (ih.mono fun t ht => by simp [ht])
  | conditional _ ih => exact .node rfl (ih.mono fun t ht => by simp [ht])
  | noArguments => exact nofun
  | lastArgument _ ih => exact ih
  | argument _ _ ih ih' =>
    exact (ih.mono fun t ht => by simp [ht]).cons (ih'.mono fun t ht => by simp [ht])
  | atom _ ih => exact ih
  | unary _ _ ih => exact .node rfl (ih.mono (List.subset_cons_self _ _))
  | factor _ ih => exact ih
  | tighter _ _ ih => exact ih
  | binary _ _ _ ih ih' =>
    exact .node rfl ((ih.mono fun t ht => by simp [ht]).cons (ih'.mono fun t ht => by simp [ht]))
  | choice _ ih => exact ih
  | ternary _ _ _ ih ih' ih'' =>
    refine .node rfl (.cons ?_ (.cons ?_ ?_))
    · exact ih.mono fun t ht => by simp [ht]
    · exact ih'.mono fun t ht => by simp [ht]
    · exact ih''.mono fun t ht => by simp [ht]
  | noStages => exact nofun
  | bareStage _ _ ih => exact ih.mono fun t ht => by simp [ht]
  | stage _ _ _ ih ih' =>
    exact (ih.mono fun t ht => by simp [ht]).append (ih'.mono fun t ht => by simp [ht])
  | pipeline _ _ ih ih' =>
    exact (ih.mono (List.subset_append_left _ _)).piped (ih'.mono (List.subset_append_right _ _))

end Stencil
