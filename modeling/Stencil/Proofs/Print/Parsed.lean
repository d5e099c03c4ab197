import Stencil.Proofs.Print.Basic
import Stencil.Proofs.Template.Segment

/-!
# Parsed expressions can be printed

The leaves of a tree and the names of its calls are lexemes of the source it was read from. Main
statement: `Expr.Parsed.printable`, for trees of whole texts and of the expressions in templates.
-/

namespace Stencil

namespace Reading

/-- The lexemes of all other forms are no names. -/
lemma isName_of_reads {w name : Text} (h : Reads w (.name name)) : name.isName := by
  obtain ⟨u, rest, rfl, hfirst⟩ := h
  generalize hr : Reading.mk (.name name) rest.length = r at hfirst
  cases first_iff.1 hfirst with
  | close => cases hr
  | digit _ hnum =>
    obtain ⟨k, -, rfl⟩ := number_iff.1 hnum
    cases hr
  | point _ hnum =>
    obtain ⟨k, -, rfl⟩ := number_iff.1 hnum
    cases hr
  | quote _ hstring =>
    obtain ⟨w, a, value, -, -, rfl⟩ := string_iff.1 hstring
    cases hr
  | dollar href =>
    obtain ⟨source, path, hlexeme⟩ := reference_lexeme href
    rw [← hr] at hlexeme
    cases hlexeme
  | name hstart =>
    injection hr with hname hlength
    injection hname with hname
    have hrest : rest.takeWhile CodeUnit.isNamePart = rest :=
      (List.takeWhile_prefix _).eq_of_length hlength.symm
    rw [hname, hrest, Text.isName, Bool.and_eq_true, List.all_eq_true]
    exact ⟨hstart, List.takeWhile_eq_self_iff.1 hrest⟩
  | symbol _ hsymbol =>
    obtain ⟨s, -, -, rfl⟩ | ⟨s, -, -, rfl⟩ | ⟨m, -, -, rfl⟩ := symbol_cases hsymbol <;> cases hr

end Reading

/-- The tree of a phrase can be printed. -/
def Phrase.Printable : Phrase → Prop
  | .pipeline e | .ternary e | .operand _ e | .unary e | .primary e => e.Printable
  | .arguments args => ∀ e ∈ args, e.Printable
  | .stages list => ∀ stage ∈ list,
    (stage.name.isName ∧ stage.name ≠ conditionalName) ∧ ∀ e ∈ stage.args, e.Printable

/-- A pipeline can be printed if its input and its stages can. -/
lemma Expr.Printable.piped {input : Expr} {stages : List Stage} (h : input.Printable)
    (hstages : (Phrase.stages stages).Printable) : (input.piped stages).Printable := by
  unfold Expr.piped
  cases hlast : stages.getLast? with
  | none => exact h
  | some last =>
    have hne : stages ≠ [] := List.ne_nil_of_mem (List.mem_of_getLast? hlast)
    exact .pipeline hne h (fun stage hstage => (hstages stage hstage).1)
      fun stage hstage => (hstages stage hstage).2

/-- What tokens derive that are read from their own texts can be printed. -/
theorem Derives.printable {n ts p} (h : Derives n ts p) (hts : ∀ t ∈ ts, Reads t.raw t.lexeme) :
    p.Printable := by
  induction h with
  | literal hv =>
    obtain ⟨hread, -⟩ := List.forall_mem_cons.1 hts
    exact Expr.Printable.literal hread hv
  | access =>
    obtain ⟨hread, -⟩ := List.forall_mem_cons.1 hts
    exact Expr.Printable.access hread
  | group _ ih =>
    obtain ⟨-, hrest⟩ := List.forall_mem_cons.1 hts
    exact ih (List.forall_mem_append.1 hrest).1
  | call hname _ ih =>
    obtain ⟨hread, hrest⟩ := List.forall_mem_cons.1 hts
    obtain ⟨-, hrest⟩ := List.forall_mem_cons.1 hrest
    have hargs := ih (List.forall_mem_append.1 hrest).1
    exact Expr.Printable.call (Reading.isName_of_reads hread) hname hargs
  | @conditional n ts c a b _ _ _ _ _ _ _ ih =>
    obtain ⟨-, hrest⟩ := List.forall_mem_cons.1 hts
    obtain ⟨-, hrest⟩ := List.forall_mem_cons.1 hrest
    have hargs : ∀ e ∈ c :: a :: b.toList, e.Printable := ih (List.forall_mem_append.1 hrest).1
    obtain ⟨hc, hargs⟩ := List.forall_mem_cons.1 hargs
    obtain ⟨ha, hb⟩ := List.forall_mem_cons.1 hargs
    exact Expr.Printable.conditional hc ha (by simpa using hb)
  | noArguments => exact nofun
  | lastArgument _ ih => exact fun e he => List.mem_singleton.1 he ▸ ih hts
  | argument _ _ ih ih' =>
    obtain ⟨hts, hrest⟩ := List.forall_mem_append.1 hts
    obtain ⟨-, hus⟩ := List.forall_mem_cons.1 hrest
    exact fun e he => (List.mem_cons.1 he).elim (fun he => he ▸ ih hts) (ih' hus e)
  | atom _ ih => exact ih hts
  | unary _ _ ih =>
    obtain ⟨-, hts⟩ := List.forall_mem_cons.1 hts
    exact Expr.Printable.unary (ih hts)
  | factor _ ih => exact ih hts
  | tighter _ _ ih => exact ih hts
  | binary _ _ _ ih ih' =>
    obtain ⟨hts, hrest⟩ := List.forall_mem_append.1 hts
    obtain ⟨-, hus⟩ := List.forall_mem_cons.1 hrest
    exact Expr.Printable.binary (ih hts) (ih' hus)
  | choice _ ih => exact ih hts
  | ternary _ _ _ ih ih' ih'' =>
    obtain ⟨hts, hrest⟩ := List.forall_mem_append.1 hts
    obtain ⟨-, hrest⟩ := List.forall_mem_cons.1 hrest
    obtain ⟨hus, hrest⟩ := List.forall_mem_append.1 hrest
    obtain ⟨-, hvs⟩ := List.forall_mem_cons.1 hrest
    exact Expr.Printable.ternary (ih hts) (ih' hus) (ih'' hvs)
  | noStages => exact nofun
  | bareStage hname _ ih =>
    obtain ⟨-, hrest⟩ := List.forall_mem_cons.1 hts
    obtain ⟨hread, hus⟩ := List.forall_mem_cons.1 hrest
    intro stage hstage
    obtain rfl | hstage := List.mem_cons.1 hstage
    · exact ⟨⟨Reading.isName_of_reads hread, hname⟩, nofun⟩
    · exact ih hus stage hstage
  | stage hname _ _ ih ih' =>
    obtain ⟨-, hrest⟩ := List.forall_mem_cons.1 hts
    obtain ⟨hread, hrest⟩ := List.forall_mem_cons.1 hrest
    obtain ⟨-, hrest⟩ := List.forall_mem_cons.1 hrest
    obtain ⟨hts, hrest⟩ := List.forall_mem_append.1 hrest
    obtain ⟨-, hus⟩ := List.forall_mem_cons.1 hrest
    intro stage hstage
    obtain rfl | hstage := List.mem_cons.1 hstage
    · exact ⟨⟨Reading.isName_of_reads hread, hname⟩, ih hts⟩
    · exact ih' hus stage hstage
  | pipeline _ _ ih ih' =>
    obtain ⟨hts, hus⟩ := List.forall_mem_append.1 hts
    exact Expr.Printable.piped (ih hts) (ih' hus)

namespace Expr

/-- The parts of an expression that can be printed can be, too. -/
lemma Printable.child {e c : Expr} (h : e.Printable) (hc : c ∈ e.children) : c.Printable := by
  cases h with
  | literal => cases hc
  | access => cases hc
  | call _ _ hargs => exact hargs c hc
  | pipeline _ hinput _ hargs =>
    obtain rfl | hc := List.mem_cons.1 hc
    · exact hinput
    · obtain ⟨stage, hstage, hc⟩ := List.mem_flatMap.1 hc
      exact hargs stage hstage c hc
  | binary hleft hright =>
    have hparts := List.forall_mem_cons.2 ⟨hleft, List.forall_mem_singleton.2 hright⟩
    exact hparts c hc
  | unary h => exact List.mem_singleton.1 hc ▸ h
  | ternary hc' ha hb =>
    have hbranches := List.forall_mem_cons.2 ⟨ha, List.forall_mem_singleton.2 hb⟩
    exact List.forall_mem_cons.2 ⟨hc', hbranches⟩ c hc
  | @conditional _ _ _ b hc' ha hb =>
    have hb' : ∀ x ∈ b.toList, x.Printable := by simpa using hb
    have hbranches := List.forall_mem_cons.2 ⟨ha, hb'⟩
    exact List.forall_mem_cons.2 ⟨hc', hbranches⟩ c hc

lemma Printable.node {e x : Expr} (h : e.Printable) (hx : x ∈ e.nodes) : x.Printable := by
  induction e using induct_children with
  | step e ih =>
    obtain rfl | ⟨c, hc, hx⟩ := mem_nodes.1 hx
    · exact h
    · exact ih c hc (h.child hc) hx

/-- The expression is read from some source, alone or in the braces of a template. -/
def Parsed (e : Expr) : Prop :=
  (∃ source limit, parse source limit = .ok e) ∨
    ∃ source maxLength limit els inner span,
      Element.parse source maxLength limit = .ok els ∧ .expression inner e span ∈ els

/-- A parsed expression can be printed. -/
theorem Parsed.printable {e : Expr} (h : e.Parsed) : e.Printable := by
  obtain ⟨source, limit, hparse⟩ | ⟨source, maxLength, limit, els, inner, span, hparse, hmem⟩ := h
  · obtain ⟨ts, n, hspelled, hts, -⟩ := parse_spelled_iff.1 hparse
    exact hts.printable hspelled.reads
  · obtain ⟨pre, t, after, ts, n, -, -, -, -, hspelled, hts, -⟩ :=
      (Element.parse_splits hparse).of_mem hmem
    exact hts.printable hspelled.reads

end Expr

end Stencil
