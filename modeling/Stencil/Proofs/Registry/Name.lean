import Stencil.Proofs.Print.Parsed
import Stencil.Proofs.Registry.Built
import Stencil.Validation.Basic

/-!
# Names of functions

A registry accepts the names that a stage of a pipeline can have. Main statement:
`Registry.insert_callable`: of the accepted names all but those of the literals can be called
directly, and every call of a parsed expression is of an accepted name.
-/

namespace Stencil

/-- The names that are literals. -/
def literalNames : List Text := ["true", "false", "null"]

lemma keywordLiteral?_eq_none {name : Text} :
    keywordLiteral? name = none ↔ name ∉ literalNames := by
  unfold keywordLiteral? literalNames
  simp only [List.mem_cons, List.not_mem_nil, or_false, not_or]
  constructor
  · intro h
    split at h
    · cases h
    · next htrue =>
      split at h
      · cases h
      · next hfalse =>
        split at h
        · cases h
        · next hnull => exact ⟨htrue, hfalse, hnull⟩
  · rintro ⟨htrue, hfalse, hnull⟩
    rw [if_neg htrue, if_neg hfalse, if_neg hnull]

lemma callable_iff {name : Text} : Callable name ↔ name ∉ literalNames ∧ name ≠ conditionalName :=
  and_congr_left' keywordLiteral?_eq_none

namespace Registry

/-- Without a signature every name is accepted, save that of the conditional. -/
lemma insert_iff {r : Registry} {name : Text} {run : Function} :
    (∃ r', r.insert ⟨name, run, none⟩ = .ok r') ↔ name.isName ∧ name ≠ conditionalName := by
  rw [exists_insert_iff]
  exact ⟨fun h => ⟨h.1, h.2.1⟩, fun h => ⟨h.1, h.2, nofun⟩⟩

end Registry

namespace Expr

variable {name : Text}

/-- A call without arguments is an expression if its name can be called. -/
lemma parse_call :
    (∃ span args, parse (name ++ "()") none = .ok (.call span name args)) ↔
      name.isName ∧ Callable name := by
  constructor
  · rintro ⟨span, args, h⟩
    have hparsed : (Expr.call span name args).Parsed := .inl ⟨_, _, h⟩
    cases hparsed.printable with
    | call hname hcallable => exact ⟨hname, hcallable⟩
  · rintro ⟨hname, hcallable⟩
    have hclose : Spelled (0 + name.length + 1) ")" _ := .single (reads_mark .closing) rfl
    have hopen : Spelled (0 + name.length) ("(" ++ ")") _ :=
      .cons (reads_mark .opening) rfl (tame_cons rfl) hclose
    have hspelled : Spelled 0 (name ++ ("(" ++ ")")) _ :=
      .cons (reads_name hname) rfl (tame_cons rfl) hopen
    have hderives (p p₁ p₂ : Span) : Derives 1
        [⟨.name name, name, p⟩, ⟨.mark .opening, "(", p₁⟩, ⟨.mark .closing, ")", p₂⟩]
        (Level.primary.phrase (.call ⟨p.start, p₂.stop⟩ name [])) := .call hcallable .noArguments
    exact ⟨_, [], parse_spelled_iff.2
      ⟨_, 1, hspelled, (hderives _ _ _).lower_pipeline, within_none⟩⟩

/-- A name after a bar is a stage, save that of the conditional. -/
lemma parse_stage :
    (∃ span input p args, parse ("1 | " ++ name) none =
        .ok (.pipeline span input [.mk p name args])) ↔
      name.isName ∧ name ≠ conditionalName := by
  constructor
  · rintro ⟨span, input, p, args, h⟩
    have hparsed : (Expr.pipeline span input [.mk p name args]).Parsed := .inl ⟨_, _, h⟩
    cases hparsed.printable with
    | pipeline _ _ hnames _ => exact hnames _ (List.mem_singleton.2 rfl)
  · rintro ⟨hname, hif⟩
    have hspace : ∀ v ∈ (" " : Text), v.isSpace := Text.forall_mem (by decide)
    have hstage : Spelled 3 (" " ++ name) _ := .pad hspace (.single (reads_name hname) rfl)
    have hbar : Spelled 1 (" " ++ ("|" ++ (" " ++ name))) _ :=
      .pad hspace (.cons reads_bar rfl (tame_cons rfl) hstage)
    have hspelled : Spelled 0 ("1" ++ (" " ++ ("|" ++ (" " ++ name)))) _ :=
      .cons (l := .number "1") ⟨_, _, rfl, rfl⟩ rfl (tame_cons rfl) hbar
    have hinput (p : Span) : Derives 0 [⟨.number "1", "1", p⟩]
        (Level.primary.phrase (.literal p (.integer ⟨1, by decide⟩) "1")) := .literal rfl
    have hstages (p₀ p : Span) : Derives 0 [⟨.sign .bar, "|", p₀⟩, ⟨.name name, name, p⟩]
        (.stages [.mk p name []]) := .bareStage hif .noStages
    have hderives (p p₀ p₁ : Span) :=
      Derives.pipeline ((hinput p).lower_ternary (by decide)) (hstages p₀ p₁)
    exact ⟨_, _, _, [], parse_spelled_iff.2 ⟨_, _, hspelled, hderives _ _ _, within_none⟩⟩

/-- What a node that can be printed calls has a name, and not that of the conditional. -/
lemma Printable.callSites {x : Expr} (h : x.Printable) :
    ∀ call ∈ x.callSites, call.name.isName ∧ call.name ≠ conditionalName := by
  cases h with
  | call hname hcallable _ =>
    intro call hcall
    obtain rfl := List.mem_singleton.1 hcall
    exact ⟨hname, hcallable.2⟩
  | pipeline _ _ hnames _ =>
    intro call hcall
    obtain ⟨stage, hstage, rfl⟩ := List.mem_map.1 hcall
    exact hnames stage hstage
  | _ => exact nofun

end Expr

/-- The names that a registry accepts without a signature are those that stages can have. All of them
but the literals can be called directly, and no parsed expression calls any other. -/
theorem Registry.insert_callable (r : Registry) (run : Function) :
    (∀ name, (∃ span args, Expr.parse (name ++ "()") none = .ok (.call span name args)) ↔
      (∃ r', r.insert ⟨name, run, none⟩ = .ok r') ∧ name ∉ literalNames) ∧
    (∀ name, (∃ span input p args,
        Expr.parse ("1 | " ++ name) none = .ok (.pipeline span input [.mk p name args])) ↔
      ∃ r', r.insert ⟨name, run, none⟩ = .ok r') ∧
    ∀ e : Expr, e.Parsed → ∀ x ∈ e.nodes, ∀ call ∈ x.callSites,
      ∃ r', r.insert ⟨call.name, run, none⟩ = .ok r' := by
  refine ⟨?_, ?_, ?_⟩
  · intro name
    rw [Expr.parse_call, callable_iff, insert_iff, and_assoc, and_comm (a := name ∉ literalNames)]
  · intro name
    rw [Expr.parse_stage, insert_iff]
  · intro e h x hx call hcall
    exact insert_iff.2 ((h.printable.node hx).callSites call hcall)

theorem Registry.insert_callable_contains :
    let f : Registration := ⟨"contains", fun _ => .ok .null, none⟩
    let g : Registration := ⟨"true", fun _ => .ok .null, none⟩
    (∃ span args, Expr.parse "contains()" none = .ok (.call span "contains" args) ∧
      ∃ r, empty.insert f = .ok r) ∧
    (∃ r, empty.insert g = .ok r) ∧
    ∃ span input p args,
      Expr.parse "1 | true" none = .ok (.pipeline span input [.mk p "true" args]) := by
  intro f g
  obtain ⟨hcall, hstage, hsites⟩ := insert_callable empty fun _ => .ok .null
  have hf : ∃ r, empty.insert f = .ok r := ⟨_, rfl⟩
  have hg : ∃ r, empty.insert g = .ok r := ⟨_, rfl⟩
  obtain ⟨span, args, hparse⟩ := (hcall "contains").2 ⟨hf, by decide⟩
  have hparsed : (Expr.call span "contains" args).Parsed := .inl ⟨_, none, hparse⟩
  have hsite := hsites _ hparsed _ (Expr.self_mem_nodes _) _ (List.mem_singleton.2 rfl)
  exact ⟨⟨span, args, hparse, hsite⟩, hg, (hstage "true").2 hg⟩

/-- A function with the name of a literal is accepted, but cannot be called directly. -/
theorem Registry.insert_literal :
    (∃ r, empty.insert ⟨"true", fun _ => .ok .null, none⟩ = .ok r) ∧
      ¬ ∃ span args, Expr.parse ("true" ++ "()") none = .ok (.call span "true" args) := by
  refine ⟨⟨_, rfl⟩, ?_⟩
  rw [Expr.parse_call]
  rintro ⟨-, hliteral, -⟩
  cases hliteral

end Stencil
