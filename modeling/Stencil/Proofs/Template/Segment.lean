import Stencil.Proofs.Grammar.Level
import Stencil.Proofs.Template.Elements
import Stencil.Proofs.Token.Layout

/-!
# Expressions in and out of templates

An expression is the same in braces as alone. Main statement: `Element.parse_braces`, in both
directions; the trees differ by the offset at which the expression stands in the template.
-/

namespace Stencil

/-- A text is an expression if it is spelled by tokens that derive it, within the limit. -/
theorem Expr.parse_spelled_iff {source limit e} :
    Expr.parse source limit = .ok e ↔
      ∃ ts n, Spelled 0 source ts ∧ Derives n ts (.pipeline e) ∧
        Within (effective limit) (1 + n) := by
  rw [Expr.parse_iff]
  constructor
  · rintro ⟨ts, last, n, htokens, hlast, hts, hn⟩
    exact ⟨ts, n, (Cursor.tokens_eof_iff.1 ⟨htokens, hlast⟩).1, hts, hn⟩
  · rintro ⟨ts, n, hsource, hts, hn⟩
    exact ⟨ts, Cursor.ending source.length, n, hsource.tokens_eof, rfl, hts, hn⟩

/-- An expression at an offset is one at the beginning of a text, moved there. -/
lemma Spelled.alone {o t ts n e} (ht : Spelled o t ts) (hts : Derives n ts (.pipeline e)) :
    ∃ us a, Spelled 0 t us ∧ Derives n us (.pipeline a) ∧ e = a.shift o := by
  obtain ⟨us, hus, rfl⟩ := ht.unshift (Nat.zero_add _).symm
  obtain ⟨a, ha, rfl⟩ := hts.of_move rfl
  exact ⟨us, a, hus, ha, rfl⟩

namespace Element

/-- An expression alone in braces. -/
lemma parse_of_parse {e : Text} {limit a} (h : Expr.parse e limit = .ok a) :
    parse ("\x7b\x7b" ++ e ++ "\x7d\x7d") none limit =
      .ok [.expression e.trim (a.shift 2) ⟨0, e.length + 4⟩] := by
  obtain ⟨ts, n, hspelled, hts, hn⟩ := Expr.parse_spelled_iff.1 h
  have hgap : Gap.Skips ("\x7b\x7b" ++ (e ++ ("\x7d\x7d" ++ ([] : Text)))) [] [] := .done
  have hsplits := Splits.expression (o := 0) hgap (hspelled.shift (k := 2)) hts.move hn
    (.text .done)
  rw [List.nil_append, List.append_nil, ← List.append_assoc] at hsplits
  have hlen : 0 + ([] : Text).length + 2 + e.length + 2 = e.length + 4 := by
    rw [List.length_nil]; omega
  rw [hlen] at hsplits
  exact parseFrom_iff.2 hsplits

/-- The text of an expression element alone. -/
lemma parse_of_mem {source maxLength limit els inner expr span}
    (h : parse source maxLength limit = .ok els) (hmem : .expression inner expr span ∈ els) :
    ∃ a, Expr.parse inner limit = .ok a ∧
      expr = a.shift (span.start + 2 +
        ((source.drop (span.start + 2)).takeWhile CodeUnit.isBlank).length) := by
  obtain ⟨pre, t, after, ts, n, rfl, rfl, rfl, -, ht, hts, hn⟩ := (parse_splits h).of_mem hmem
  obtain ⟨lead, core, trail, rfl, hlead, htrail, hcore, hne, hhead, hlast⟩ := ht.core hts.ne_nil
  have hlead' : ∀ v ∈ lead, v.isBlank := fun v hv => CodeUnit.isBlank_of_isSpace (hlead v hv)
  have htrail' : ∀ v ∈ trail, v.isBlank := fun v hv => CodeUnit.isBlank_of_isSpace (htrail v hv)
  rw [Text.trim_core hlead' htrail' hne hhead hlast]
  have hdrop : (pre ++ ("\x7b\x7b" ++ (lead ++ (core ++ trail) ++ ("\x7d\x7d" ++ after)))).drop
      (0 + pre.length + 2) = lead ++ (core ++ (trail ++ ("\x7d\x7d" ++ after))) := by
    rw [Nat.zero_add, ← List.drop_drop, List.drop_left]
    simp only [List.append_assoc]
    rfl
  -- the blanks in front of the expression are all that its tree is moved by
  have hlead'' : (lead ++ (core ++ (trail ++ ("\x7d\x7d" ++ after)))).takeWhile
      CodeUnit.isBlank = lead := by
    refine Reading.takeWhile_exact hlead' ?_
    rwa [List.head?_append_of_ne_nil _ hne]
  rw [hdrop, hlead'']
  obtain ⟨us, a, hus, ha, rfl⟩ := hcore.alone hts
  exact ⟨a, Expr.parse_spelled_iff.2 ⟨us, n, hus, ha, hn⟩, rfl⟩

/-- An expression in braces is a template with that one element, and the text of every expression
element is an expression alone. The trees are the same up to the offset at which they stand. -/
theorem parse_braces (limit : Option Quantity) :
    (∀ e a, Expr.parse e limit = .ok a →
      parse ("\x7b\x7b" ++ e ++ "\x7d\x7d") none limit =
        .ok [.expression e.trim (a.shift 2) ⟨0, e.length + 4⟩]) ∧
    ∀ source maxLength els, parse source maxLength limit = .ok els →
      ∀ inner expr span, .expression inner expr span ∈ els →
        ∃ a, Expr.parse inner limit = .ok a ∧
          expr = a.shift (span.start + 2 +
            ((source.drop (span.start + 2)).takeWhile CodeUnit.isBlank).length) :=
  ⟨fun _ _ => parse_of_parse, fun _ _ _ h _ _ _ => parse_of_mem h⟩

theorem parse_braces_true :
    parse ("\x7b\x7b" ++ " true" ++ "\x7d\x7d") none none =
      .ok [.expression "true" (.literal ⟨3, 7⟩ (.bool true) "true") ⟨0, 9⟩] ∧
    ∃ a, Expr.parse "true" none = .ok a ∧
      Expr.literal ⟨3, 7⟩ (.bool true) "true" = a.shift 3 := by
  have hspelled : Spelled 0 (" " ++ "true") [⟨.name "true", "true", ⟨1, 5⟩⟩] :=
    .pad (Text.forall_mem (by decide)) (.single ⟨_, _, rfl, rfl⟩ rfl)
  have hderives : Derives 0 [⟨.name "true", "true", ⟨1, 5⟩⟩]
      (Level.primary.phrase (.literal ⟨1, 5⟩ (.bool true) "true")) := .literal rfl
  have h : Expr.parse (" " ++ "true") none = .ok (.literal ⟨1, 5⟩ (.bool true) "true") :=
    Expr.parse_spelled_iff.2 ⟨_, 0, hspelled, hderives.lower_pipeline, within_none⟩
  have hbraces := (parse_braces none).1 " true" _ h
  exact ⟨hbraces, (parse_braces none).2 _ none _ hbraces _ _ _ (List.mem_singleton.2 rfl)⟩

end Element

end Stencil
