import Stencil.Proofs.Eval.Move
import Stencil.Proofs.Grammar.Level
import Stencil.Proofs.Template.Elements
import Stencil.Proofs.Token.Layout

/-!
# Templates one after the other

A template is read and rendered part by part. Main statement: `Element.parse_append`: where no
opening braces arise at the seam of two templates, their concatenation has the elements of both, with
the two texts at the seam in one element, and it renders to the renderings of both.
-/

namespace Stencil

namespace Gap

/-- Where the two texts meet there are no opening braces that neither of them has alone, and none of
the second text is escaped by the first. -/
structure Apart (s t : Text) : Prop where
  brace : ¬ (s.getLast? = some ('\x7b' : CodeUnit) ∧ t.head? = some ('\x7b' : CodeUnit))
  escape : ¬ (s.getLast? = some ('\\' : CodeUnit) ∧ ("\x7b\x7b" : Text) <+: t)

namespace Apart

variable {s t : Text}

/-- Only the end of the first text matters. -/
lemma of_append {pre : Text} (h : Apart (pre ++ s) t) : Apart s t := by
  cases s with
  | nil => exact ⟨nofun, nofun⟩
  | cons u s =>
    have hlast : (pre ++ u :: s).getLast? = (u :: s).getLast? := List.getLast?_append_cons ..
    exact ⟨hlast ▸ h.brace, hlast ▸ h.escape⟩

lemma tail {u : CodeUnit} (h : Apart (u :: s) t) : Apart s t := @of_append s t [u] h

lemma not_open {u : CodeUnit} (h : Apart (u :: s) t) (hu : ¬ ("\x7b\x7b" : Text) <+: u :: s) :
    ¬ ("\x7b\x7b" : Text) <+: u :: (s ++ t) := by
  intro hopen
  match s, t with
  | [], [] => exact hu hopen
  | [], v :: t =>
    obtain ⟨rfl, rfl⟩ := prefix_open.1 hopen
    exact h.brace ⟨rfl, rfl⟩
  | v :: s, t => exact hu (prefix_open.2 (prefix_open.1 hopen))

lemma not_escape {u : CodeUnit} (h : Apart (u :: s) t) (hu : ¬ ("\\\x7b\x7b" : Text) <+: u :: s) :
    ¬ ("\\\x7b\x7b" : Text) <+: u :: (s ++ t) := by
  intro hescape
  obtain ⟨rfl, hopen⟩ := List.cons_prefix_cons.1 hescape
  -- the seam comes after the backslash, between the braces, or later
  match s, t with
  | [], t => exact h.escape ⟨rfl, hopen⟩
  | [v], [] => exact hu hescape
  | [v], w :: t =>
    obtain ⟨rfl, rfl⟩ := prefix_open.1 hopen
    exact h.brace ⟨rfl, rfl⟩
  | v :: w :: s, t => exact hu (prefix_escape.2 (prefix_escape.1 hescape))

end Apart

namespace Skips

variable {after g value : Text}

/-- A gap that ends the source is passed over also where another one follows it. -/
lemma append {g' value' : Text} (h : Skips [] g value) (h' : Skips after g' value')
    (hapart : Apart g (g' ++ after)) : Skips after (g ++ g') (value ++ value') := by
  induction h with
  | done => exact h'
  | @escape g value _ ih =>
    rw [List.append_assoc, List.append_assoc]
    exact .escape (ih hapart.of_append)
  | @unit u g value hescape hopen _ ih =>
    rw [List.append_nil] at hescape hopen
    refine .unit (g := g ++ g') ?_ ?_ (ih hapart.tail)
    · rw [List.append_assoc]
      exact hapart.not_escape hescape
    · rw [List.append_assoc]
      exact hapart.not_open hopen

end Skips

end Gap

namespace Element

/-- The elements one after the other, with a text at the end of the first ones and a text at the
beginning of the others in one element. -/
def merge : List Element → List Element → List Element
  | [], more => more
  | [.text value], .text value' :: more => .text (value ++ value') :: more
  | e :: rest, more => e :: merge rest more

lemma merge_ofText {value value' : Text} {more : List Element}
    (h : ∀ v, more.head? ≠ some (.text v)) :
    merge (ofText value) (ofText value' ++ more) = ofText (value ++ value') ++ more := by
  match value, value', more with
  | [], _, _ => rfl
  | _ :: _, _ :: _, _ => rfl
  | _ :: _, [], [] => simp only [List.append_nil]; rfl
  | _ :: _, [], .text v :: _ => exact absurd rfl (h v)
  | _ :: _, [], .expression .. :: _ => rw [List.append_nil]; rfl

lemma merge_expression {value source : Text} {expr : Expr} {span : Span}
    {rest more : List Element} :
    merge (ofText value ++ .expression source expr span :: rest) more =
      ofText value ++ .expression source expr span :: merge rest more := by
  cases value with
  | nil => rw [ofText]; rfl
  | cons u value => rfl

namespace Splits

variable {limit : Option Quantity} {o : Nat} {s s' : Text} {els els' : List Element}

lemma map_shift_ofText {value : Text} {k : Nat} :
    (ofText value).map (Element.shift k) = ofText value := by
  cases value <;> rfl

/-- A template further to the right has its elements there. -/
lemma shift (h : Splits limit o s els) (k : Nat) :
    Splits limit (o + k) s (els.map (Element.shift k)) := by
  induction h with
  | @text o g value hg =>
    rw [map_shift_ofText]
    exact .text hg
  | @expression o g value t after ts n expr more hg ht hts hn _ ih =>
    have hopening : o + g.length + k = o + k + g.length := by omega
    have hinside : o + g.length + 2 + k = o + k + g.length + 2 := by omega
    have hstop : o + g.length + 2 + t.length + 2 + k = o + k + g.length + 2 + t.length + 2 := by
      omega
    have ht' := ht.shift (k := k)
    rw [hinside] at ht'
    rw [hstop] at ih
    rw [List.map_append, map_shift_ofText, List.map_cons, Element.shift, Element.move, Span.move,
      hopening, hstop]
    exact .expression hg ht' hts.move hn ih

/-- The elements of two texts are those of both. -/
lemma append (h : Splits limit o s els) (h' : Splits limit (o + s.length) s' els')
    (hapart : Gap.Apart s s') : Splits limit o (s ++ s') (merge els els') := by
  -- up to its last expression the first template is read as before; then the two gaps are one
  induction h with
  | @text o g value hg =>
    cases h' with
    | @text _ g' value' hg' =>
      have hmerge := @merge_ofText value value' [] nofun
      rw [List.append_nil, List.append_nil] at hmerge
      rw [hmerge]
      refine .text (hg.append hg' ?_)
      rwa [List.append_nil]
    | @expression _ g' value' t after ts n expr more hg' ht hts hn hmore =>
      have hlen : o + g.length + g'.length = o + (g ++ g').length := by
        rw [List.length_append, Nat.add_assoc]
      rw [hlen] at ht hmore ⊢
      have hhead (v : Text) : (Element.expression t.trim expr ⟨o + (g ++ g').length,
          o + (g ++ g').length + 2 + t.length + 2⟩ :: more).head? ≠ some (.text v) := nofun
      rw [merge_ofText hhead, ← List.append_assoc]
      exact .expression (hg.append hg' hapart) ht hts hn hmore
  | @expression o g value t after ts n expr more hg ht hts hn _ ih =>
    have hend : o + (g ++ ("\x7b\x7b" ++ (t ++ ("\x7d\x7d" ++ after)))).length =
        o + g.length + 2 + t.length + 2 + after.length := by
      rw [length_enclosed]
      omega
    rw [hend] at h'
    have hafter : Gap.Apart after s' := by
      simp only [← List.append_assoc] at hapart
      exact hapart.of_append
    rw [merge_expression, List.append_assoc, List.append_assoc, List.append_assoc,
      List.append_assoc]
    exact .expression (hg.reopen _) ht hts hn (ih h' hafter)

end Splits

end Element

namespace Template

/-- Without limits a source that has elements is a template with these. -/
lemma parse_of_elements {source : Text} {els : List Element}
    (h : Element.parse source none none = .ok els) (r : Registry) :
    parse source r {} = .ok ⟨source, els, r, {}⟩ := by
  change (Element.parse source none none).map _ = _
  rw [h]
  rfl

variable {s : Scope}

lemma renderAll_append (els els' : List Element) :
    renderAll s (els ++ els') = (do
      let x ← renderAll s els
      let y ← renderAll s els'
      return x ++ y) := by
  induction els with
  | nil => simp only [List.nil_append, renderAll, pure_bind, bind_pure]
  | cons el rest ih =>
    simp only [List.cons_append, renderAll, ih, bind_assoc, pure_bind, List.append_assoc]

/-- Texts in one element render as they do one after the other. -/
lemma renderAll_merge (els els' : List Element) :
    renderAll s (Element.merge els els') = renderAll s (els ++ els') := by
  fun_induction Element.merge els els' with
  | case1 => rfl
  | case2 value value' more =>
    simp only [List.cons_append, List.nil_append, renderAll, renderElement, bind_assoc, pure_bind,
      List.append_assoc]
  | case3 more e rest _ ih => rw [List.cons_append, renderAll, renderAll, ih]

/-- Where both renderings succeed, the elements of both render to both texts, and do what both did. -/
lemma runFrom_merge (hs : effective s.maxOperations = none) {els els' : List Element} {x y : Text}
    {t t' : Trace} (n : Nat) (h : (renderAll s els).runFrom {} = (.ok x, t))
    (h' : (renderAll s els').runFrom {} = (.ok y, t')) :
    (renderAll s (Element.merge els (els'.map (Element.shift n)))).runFrom {} =
      (.ok (x ++ y), t.append t') := by
  have hshift : (renderAll s (els'.map (Element.shift n))).runFrom t = (.ok y, t.append t') := by
    rw [Element.shift, renderAll_move, Eval.runFrom_mapFault, renderAll_additive hs els' t, h']
    rfl
  rw [renderAll_merge, renderAll_append, Eval.runFrom_bind, h]
  dsimp only
  rw [Eval.runFrom_bind, hshift]
  rfl

end Template

namespace Element

/-- Where no opening braces arise at the seam, the concatenation of two templates has the elements
of the first and then those of the second, shifted, with the texts at the seam in one element. It
renders to the text of the first and then that of the second, in any context, if these exist. -/
theorem parse_append {source source' : Text} {els els' : List Element}
    (h : parse source none none = .ok els) (h' : parse source' none none = .ok els')
    (hapart : Gap.Apart source source') :
    parse (source ++ source') none none = .ok (merge els (els'.map (shift source.length))) ∧
    ∀ (r : Registry) (c : Context), ∃ first second both,
      Template.parse source r {} = .ok first ∧ Template.parse source' r {} = .ok second ∧
      Template.parse (source ++ source') r {} = .ok both ∧
      ∀ x y t t', (first.render c).runFrom {} = (.ok x, t) →
        (second.render c).runFrom {} = (.ok y, t') →
        (both.render c).runFrom {} = (.ok (x ++ y), t.append t') := by
  have hboth : parse (source ++ source') none none =
      .ok (merge els (els'.map (shift source.length))) := by
    have hshift := (parse_splits h').shift source.length
    exact parseFrom_iff.2 ((parse_splits h).append hshift hapart)
  refine ⟨hboth, fun r c => ⟨_, _, _, Template.parse_of_elements h r,
    Template.parse_of_elements h' r, Template.parse_of_elements hboth r, ?_⟩⟩
  intro x y t t'
  exact Template.runFrom_merge rfl _

theorem parse_append_texts :
    let e : Expr := .literal ⟨3, 7⟩ (.bool true) "true"
    parse "a\x7b\x7btrue\x7d\x7db" none none =
      .ok [.text "a", .expression "true" e ⟨1, 9⟩, .text "b"] ∧
    parse "c\x7b\x7btrue\x7d\x7d" none none = .ok [.text "c", .expression "true" e ⟨1, 9⟩] ∧
    parse "a\x7b\x7btrue\x7d\x7dbc\x7b\x7btrue\x7d\x7d" none none =
      .ok [.text "a", .expression "true" e ⟨1, 9⟩, .text "bc",
        .expression "true" (e.shift 10) ⟨11, 19⟩] ∧
    ∃ both,
      Template.parse "a\x7b\x7btrue\x7d\x7dbc\x7b\x7btrue\x7d\x7d" ⟨[], true, 1⟩ {} = .ok both ∧
      (both.render ⟨none, [], [], [], [], []⟩).runFrom {} = (.ok "atruebctrue", ⟨2, []⟩) := by
  intro e
  have hspelled : Spelled 3 "true" [⟨.name "true", "true", ⟨3, 7⟩⟩] := .single ⟨_, _, rfl, rfl⟩ rfl
  have hderives : Derives 0 [⟨.name "true", "true", ⟨3, 7⟩⟩] (Level.primary.phrase e) :=
    .literal rfl
  have hwithin : Within (effective none) (1 + 0) := within_none
  have hfirst : Gap.Skips ("\x7b\x7b" ++ ("true" ++ ("\x7d\x7d" ++ "b"))) "a" "a" :=
    .unit (by decide) (by decide) .done
  have hlast : Gap.Skips [] "b" "b" := .unit (by decide) (by decide) .done
  have hsecond : Gap.Skips ("\x7b\x7b" ++ ("true" ++ ("\x7d\x7d" ++ ([] : Text)))) "c" "c" :=
    .unit (by decide) (by decide) .done
  have hsplits := Splits.expression (o := 0) hfirst hspelled hderives.lower_pipeline hwithin
    (.text hlast)
  have hsplits' := Splits.expression (o := 0) hsecond hspelled hderives.lower_pipeline hwithin
    (.text .done)
  have h : parse "a\x7b\x7btrue\x7d\x7db" none none =
      .ok [.text "a", .expression "true" e ⟨1, 9⟩, .text "b"] := parseFrom_iff.2 hsplits
  have h' : parse "c\x7b\x7btrue\x7d\x7d" none none =
      .ok [.text "c", .expression "true" e ⟨1, 9⟩] := parseFrom_iff.2 hsplits'
  have hapart : Gap.Apart "a\x7b\x7btrue\x7d\x7db" "c\x7b\x7btrue\x7d\x7d" := ⟨by decide, by decide⟩
  obtain ⟨hboth, hrender⟩ := parse_append h h' hapart
  obtain ⟨first, second, both, hfirst, hsecond, hparse, hruns⟩ :=
    hrender ⟨[], true, 1⟩ ⟨none, [], [], [], [], []⟩
  cases hfirst.symm.trans (Template.parse_of_elements h _)
  cases hsecond.symm.trans (Template.parse_of_elements h' _)
  exact ⟨h, h', hboth, both, hparse, hruns "atrueb" "ctrue" ⟨1, []⟩ ⟨1, []⟩ rfl rfl⟩

end Element

end Stencil
