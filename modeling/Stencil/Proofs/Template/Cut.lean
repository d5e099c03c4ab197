import Mathlib.Data.List.Chain
import Stencil.Proofs.Grammar.Level
import Stencil.Proofs.Template.Elements
import Stencil.Proofs.Token.Layout

/-!
# Every character of a template

A template is cut into gaps and the parts of its expressions, and nothing is left over. Main
statement: `Element.parse_cut`. The scanner `closing?` finds the closing braces of an expression by
its quotes alone; it knows neither tokens nor the grammar.
-/

namespace Stencil

/-- The quotes of string literals and of node identifiers. -/
def CodeUnit.isQuote (u : CodeUnit) : Bool := u == '\'' || u == '"'

/-- The width of a string literal after its opening quote, with the closing one. -/
def literalWidth (quote : CodeUnit) : Text → Nat
  | [] => 0
  | [_] => 1
  | u :: v :: rest =>
    if u = quote then 1
    else if u = '\\' then literalWidth quote rest + 2
    else literalWidth quote (v :: rest) + 1

/-- How many units after `u` belong to what begins there: those of a string literal, or those of a
node up to the quote after its identifier. -/
def quotedWidth (u : CodeUnit) (rest : Text) : Nat :=
  if u.isQuote then literalWidth u rest
  else if ("$node(" : Text).isPrefixOf (u :: rest) then
    match rest.drop 5 with
    | [] => 0
    | quote :: id => if quote.isQuote then (id.takeWhile (· != quote)).length + 7 else 0
  else 0

/-- How far the first closing braces outside of quotes are. -/
def closing? : Text → Option Nat
  | [] => none
  | u :: rest =>
    if ("\x7d\x7d" : Text).isPrefixOf (u :: rest) then some 0
    else (closing? (rest.drop (quotedWidth u rest))).map (· + (quotedWidth u rest + 1))
termination_by t => t.length
decreasing_by simp only [List.length_drop, List.length_cons]; omega

section Closing

/-- What begins with a unit that closes no braces is passed over as a whole. -/
lemma closing?_cons {u : CodeUnit} {w rest : Text}
    (hbrace : ¬ ("\x7d\x7d" : Text) <+: u :: (w ++ rest))
    (hwidth : quotedWidth u (w ++ rest) = w.length) :
    closing? (u :: (w ++ rest)) = (closing? rest).map (· + (w.length + 1)) := by
  rw [closing?, if_neg (mt List.isPrefixOf_iff_prefix.1 hbrace), hwidth, List.drop_left]

lemma closing?_one {u : CodeUnit} {rest : Text} (hbrace : u ≠ '\x7d')
    (hwidth : quotedWidth u rest = 0) : closing? (u :: rest) = (closing? rest).map (· + 1) := by
  refine closing?_cons (w := []) ?_ hwidth
  rintro ⟨x, hx⟩
  exact hbrace (List.head_eq_of_cons_eq hx).symm

lemma map_add_add {x : Option Nat} {a b : Nat} :
    (x.map (· + a)).map (· + b) = x.map (· + (a + b)) := by
  cases x with
  | none => rfl
  | some k => exact congrArg some (Nat.add_assoc k a b)

/-- Units that open no quotes are passed over one by one. -/
lemma closing?_units {w rest : Text}
    (hw : ∀ v ∈ w, v.isQuote = false ∧ v ≠ '\x7d' ∧ v ≠ '$') :
    closing? (w ++ rest) = (closing? rest).map (· + w.length) := by
  induction w with
  | nil => simp
  | cons u w ih =>
    obtain ⟨⟨hquote, hbrace, hdollar⟩, hw⟩ := List.forall_mem_cons.1 hw
    have hopen : ¬ ("$node(" : Text).isPrefixOf (u :: (w ++ rest)) = true := by
      intro h
      obtain ⟨x, hx⟩ := List.isPrefixOf_iff_prefix.1 h
      exact hdollar (List.head_eq_of_cons_eq hx).symm
    have hwidth : quotedWidth u (w ++ rest) = 0 := by
      rw [quotedWidth, hquote, if_neg Bool.false_ne_true, if_neg hopen]
    rw [List.cons_append, closing?_one hbrace hwidth, ih hw, map_add_add, List.length_cons]

lemma literalWidth_body {quote : CodeUnit} {w value rest : Text} (h : Reading.Body quote w value) :
    literalWidth quote (w ++ rest) = w.length := by
  induction h with
  | close =>
    cases rest with
    | nil => rfl
    | cons v rest => rw [List.cons_append, List.nil_append, literalWidth, if_pos rfl]; rfl
  | @escape v w value hq _ ih =>
    rw [List.cons_append, List.cons_append, literalWidth, if_neg hq.symm, if_pos rfl, ih]
    rfl
  | @unit u w value hu hb hw ih =>
    have hne : w ≠ [] := by cases hw <;> exact List.cons_ne_nil _ _
    obtain ⟨v, w, rfl⟩ := List.exists_cons_of_ne_nil hne
    rw [List.cons_append] at ih ⊢
    rw [List.cons_append, literalWidth, if_neg hu, if_neg hb, ih]
    rfl

lemma plain_units {w : Text} (hw : ∀ v ∈ w, v.isPlain) :
    ∀ v ∈ w, v.isQuote = false ∧ v ≠ '\x7d' ∧ v ≠ '$' := by
  intro v hv
  have hsingle : v ≠ '\'' := CodeUnit.ne_of_isPlain (hw v hv) (by decide)
  have hdouble : v ≠ '"' := CodeUnit.ne_of_isPlain (hw v hv) (by decide)
  refine ⟨?_, CodeUnit.ne_of_isPlain (hw v hv) (by decide),
    CodeUnit.ne_of_isPlain (hw v hv) (by decide)⟩
  rw [CodeUnit.isQuote, beq_false_of_ne hsingle, beq_false_of_ne hdouble]
  rfl

lemma isQuote_of_or {quote : CodeUnit} (h : quote = '\'' ∨ quote = '"') : quote.isQuote := by
  obtain rfl | rfl := h <;> decide

/-- A node is passed over up to the quote after its identifier. -/
lemma closing?_node {quote : CodeUnit} {id rest : Text} (hq : quote = '\'' ∨ quote = '"')
    (hmem : quote ∉ id) :
    closing? ("$node(" ++ quote :: (id ++ quote :: rest)) =
      (closing? rest).map (· + (id.length + 8)) := by
  -- the units after the dollar, up to the closing quote
  generalize hw : ("node(" ++ quote :: (id ++ [quote]) : Text) = w
  have hlength : w.length = id.length + 7 := by
    rw [← hw, List.length_append, List.length_cons, List.length_append]
    exact Nat.add_comm 5 _
  have htext : w ++ rest = "node(" ++ quote :: (id ++ quote :: rest) := by
    rw [← hw]
    simp only [List.cons_append, List.append_assoc, List.nil_append]
  have hdrop : (w ++ rest).drop 5 = quote :: (id ++ quote :: rest) := by
    rw [htext]
    rfl
  have hopen : ("$node(" : Text).isPrefixOf ('$' :: (w ++ rest)) := by
    rw [htext]
    rfl
  have hid : (id ++ quote :: rest).takeWhile (· != quote) = id :=
    Reading.takeWhile_exact (fun v hv => bne_iff_ne.2 fun heq => hmem (heq ▸ hv)) (by simp)
  have hwidth : quotedWidth '$' (w ++ rest) = w.length := by
    rw [quotedWidth, if_neg (by decide), if_pos hopen, hdrop, hlength]
    dsimp only
    rw [if_pos (isQuote_of_or hq), hid]
  have hbrace : ¬ ("\x7d\x7d" : Text) <+: '$' :: (w ++ rest) := by
    rintro ⟨x, hx⟩
    exact absurd (List.head_eq_of_cons_eq hx) (by decide)
  have hstep := closing?_cons hbrace hwidth
  rw [htext, hlength] at hstep
  exact hstep

/-- No lexeme holds closing braces outside of its quotes. -/
lemma closing?_shape {w rest : Text} (h : Reading.Shape w) :
    closing? (w ++ rest) = (closing? rest).map (· + w.length) := by
  cases h with
  | plain _ hw => exact closing?_units (plain_units hw)
  | @string quote body value hq hbody =>
    refine closing?_cons ?_ ?_
    · rintro ⟨x, hx⟩
      have := (List.head_eq_of_cons_eq hx).symm
      obtain rfl | rfl := hq <;> exact absurd this (by decide)
    · rw [quotedWidth, if_pos (isQuote_of_or hq.symm), literalWidth_body hbody]
  | @dollar v w hv hw =>
    have hopen : ¬ ("$node(" : Text).isPrefixOf ('$' :: (v :: w ++ rest)) = true := by
      intro h
      obtain ⟨x, hx⟩ := List.isPrefixOf_iff_prefix.1 h
      exact hv (List.head_eq_of_cons_eq (List.tail_eq_of_cons_eq hx)).symm
    have hwidth : quotedWidth '$' (v :: w ++ rest) = 0 := by
      rw [quotedWidth, if_neg (by decide), if_neg hopen]
    rw [List.cons_append, closing?_one (by decide) hwidth, closing?_units (plain_units hw),
      map_add_add]
    rfl
  | @node quote id w hq hmem hw =>
    have hunits : ∀ v ∈ (')' : CodeUnit) :: w, v.isQuote = false ∧ v ≠ '\x7d' ∧ v ≠ '$' :=
      List.forall_mem_cons.2 ⟨by decide, plain_units hw⟩
    have htext : ("$node(" ++ quote :: (id ++ quote :: ')' :: w) ++ rest : Text) =
        "$node(" ++ quote :: (id ++ quote :: ((')' : CodeUnit) :: w ++ rest)) := by
      simp only [List.cons_append, List.append_assoc]
    have hlength : ("$node(" ++ quote :: (id ++ quote :: ')' :: w) : Text).length =
        ((')' : CodeUnit) :: w).length + (id.length + 8) := by
      have hopen : ("$node(" : Text).length = 6 := rfl
      simp only [List.length_append, List.length_cons, hopen]
      omega
    rw [htext, closing?_node hq hmem, closing?_units hunits, map_add_add, hlength]

lemma space_units {gap : Text} (hgap : ∀ v ∈ gap, v.isSpace) :
    ∀ v ∈ gap, v.isQuote = false ∧ v ≠ '\x7d' ∧ v ≠ '$' := by
  intro v hv
  refine ⟨?_, ?_, ?_⟩
  · cases hq : v.isQuote with
    | false => rfl
    | true =>
      rw [CodeUnit.isQuote, Bool.or_eq_true, beq_iff_eq, beq_iff_eq] at hq
      obtain rfl | rfl := hq <;> exact absurd (hgap _ hv) (by decide)
  · rintro rfl
    exact absurd (hgap _ hv) (by decide)
  · rintro rfl
    exact absurd (hgap _ hv) (by decide)

/-- The closing braces after an expression are the first outside of quotes. -/
lemma Spelled.closing? {o t ts} (h : Spelled o t ts) (after : Text) :
    Stencil.closing? (t ++ ("\x7d\x7d" ++ after)) = some t.length := by
  have hend : Stencil.closing? ("\x7d\x7d" ++ after) = some 0 := by
    change Stencil.closing? ('\x7d' :: '\x7d' :: after) = some 0
    rw [Stencil.closing?]
    rfl
  induction h with
  | blank hgap =>
    rw [closing?_units (space_units hgap), hend, Option.map_some, Nat.zero_add]
  | @token o gap u w l rest ts hgap hfirst hl _ ih =>
    have htext : gap ++ u :: (w ++ rest) ++ ("\x7d\x7d" ++ after) =
        gap ++ (u :: w ++ (rest ++ ("\x7d\x7d" ++ after))) := by simp
    have hlength : (gap ++ u :: (w ++ rest)).length =
        rest.length + (u :: w).length + gap.length := by
      simp only [List.length_append, List.length_cons]
      omega
    rw [htext, closing?_units (space_units hgap),
      closing?_shape (Reading.shape_of_first hfirst hl), ih, hlength]
    rfl

end Closing

/-- The text from an offset on is a gap, the part of a span, a gap, and so on up to a last gap. -/
inductive Cut : Nat → Text → List Span → List Text → Prop where
  | last {o g} : Cut o g [] [g]
  | next {o g s rest p spans gaps} :
    p.start = o + g.length →
    p.stop = p.start + s.length →
    Cut p.stop rest spans gaps →
    Cut o (g ++ (s ++ rest)) (p :: spans) (g :: gaps)

/-- The spans leave one choice of the gaps. -/
lemma Cut.unique {o t spans gaps gaps'} (h : Cut o t spans gaps) (h' : Cut o t spans gaps') :
    gaps' = gaps := by
  induction h generalizing gaps' with
  | last => cases h'; rfl
  | @next o g s rest p spans gaps hstart hstop _ ih =>
    generalize htext : g ++ (s ++ rest) = t at h'
    cases h' with
    | @next _ g' s' rest' _ _ gaps' hstart' hstop' hcut' =>
      obtain ⟨rfl, hrest⟩ := List.append_inj htext (by omega)
      obtain ⟨rfl, rfl⟩ := List.append_inj hrest (by omega)
      rw [ih hcut']

/-- The part of a span is an expression in its braces: it begins with opening braces that no
backslash precedes, and the first closing braces outside of quotes end it. -/
structure Enclosed (source : Text) (p : Span) : Prop where
  opens : ("\x7b\x7b" : Text) <+: source.drop p.start
  unescaped : (source.take p.start).getLast? ≠ some ('\\' : CodeUnit)
  closes : ∃ k, closing? (source.drop (p.start + 2)) = some k ∧ p.stop = p.start + 2 + k + 2

namespace Element

/-- Whether the element is an expression. -/
def isExpression : Element → Bool
  | .text _ => false
  | .expression .. => true

/-- The span of an expression element. -/
def span? : Element → Option Span
  | .text _ => none
  | .expression _ _ span => some span

/-- The texts of the gaps, with the expressions between them. -/
def interleave : List Text → List Element → List Element
  | [], _ => []
  | g :: gaps, [] => ofText (Gap.unescape g) ++ interleave gaps []
  | g :: gaps, e :: rest => ofText (Gap.unescape g) ++ e :: interleave gaps rest

lemma filter_ofText {value : Text} : (ofText value).filter isExpression = [] := by
  unfold ofText
  split <;> rfl

lemma spans_ofText {value : Text} : (ofText value).filterMap span? = [] := by
  unfold ofText
  split <;> rfl

/-- The gaps of a template. -/
lemma Splits.cut {limit o rest els} (h : Splits limit o rest els) :
    ∃ gaps, Cut o rest (els.filterMap span?) gaps ∧ (∀ g ∈ gaps, Gap.Escaped g) ∧
      els = interleave gaps (els.filter isExpression) := by
  induction h with
  | @text o g value hg =>
    refine ⟨[g], ?_, by simpa using hg.escaped, ?_⟩
    · rw [spans_ofText]
      exact .last
    · rw [filter_ofText, interleave, interleave, List.append_nil, ← hg.value_eq]
  | @expression o g value t after ts n expr more hg _ _ _ _ ih =>
    obtain ⟨gaps, hcut, hescaped, hmore⟩ := ih
    refine ⟨g :: gaps, ?_, List.forall_mem_cons.2 ⟨hg.escaped, hescaped⟩, ?_⟩
    · have htext : g ++ ("\x7b\x7b" ++ (t ++ ("\x7d\x7d" ++ after))) =
          g ++ (("\x7b\x7b" ++ (t ++ "\x7d\x7d")) ++ after) := by simp
      rw [List.filterMap_append, spans_ofText, htext]
      refine .next rfl ?_ hcut
      have hopen : ("\x7b\x7b" : Text).length = 2 := rfl
      have hclose : ("\x7d\x7d" : Text).length = 2 := rfl
      simp only [List.length_append, hopen, hclose]
      omega
    · rw [List.filter_append, filter_ofText, List.nil_append, List.filter_cons_of_pos rfl,
        interleave, ← hmore, ← hg.value_eq]

/-- Each expression stands in its braces. -/
lemma Splits.enclosed {limit source els p} (h : Splits limit 0 source els)
    (hp : p ∈ els.filterMap span?) : Enclosed source p := by
  obtain ⟨e, he, hspan⟩ := List.mem_filterMap.1 hp
  cases e with
  | text => cases hspan
  | expression inner expr span =>
    cases hspan
    obtain ⟨pre, t, after, ts, n, rfl, -, rfl, hlast, ht, -, -⟩ := h.of_mem he
    rw [Nat.zero_add]
    refine ⟨?_, ?_, t.length, ?_, rfl⟩
    · rw [List.drop_left]
      exact ⟨_, rfl⟩
    · rwa [List.take_left]
    · rw [← List.drop_drop, List.drop_left]
      exact ht.closing? after

/-- Two texts never follow each other, and none is empty. -/
lemma Splits.texts {limit o rest els} (h : Splits limit o rest els) :
    els.IsChain (fun a b => a.isExpression ∨ b.isExpression) ∧
      ∀ value, .text value ∈ els → value ≠ [] := by
  induction h with
  | @text o g value _ =>
    obtain h | ⟨h, hne⟩ := ofText_cases value
    · rw [h]; exact ⟨.nil, nofun⟩
    · rw [h]; exact ⟨.singleton _, by simpa using hne⟩
  | @expression o g value t after ts n expr more _ _ _ _ _ ih =>
    obtain ⟨hchain, hmore⟩ := ih
    have hchain' : (Element.expression t.trim expr
        ⟨o + g.length, o + g.length + 2 + t.length + 2⟩ :: more).IsChain
        (fun a b => a.isExpression ∨ b.isExpression) :=
      List.isChain_cons.2 ⟨fun _ _ => .inl rfl, hchain⟩
    have hmore' : ∀ v, .text v ∈ Element.expression t.trim expr
        ⟨o + g.length, o + g.length + 2 + t.length + 2⟩ :: more → v ≠ [] := by
      intro v hv
      exact hmore v ((List.mem_cons.1 hv).resolve_left nofun)
    obtain h | ⟨h, hne⟩ := ofText_cases value
    · rw [h]; exact ⟨hchain', hmore'⟩
    · rw [h]
      refine ⟨List.isChain_cons.2 ⟨?_, hchain'⟩, fun v hv => ?_⟩
      · rintro _ ⟨⟩
        exact .inr rfl
      · obtain hv | hv := List.mem_cons.1 hv
        · cases hv; exact hne
        · exact hmore' v hv

/-- The elements of a template account for every character: its source is cut at the expressions in
one way, each expression stands in its own braces, all other opening braces are escaped, and the
elements are the expressions with the unescaped gaps between them, save the empty ones. -/
theorem parse_cut {source maxLength limit els} (h : parse source maxLength limit = .ok els) :
    ∃ gaps, Cut 0 source (els.filterMap span?) gaps ∧
      (∀ gaps', Cut 0 source (els.filterMap span?) gaps' → gaps' = gaps) ∧
      (∀ p ∈ els.filterMap span?, Enclosed source p) ∧ (∀ g ∈ gaps, Gap.Escaped g) ∧
      els = interleave gaps (els.filter isExpression) ∧
      els.IsChain (fun a b => a.isExpression ∨ b.isExpression) ∧
      ∀ value, .text value ∈ els → value ≠ [] := by
  have hsplits := parse_splits h
  obtain ⟨gaps, hcut, hescaped, hels⟩ := hsplits.cut
  exact ⟨gaps, hcut, fun _ => hcut.unique, fun _ => hsplits.enclosed, hescaped, hels,
    hsplits.texts⟩

theorem parse_cut_escaped :
    parse "\\\x7b\x7ba\x7b\x7b1\x7d\x7d" none none =
      .ok [.text "\x7b\x7ba",
        .expression "1" (.literal ⟨6, 7⟩ (.integer ⟨1, by decide⟩) "1") ⟨4, 9⟩] ∧
    ∃ gaps, Cut 0 "\\\x7b\x7ba\x7b\x7b1\x7d\x7d" [⟨4, 9⟩] gaps ∧
      Enclosed "\\\x7b\x7ba\x7b\x7b1\x7d\x7d" ⟨4, 9⟩ ∧ ∀ g ∈ gaps, Gap.Escaped g := by
  have hgap : Gap.Skips ("\x7b\x7b" ++ ("1" ++ ("\x7d\x7d" ++ ([] : Text))))
      ("\\\x7b\x7b" ++ "a") ("\x7b\x7b" ++ "a") :=
    .escape (.unit (by decide) (by decide) .done)
  have hspelled : Spelled 6 "1" [⟨.number "1", "1", ⟨6, 7⟩⟩] := .single ⟨_, _, rfl, rfl⟩ rfl
  have hderives : Derives 0 [⟨.number "1", "1", ⟨6, 7⟩⟩]
      (Level.primary.phrase (.literal ⟨6, 7⟩ (.integer ⟨1, by decide⟩) "1")) := .literal rfl
  have hwithin : Within (effective none) (1 + 0) := within_none
  have hsplits := Splits.expression (o := 0) hgap hspelled hderives.lower_pipeline hwithin
    (.text .done)
  have h : parse "\\\x7b\x7ba\x7b\x7b1\x7d\x7d" none none = .ok [.text "\x7b\x7ba",
      .expression "1" (.literal ⟨6, 7⟩ (.integer ⟨1, by decide⟩) "1") ⟨4, 9⟩] :=
    parseFrom_iff.2 hsplits
  obtain ⟨gaps, hcut, -, henclosed, hescaped, -⟩ := parse_cut h
  exact ⟨h, gaps, hcut, henclosed _ (List.mem_singleton.2 rfl), hescaped⟩

end Element

end Stencil
