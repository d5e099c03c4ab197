import Stencil.Proofs.Expr.Analysis
import Stencil.Proofs.Grammar.Origin
import Stencil.Proofs.Registry.Name
import Stencil.Proofs.Template.Span
import Stencil.Proofs.Text.Lines
import Stencil.Template.Description

/-!
# The lines of a description

A description has the lines of its elements, one after the other. Texts are quoted, so theirs is one
line. An expression is written as it stands in the template, so its line feeds are in the description.
Main statement: `Template.description_lines`. It rests on where the parts of a line come from: the names
have no line feeds, and what an expression refers to stands in its text.
-/

namespace Stencil

/-- Names have no line feeds. -/
lemma Text.lineFeeds_name {name : Text} (h : name.isName) : name.lineFeeds = 0 := by
  cases name with
  | nil => rfl
  | cons u rest =>
    rw [isName, Bool.and_eq_true, List.all_eq_true] at h
    rw [lineFeeds_eq_zero]
    intro hmem
    obtain rfl | hmem := List.mem_cons.1 hmem
    · exact absurd h.1 (by decide)
    · exact absurd (h.2 _ hmem) (by decide)

namespace Reading

variable {w path : Text}

/-- The identifier of a node stands in its lexeme. -/
lemma infix_of_reads {id : Text} (h : Reads w (.reference (.node id) path)) : id <:+: w := by
  obtain ⟨rest, rfl, href⟩ := reference_of_reads h
  obtain ⟨source, hsource, after, -, -, -, hafter⟩ | ⟨after, rfl, -, hnode⟩ := reference_iff.1 href
  · obtain ⟨-, heq⟩ := path_iff.1 hafter
    obtain ⟨rfl, -⟩ := Lexeme.reference.inj (congrArg Reading.lexeme heq)
    exact absurd hsource (by simp [worded])
  · obtain ⟨quote, id, after, -, -, -, rfl, hafter⟩ := node_iff.1 hnode
    obtain ⟨-, heq⟩ := path_iff.1 hafter
    obtain ⟨hid, -⟩ := Lexeme.reference.inj (congrArg Reading.lexeme heq)
    rw [DataSource.node.inj hid, node_append]
    exact ⟨"$node(" ++ [quote], quote :: ')' :: after, by simp; rfl⟩

/-- The label of a reference has no line feeds that are not in the lexeme. -/
lemma lineFeeds_reference {source : DataSource} (h : Reads w (.reference source path))
    (hw : w.lineFeeds = 0) : (source.reference path).lineFeeds = 0 := by
  have hpath (hpath : path = [] ∨ Path path) : path.lineFeeds = 0 := by
    rw [Text.lineFeeds_eq_zero]
    obtain rfl | hpath := hpath
    · exact List.not_mem_nil
    · exact fun hmem => absurd (hpath.units _ hmem) (by decide)
  have hlabel : source.label.lineFeeds = 0 ∧ path.lineFeeds = 0 := by
    obtain ⟨hsource, hp⟩ | ⟨quote, id, rfl, -, -, -, hp⟩ := cases_of_reads h
    · have hlabels : ∀ source ∈ worded, source.label.lineFeeds = 0 := by decide
      exact ⟨hlabels source hsource, hpath (hp.imp_left And.left)⟩
    · have hid : id.lineFeeds = 0 := Text.lineFeeds_eq_zero.2 fun hmem =>
        Text.lineFeeds_eq_zero.1 hw ((infix_of_reads h).subset hmem)
      refine ⟨?_, hpath hp⟩
      rw [DataSource.label, Text.lineFeeds_append, Text.lineFeeds_append, hid]
      rfl
  rw [DataSource.reference, DataSource.pathLabel]
  split
  · exact hlabel.1
  · rw [Text.lineFeeds_append, Text.lineFeeds_append, hlabel.1, hlabel.2]
    rfl

end Reading

/-- The lexemes of a text stand in it. -/
lemma Spelled.infix_raw {o t ts} (h : Spelled o t ts) : ∀ x ∈ ts, x.raw <:+: t := by
  induction h with
  | blank => exact nofun
  | @token o gap u w l rest ts _ _ _ _ ih =>
    refine List.forall_mem_cons.2 ⟨⟨gap, rest, by simp⟩, fun x hx => (ih x hx).trans ?_⟩
    exact ⟨gap ++ u :: w, [], by simp⟩

namespace Expr

/-- The functions of an expression have names. -/
lemma Printable.isName_functions {e : Expr} {name : Text} (h : e.Printable)
    (hname : name ∈ e.analyze.functions) : name.isName := by
  rw [functions_analyze, List.mem_mergeSort, List.mem_eraseDups] at hname
  obtain ⟨call, hcall, rfl⟩ := List.mem_map.1 hname
  obtain ⟨x, hx, hcall⟩ := List.mem_flatMap.1 hcall
  exact ((h.node hx).callSites call hcall).1

end Expr

namespace Element

/-- The element is text, or an expression on one line. -/
def OnOneLine : Element → Prop
  | .text _ => True
  | .expression source _ _ => ('\n' : CodeUnit) ∉ source

variable {source : Text} {maxLength limit : Option Quantity} {els : List Element}

/-- The references of an expression have no line feeds that are not in its text. -/
lemma lineFeeds_references {inner : Text} {expr : Expr} {span : Span}
    (h : parse source maxLength limit = .ok els) (hmem : .expression inner expr span ∈ els)
    (hinner : inner.lineFeeds = 0) : ∀ r ∈ expr.analyze.references, r.lineFeeds = 0 := by
  intro r hr
  rw [Expr.references_analyze, List.mem_eraseDups, List.mem_map] at hr
  obtain ⟨x, hx, rfl⟩ := hr
  obtain ⟨pre, t, after, ts, n, -, rfl, -, -, ht, hts, -⟩ := (parse_splits h).of_mem hmem
  obtain ⟨lead, core, trail, rfl, hlead, htrail, hcore, hne, hhead, hlast⟩ := ht.core hts.ne_nil
  rw [Text.trim_core (fun v hv => CodeUnit.isBlank_of_isSpace (hlead v hv))
    (fun v hv => CodeUnit.isBlank_of_isSpace (htrail v hv)) hne hhead hlast] at hinner
  obtain ⟨token, htoken, hlexeme⟩ := hts.named expr (List.mem_singleton.2 rfl) x hx
  have hread := hcore.reads token htoken
  rw [hlexeme] at hread
  refine Reading.lineFeeds_reference hread (Text.lineFeeds_eq_zero.2 fun hmem => ?_)
  exact Text.lineFeeds_eq_zero.1 hinner ((hcore.infix_raw token htoken).subset hmem)

lemma lineFeeds_named {heading : Text} {names : List Text} (hheading : heading.lineFeeds = 0)
    (hnames : ∀ name ∈ names, name.lineFeeds = 0) : (named heading names).lineFeeds = 0 := by
  rw [named]
  split
  · rfl
  · have hsum : (names.map fun t => t.lineFeeds + Text.lineFeeds ", ").sum = 0 :=
      List.sum_eq_zero_iff_forall_eq_nat.2 (List.forall_mem_map.2 hnames)
    simp only [Text.lineFeeds_append, Text.lineFeeds_join, hheading, hsum]
    rfl

/-- Of an expression without calls no functions are listed. -/
lemma description_of_callNames {inner : Text} {expr : Expr} (span : Span) (h : expr.callNames = []) :
    (Element.expression inner expr span).description =
      "expression " ++ braced inner ++ named "refs" expr.analyze.references := by
  rw [description, Expr.functions_analyze, h, List.eraseDups_nil, List.mergeSort_nil]
  exact List.append_nil _

/-- An element is described on one line exactly if it is on one line in the template. -/
theorem lineFeeds_description {e : Element} (h : parse source maxLength limit = .ok els) (he : e ∈ els) :
    e.description.lineFeeds = 0 ↔ e.OnOneLine := by
  cases e with
  | text value =>
    refine iff_of_true ?_ trivial
    rw [description, Text.lineFeeds_append, Text.lineFeeds_quote]
    rfl
  | expression inner expr span =>
    have hparsed : expr.Parsed := .inr ⟨source, maxLength, limit, els, inner, span, h, he⟩
    have hfunctions : (named "fns" expr.analyze.functions).lineFeeds = 0 :=
      lineFeeds_named rfl fun name hname => Text.lineFeeds_name (hparsed.printable.isName_functions hname)
    have hmarks : Text.lineFeeds "expression " = 0 ∧ Text.lineFeeds "\x7b\x7b " = 0 ∧
        Text.lineFeeds " \x7d\x7d" = 0 := ⟨rfl, rfl, rfl⟩
    have hsource : (Element.expression inner expr span).description.lineFeeds =
        inner.lineFeeds + (named "refs" expr.analyze.references).lineFeeds := by
      simp only [description, braced, Text.lineFeeds_append, hfunctions, hmarks]
      omega
    rw [hsource, OnOneLine, ← Text.lineFeeds_eq_zero]
    constructor
    · exact fun h => (Nat.add_eq_zero_iff.1 h).1
    · intro hinner
      rw [hinner, lineFeeds_named rfl (lineFeeds_references h he hinner)]

end Element

namespace Template

variable {source : Text} {functions : Registry} {limits : Limits} {t : Template}

/-- The lines of a description are those of the elements in order, and a single empty one if there are
none. The line of an element is one exactly if the element is text or an expression without line feeds,
so there is one line for each element exactly if no expression has line feeds. -/
theorem description_lines (h : parse source functions limits = .ok t) :
    t.description.split '\n' =
      (if t.elements.isEmpty then [[]] else t.elements.flatMap fun e => e.description.split '\n') ∧
    (∀ e ∈ t.elements, e.description.split '\n' = [e.description] ↔ e.OnOneLine) ∧
    ((t.description.split '\n').length = max 1 t.elements.length ↔
      ∀ e ∈ t.elements, e.OnOneLine) := by
  have hfeeds (e : Element) (he : e ∈ t.elements) : e.description.lineFeeds = 0 ↔ e.OnOneLine :=
    Element.lineFeeds_description (elements_of_parse h) he
  have hlines : t.elements ≠ [] → t.description.split '\n' =
      (t.elements.map Element.description).flatMap (Text.split '\n') :=
    fun hne => Text.split_join_flatMap '\n' (mt List.map_eq_nil_iff.1 hne)
  refine ⟨?_, fun e he => ?_, ?_⟩
  · split
    · next hnil => rw [description, List.isEmpty_iff.1 hnil]; rfl
    · next hne => rw [hlines (mt List.isEmpty_iff.2 hne), List.flatMap_map]
  · rw [← hfeeds e he]
    constructor
    · intro hone
      have hlength := Text.length_split '\n' e.description
      rw [hone] at hlength
      exact (Nat.succ.inj hlength).symm
    · exact Text.split_of_lineFeeds
  · by_cases hnil : t.elements = []
    · rw [description, hnil]
      exact iff_of_true rfl nofun
    · have hne : t.elements.map Element.description ≠ [] := mt List.map_eq_nil_iff.1 hnil
      have hcount := Text.length_lines_iff hne
      rw [List.length_map, List.forall_mem_map] at hcount
      rw [Nat.max_eq_right (List.length_pos_iff.2 hnil)]
      exact hcount.trans (forall₂_congr hfeeds)

/-- An expression with a node whose identifier has a line feed takes three lines, as the label of the
node is on the line as well. -/
theorem description_lines_node :
    let source : Text := "\x7b\x7b$node('a\nb')\x7d\x7d"
    let e : Element := .expression "$node('a\nb')" (.access ⟨2, 14⟩ (.node "a\nb") []) ⟨0, 16⟩
    let t : Template := ⟨source, [e], .unbound, {}⟩
    let first : Text := "expression \x7b\x7b $node('a"
    let second : Text := "b') \x7d\x7d  refs: $node('a"
    let third : Text := "b')"
    parse source .unbound {} = .ok t ∧ t.description.split '\n' = [first, second, third] ∧
    ¬ e.OnOneLine ∧ (t.description.split '\n').length ≠ max 1 t.elements.length := by
  intro source e t first second third
  have hread : Reads "$node('a\nb')" (.reference (.node "a\nb") []) := ⟨_, _, rfl, rfl⟩
  have hspelled := Spelled.single (o := 2) hread rfl
  have hderives : Derives 0 [⟨.reference (.node "a\nb") [], "$node('a\nb')", ⟨2, 14⟩⟩]
      (Level.primary.phrase (.access ⟨2, 14⟩ (.node "a\nb") [])) := .access
  have hsplits : Element.Splits none 0 source [e] :=
    .expression .done hspelled hderives.lower_pipeline within_none (.text .done)
  have hels : Element.parse source none none = .ok [e] := Element.parseFrom_iff.2 hsplits
  have hparse : parse source .unbound {} = .ok t := congrArg (Except.map _) hels
  obtain ⟨hlines, -, hcount⟩ := description_lines hparse
  have hdescription : e.description = first ++ "\n" ++ second ++ "\n" ++ third :=
    Element.description_of_callNames ⟨0, 16⟩ rfl
  have hline : ¬ e.OnOneLine := not_not_intro (by decide)
  have hthree : e.description.split '\n' ++ [] = [first, second, third] := by
    rw [hdescription]
    rfl
  refine ⟨hparse, hlines.trans hthree, hline, fun h => hline ?_⟩
  exact hcount.1 h e (List.mem_singleton.2 rfl)

/-- One element may take two lines: white space inside of an expression stays as it is. -/
theorem description_two_lines :
    let source : Text := "\x7b\x7b1\n+ 2\x7d\x7d"
    let one : Expr := .literal ⟨2, 3⟩ (.integer ⟨1, by decide⟩) "1"
    let two : Expr := .literal ⟨6, 7⟩ (.integer ⟨2, by decide⟩) "2"
    let e : Element := .expression "1\n+ 2" (.binary ⟨2, 7⟩ .add one two) ⟨0, 9⟩
    let t : Template := ⟨source, [e], .unbound, {}⟩
    let first : Text := "expression \x7b\x7b 1"
    let second : Text := "+ 2 \x7d\x7d"
    parse source .unbound {} = .ok t ∧ t.description.split '\n' = [first, second] ∧
    (t.description.split '\n').length ≠ max 1 t.elements.length := by
  intro source one two e t first second
  have hspelled : Spelled 2 "1\n+ 2" [⟨.number "1", "1", ⟨2, 3⟩⟩, ⟨.sign .plus, "+", ⟨4, 5⟩⟩,
      ⟨.number "2", "2", ⟨6, 7⟩⟩] :=
    @Spelled.token 2 [] '1' [] (.number "1") "\n+ 2" _ nofun rfl rfl <|
    @Spelled.token 3 "\n" '+' [] (.sign .plus) " 2" _ (Text.forall_mem (by decide)) rfl rfl <|
    @Spelled.token 5 " " '2' [] (.number "2") [] _ (Text.forall_mem (by decide)) rfl rfl <| .blank nofun
  have hone : Derives 0 [⟨.number "1", "1", ⟨2, 3⟩⟩] (.operand BinaryOp.add.level one) :=
    .lower_levels (.factor (.atom (.literal rfl))) (by decide) Nat.le.refl
  have htwo : Derives 0 [⟨.number "2", "2", ⟨6, 7⟩⟩] (.operand (BinaryOp.add.level + 1) two) :=
    .lower_levels (.factor (.atom (.literal rfl))) (by decide) Nat.le.refl
  have hderives := Derives.binary (t := ⟨.sign .plus, "+", ⟨4, 5⟩⟩) rfl hone htwo
  have hpipeline := Derives.lower_pipeline (l := .operand ⟨BinaryOp.add.level, by decide⟩) hderives
  have hsplits : Element.Splits none 0 source [e] :=
    .expression .done hspelled hpipeline within_none (.text .done)
  have hels : Element.parse source none none = .ok [e] := Element.parseFrom_iff.2 hsplits
  have hdescription : t.description = first ++ "\n" ++ second :=
    Element.description_of_callNames ⟨0, 9⟩ rfl
  have hlines : t.description.split '\n' = [first, second] := by
    rw [hdescription]
    rfl
  refine ⟨congrArg (Except.map _) hels, hlines, ?_⟩
  rw [hlines]
  decide

end Template

end Stencil
