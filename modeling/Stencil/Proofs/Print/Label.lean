import Stencil.Proofs.Eval.Report
import Stencil.Proofs.Expr.Analysis
import Stencil.Proofs.Print.Parsed

/-!
# References as they are reported

Analyses and diagnostics write a reference as the label of its source and the path. Main statement:
`Expr.labels_read`: what is written so is an expression that is the reference again, unless it is to a
node with a single quote in its identifier or with `json.` at the beginning of its path.
-/

namespace Stencil

lemma DataSource.reference_eq {source : DataSource} {path : Text} (h : path ≠ []) :
    source.reference path = source.pathLabel path := by
  rw [reference, List.isEmpty_eq_false_iff.2 h, if_neg Bool.false_ne_true]

namespace Context

variable {source : DataSource} {path : Text} {miss : Miss}

lemma path_of_descend {v : Value} {available : List Text}
    (h : descend v source path available = .error miss) : miss.path = source.reference path := by
  unfold descend at h
  split at h
  · cases h
  · next hnone =>
    cases h
    refine (DataSource.reference_eq ?_).symm
    rintro rfl
    cases hnone

lemma path_of_lookUp {store : Table Value} (h : lookUp store source path = .error miss) :
    miss.path = source.reference path := by
  unfold lookUp at h
  split at h
  · cases h
  · next hne =>
    split at h
    · cases h
    · cases h
      exact (DataSource.reference_eq (mt List.isEmpty_iff.2 hne)).symm

/-- Where a source has data, a reference that does not resolve is reported as it is written. -/
lemma path_of_resolve {c : Context} (hsource : c.has source)
    (hpath : source = .environment → path ≠ []) (h : c.resolve source path = .error miss) :
    miss.path = source.reference path := by
  cases source with
  | input =>
    rw [resolve] at h
    split at h
    · exact path_of_descend h
    · next hnone => rw [has, hnone] at hsource; cases hsource
  | node id =>
    rw [resolve] at h
    split at h
    · exact path_of_descend h
    · next hnone => rw [has, Table.has, hnone] at hsource; cases hsource
  | system => exact path_of_descend h
  | execution => exact path_of_lookUp h
  | workflow => exact path_of_lookUp h
  | environment =>
    rw [resolve] at h
    split at h
    · cases h
    · cases h
      exact (DataSource.reference_eq (hpath rfl)).symm

end Context

/-- If the reference is to a node, its identifier has no single quote, and its path does not begin
with `json.`. -/
def DataSource.Faithful (source : DataSource) (path : Text) : Prop :=
  ∀ id, source = .node id → CodeUnit.ofBasic '\'' ∉ id ∧ ¬ ("json." : Text) <+: path

namespace Reading

variable {source : DataSource} {path : Text}

lemma reference_node {id : Text} : (DataSource.node id).reference path =
    "$node(" ++ ('\'' : CodeUnit) :: (id ++ ('\'' : CodeUnit) :: ')' ::
      if path.isEmpty then [] else ('.' : CodeUnit) :: path) := by
  have hlabel : (DataSource.node id).label =
      "$node(" ++ ('\'' : CodeUnit) :: (id ++ ('\'' : CodeUnit) :: [')']) := rfl
  rw [DataSource.reference, DataSource.pathLabel, hlabel]
  split
  · rfl
  · simp only [List.append_assoc, List.cons_append, List.nil_append]
    rfl

lemma reads_label {w} (h : Reads w (.reference source path)) (hfaithful : source.Faithful path) :
    Reads (source.reference path) (.reference source path) := by
  obtain ⟨hsource, hpath⟩ | ⟨quote, id, rfl, hquote, hid, hmem, hpath⟩ := cases_of_reads h
  · exact reads_worded hsource hpath
  · obtain ⟨hclean, hjson⟩ := hfaithful id rfl
    rw [reference_node]
    refine reads_quoted (.inl rfl) hid hclean ?_
    obtain rfl | hpath := hpath
    · rfl
    · have hdrop : Reading.dropJson path = path := by
        rw [Reading.dropJson, if_neg (mt List.isPrefixOf_iff_prefix.1 hjson)]
      rw [List.isEmpty_eq_false_iff.2 hpath.ne_nil, if_neg Bool.false_ne_true, hpath.path, hdrop,
        List.length_cons]
      congr 2
      omega

/-- A label that is read as the reference itself is faithful. -/
lemma faithful_of_reference {w rest n} (h : Reads w (.reference source path))
    (hlabel : source.reference path = ('$' : CodeUnit) :: rest)
    (href : reference rest = .ok ⟨.reference source path, n⟩) : source.Faithful path := by
  rintro id rfl
  obtain ⟨hsource, -⟩ | ⟨-, -, -, -, -, -, hpath⟩ := cases_of_reads h
  · exact absurd hsource (by simp [worded])
  rw [reference_node] at hlabel
  obtain ⟨source', hsource, after, -, -, -, hafter⟩ | ⟨after, hrest, -, hnode⟩ :=
    reference_iff.1 href
  · obtain ⟨-, heq⟩ := path_iff.1 hafter
    cases heq
    exact absurd hsource (by simp [worded])
  · obtain ⟨quote, id', after', -, -, hmem, rfl, hafter⟩ := node_iff.1 hnode
    obtain ⟨-, heq⟩ := path_iff.1 hafter
    injection heq with hlexeme
    injection hlexeme with hid hread
    injection hid with hid
    subst hid hrest
    have hquoted : ("$node(" : Text) ++ ('\'' : CodeUnit) :: (id ++ ('\'' : CodeUnit) :: ')' ::
        if path.isEmpty then [] else ('.' : CodeUnit) :: path) =
      "$node(" ++ quote :: (id ++ quote :: ')' :: after') := hlabel
    obtain ⟨rfl, hquoted⟩ := List.cons_eq_cons.1 (List.append_cancel_left hquoted)
    obtain ⟨-, htail⟩ := List.cons_eq_cons.1 (List.append_cancel_left hquoted)
    obtain ⟨-, rfl⟩ := List.cons_eq_cons.1 htail
    refine ⟨hmem, ?_⟩
    -- `json.` would have been dropped from the path
    rintro ⟨p, rfl⟩
    have hjson : Path ("json." ++ p) := hpath.resolve_left (List.cons_ne_nil _ _)
    rw [List.isEmpty_eq_false_iff.2 hjson.ne_nil, if_neg Bool.false_ne_true, hjson.pathRun,
      List.drop_one, List.tail_cons, dropJson_json] at hread
    dsimp only at hread
    have hlength := congrArg List.length hread
    have hfive : ("json." : Text).length = 5 := rfl
    rw [List.length_append, hfive] at hlength
    omega

end Reading

/-- Every label begins with a dollar. -/
lemma DataSource.reference_eq_dollar (source : DataSource) (path : Text) :
    ∃ rest, source.reference path = ('$' : CodeUnit) :: rest := by
  obtain ⟨rest, hlabel⟩ : ∃ rest, source.label = ('$' : CodeUnit) :: rest := by
    cases source <;> exact ⟨_, rfl⟩
  rw [reference, pathLabel, hlabel]
  split <;> exact ⟨_, rfl⟩

/-- Tokens that derive a reference alone are its lexeme and parentheses. -/
def Phrase.Lone (ts : List Token) : Phrase → Prop
  | .pipeline e | .ternary e | .operand _ e | .unary e | .primary e =>
    ∀ span source path, e = .access span source path → ∀ t ∈ ts,
      t.lexeme = .mark .opening ∨ t.lexeme = .mark .closing ∨ t.lexeme = .reference source path
  | .arguments _ => True
  | .stages list => list = [] → ts = []

lemma Expr.eq_access_of_piped {input : Expr} {stages : List Stage} {span source path}
    (h : input.piped stages = .access span source path) :
    stages = [] ∧ input = .access span source path := by
  unfold piped at h
  split at h
  · next hlast => exact ⟨List.getLast?_eq_none_iff.1 hlast, h⟩
  · cases h

lemma Derives.lone {n ts p} (h : Derives n ts p) : p.Lone ts := by
  induction h with
  | literal => exact nofun
  | access =>
    rintro _ _ _ ⟨⟩ t ht
    obtain rfl := List.mem_singleton.1 ht
    exact .inr (.inr rfl)
  | group _ ih =>
    intro span source path he t ht
    obtain rfl | ht := List.mem_cons.1 ht
    · exact .inl rfl
    · obtain ht | ht := List.mem_append.1 ht
      · exact ih span source path he t ht
      · obtain rfl := List.mem_singleton.1 ht
        exact .inr (.inl rfl)
  | call => exact nofun
  | conditional => exact nofun
  | noArguments => trivial
  | lastArgument => trivial
  | argument => trivial
  | atom _ ih => exact ih
  | unary => exact nofun
  | factor _ ih => exact ih
  | tighter _ _ ih => exact ih
  | binary => exact nofun
  | choice _ ih => exact ih
  | ternary => exact nofun
  | noStages => exact fun _ => rfl
  | bareStage => exact nofun
  | stage => exact nofun
  | pipeline _ _ ih ih' =>
    intro span source path he
    obtain ⟨hstages, rfl⟩ := Expr.eq_access_of_piped he
    rw [ih' hstages, List.append_nil]
    exact ih span source path rfl

/-- A text that begins with a dollar and is a reference alone begins with its lexeme. -/
lemma Expr.reference_of_parse {rest : Text} {limit span source path}
    (h : parse (('$' : CodeUnit) :: rest) limit = .ok (.access span source path)) :
    ∃ n, Reading.reference rest = .ok ⟨.reference source path, n⟩ := by
  obtain ⟨ts, n, hspelled, hts, -⟩ := parse_spelled_iff.1 h
  generalize htext : ('$' : CodeUnit) :: rest = text at hspelled
  cases hspelled with
  | blank => exact absurd rfl hts.ne_nil
  | @token o gap u w l rest' ts hgap hfirst =>
    cases gap with
    | cons v gap =>
      obtain ⟨rfl, -⟩ := List.cons_eq_cons.1 htext
      exact absurd (hgap _ List.mem_cons_self) (by decide)
    | nil =>
      obtain ⟨rfl, rfl⟩ := List.cons_eq_cons.1 htext
      rw [Reading.first_dollar] at hfirst
      obtain ⟨source', path', hl⟩ := Reading.reference_lexeme hfirst
      dsimp only at hl
      obtain hopen | hclose | href := hts.lone span source path rfl _ List.mem_cons_self
      · cases hopen.symm.trans hl
      · cases hclose.symm.trans hl
      · dsimp only at href
        rw [href] at hfirst
        exact ⟨_, hfirst⟩

namespace Expr

/-- The lexeme of a reference alone is an expression. -/
lemma parse_of_reads {w source path} (h : Reads w (.reference source path)) :
    parse w none = .ok (.access ⟨0, 0 + w.length⟩ source path) := by
  have hspelled := Spelled.single (o := 0) h rfl
  have hderives : Derives 0 [⟨.reference source path, w, ⟨0, 0 + w.length⟩⟩]
      (Level.primary.phrase (.access ⟨0, 0 + w.length⟩ source path)) := .access
  exact parse_spelled_iff.2 ⟨_, 0, hspelled, hderives.lower_pipeline, within_none⟩

/-- The label of a reference that is a lexeme is read as the reference exactly if it is faithful. -/
lemma parse_label_iff {w source path} (h : Reads w (.reference source path)) :
    (∃ span, parse (source.reference path) none = .ok (.access span source path)) ↔
      source.Faithful path := by
  constructor
  · rintro ⟨span, hparse⟩
    obtain ⟨rest, hlabel⟩ := source.reference_eq_dollar path
    rw [hlabel] at hparse
    obtain ⟨n, href⟩ := reference_of_parse hparse
    exact Reading.faithful_of_reference h hlabel href
  · intro hfaithful
    exact ⟨_, parse_of_reads (Reading.reads_label h hfaithful)⟩

/-- Analyses list the labels of the references of an expression, and where a source has data, what
does not resolve is reported by its label. The label of a parsed reference is an expression that is
the same reference alone, unless it is to a node with a single quote in its identifier or with
`json.` at the beginning of its path. -/
theorem labels_read {e : Expr} (h : e.Parsed) :
    (∀ r, r ∈ e.analyze.references ↔
      ∃ span source path, .access span source path ∈ e.nodes ∧ r = source.reference path) ∧
    ∀ span source path, .access span source path ∈ e.nodes →
      (∀ (c : Context) miss, c.has source → c.resolve source path = .error miss → ∀ text,
        ((EvalFault.unresolved miss).diagnostic text).category =
          .dataNotFound (source.reference path) miss.available) ∧
      ((∃ p, parse (source.reference path) none = .ok (.access p source path)) ↔
        ∀ id, source = .node id → CodeUnit.ofBasic '\'' ∉ id ∧ ¬ ("json." : Text) <+: path) := by
  refine ⟨fun r => mem_references, ?_⟩
  intro span source path hx
  cases h.printable.node hx with
  | access hread =>
    refine ⟨?_, parse_label_iff hread⟩
    intro c miss hsource hresolve text
    have hpath : source = .environment → path ≠ [] := by
      rintro rfl
      obtain ⟨-, hpath⟩ | ⟨_, _, hnode, -⟩ := Reading.cases_of_reads hread
      · exact hpath.elim (fun h => absurd rfl h.2) fun h => h.ne_nil
      · cases hnode
    rw [EvalFault.category_diagnostic, EvalFault.category,
      Context.path_of_resolve hsource hpath hresolve]

theorem labels_read_node :
    let e : Expr := .access ⟨0, 19⟩ (.node "a\"b") "c"
    let c : Context := ⟨none, [("a\"b", .object [])], [], [], [], []⟩
    let miss : Miss := ⟨"$node('a\"b').c", ["$node('a\"b')"]⟩
    parse "$node('a\"b').json.c" none = .ok e ∧
    ("$node('a\"b').c" : Text) ∈ e.analyze.references ∧
    c.resolve (.node "a\"b") "c" = .error miss ∧
    ((EvalFault.unresolved miss).diagnostic none).category =
      .dataNotFound "$node('a\"b').c" ["$node('a\"b')"] ∧
    ∃ p, parse "$node('a\"b').c" none = .ok (.access p (.node "a\"b") "c") := by
  intro e c miss
  have hparse : parse "$node('a\"b').json.c" none = .ok e := parse_of_reads ⟨_, _, rfl, rfl⟩
  obtain ⟨hreferences, hlabels⟩ := labels_read (.inl ⟨_, none, hparse⟩)
  obtain ⟨hreport, hread⟩ := hlabels _ _ _ e.self_mem_nodes
  have hresolve : c.resolve (.node "a\"b") "c" = .error miss := rfl
  refine ⟨hparse, ?_, hresolve, hreport c miss rfl hresolve none, ?_⟩
  · exact (hreferences _).2 ⟨_, _, _, e.self_mem_nodes, rfl⟩
  · refine hread.2 ?_
    rintro _ ⟨⟩
    decide

/-- A label with a single quote in the identifier of the node is no expression, and of a path that
begins with `json.` only the rest is read. -/
theorem labels_misread :
    let quoted : Expr := .access ⟨0, 15⟩ (.node "it's") "a"
    let dropped : Expr := .access ⟨0, 22⟩ (.node "a") "json.x"
    parse "$node(\"it's\").a" none = .ok quoted ∧
    quoted.analyze.references = ["$node('it's').a"] ∧
    (∀ e, parse "$node('it's').a" none ≠ .ok e) ∧
    parse "$node('a').json.json.x" none = .ok dropped ∧
    dropped.analyze.references = ["$node('a').json.x"] ∧
    parse "$node('a').json.x" none = .ok (.access ⟨0, 17⟩ (.node "a") "x") := by
  intro quoted dropped
  refine ⟨parse_of_reads ⟨_, _, rfl, rfl⟩, rfl, ?_, parse_of_reads ⟨_, _, rfl, rfl⟩, rfl,
    parse_of_reads ⟨_, _, rfl, rfl⟩⟩
  intro e h
  obtain ⟨ts, last, n, htokens, -⟩ := parse_iff.1 h
  have hfault : (Cursor.start "$node('it's').a" 0).tokens = ⟨[], .error _⟩ :=
    Cursor.tokens_fault rfl
  rw [hfault] at htokens
  cases htokens

end Expr

end Stencil
