import Stencil.Proofs.DataSource
import Stencil.Proofs.Expr.Analysis
import Stencil.Proofs.Print.Label
import Stencil.Proofs.Validation.Issues

/-!
# All walks see the same nodes

Dependencies, analyses and validations go through expressions in ways of their own. Main statement:
`walks_agree`: what they find are the references and calls of the nodes that a traversal enters.
-/

namespace Stencil

namespace DataSource

/-- The path of a reference to the input. -/
def inputPath? : DataSource × Text → Option Text
  | (.input, path) => some path
  | _ => none

/-- The identifier of a reference to a node. -/
def nodeId? : DataSource × Text → Option Text
  | (.node id, _) => some id
  | _ => none

/-- The name of a reference to an environment variable. -/
def envName? : DataSource × Text → Option Text
  | (.environment, name) => some name
  | _ => none

end DataSource

/-- No path of a reference has a single quote. -/
def Expr.Plain (e : Expr) : Prop := ∀ read ∈ e.reads, CodeUnit.ofBasic '\'' ∉ read.2

namespace Dependencies

/-- All dependencies of the one are dependencies of the other. -/
structure Within (d d' : Dependencies) : Prop where
  reference {source : DataSource} {path : Text} : d.Has source path → d'.Has source path
  function {name : Text} : name ∈ d.functions → name ∈ d'.functions

/-- The dependencies are those of all the others, and no more. -/
structure IsUnion (d : Dependencies) (ds : List Dependencies) : Prop where
  reference {source : DataSource} {path : Text} : d.Has source path ↔ ∃ d' ∈ ds, d'.Has source path
  function {name : Text} : name ∈ d.functions ↔ ∃ d' ∈ ds, name ∈ d'.functions

end Dependencies

open Dependencies in
/-- The walks over the expressions find what their nodes are, in the order of a traversal. -/
structure WalksAgree (es : List Expr) : Prop where
  functions : (of es).functions = (es.flatMap Expr.callNames).eraseDups
  analyzed (name : Text) : name ∈ (of es).functions ↔ ∃ e ∈ es, name ∈ e.analyze.functions
  /-- A template of these expressions is checked for these calls, and in an empty registry exactly the
  functions among the dependencies are missed. -/
  validated (t : Template) (r : Rules) : t.exprs = es →
    (t.validate r).counts.calls = (es.flatMap Expr.callNames).length ∧
    ((r.registry.getD t.functions).entries = [] → ∀ name,
      (∃ i ∈ (t.validate r).issues, ∃ bound, i.violation = .unknownFunction name bound) ↔
        name ∈ (of es).functions)
  inputPaths : (of es).inputPaths =
    ((es.flatMap Expr.reads).filterMap DataSource.inputPath?).eraseDups
  nodes : (of es).nodes = ((es.flatMap Expr.reads).filterMap DataSource.nodeId?).eraseDups
  environment : (of es).environment =
    ((es.flatMap Expr.reads).filterMap DataSource.envName?).eraseDups
  system : (of es).system = true ↔ ∃ path, (.system, path) ∈ es.flatMap Expr.reads
  execution : (of es).execution = true ↔ ∃ path, (.execution, path) ∈ es.flatMap Expr.reads
  workflow : (of es).workflow = true ↔ ∃ path, (.workflow, path) ∈ es.flatMap Expr.reads
  /-- An analysis lists what is written for the references, each text once. -/
  references (e : Expr) :
    e.analyze.references = (e.reads.map fun read => read.1.reference read.2).eraseDups
  /-- Where no path has a single quote, these are as many as pairs of a source and a path. -/
  distinct (e : Expr) : e.Plain →
    e.analyze.references = e.reads.eraseDups.map (fun read => read.1.reference read.2) ∧
      e.analyze.references.Nodup
  plain (e : Expr) : e.Parsed → e.Plain
  idempotent (d : Dependencies) (e : Expr) : collect (collect d e) e = collect d e
  grows (d : Dependencies) (e : Expr) : d.Within (collect d e)
  /-- Only which expressions there are matters, not in which order. -/
  reordered (d : Dependencies) (es' : List Expr) : (∀ e, e ∈ es ↔ e ∈ es') →
    (es.foldl collect d).Within (es'.foldl collect d) ∧
      (es'.foldl collect d).Within (es.foldl collect d)
  /-- The expressions may be collected in groups. -/
  grouped (d : Dependencies) (groups : List (List Expr)) : (∀ e, e ∈ es ↔ e ∈ groups.flatten) →
    (es.foldl collect d).IsUnion (d :: groups.map of)
  template (t : Template) : t.exprs = es → t.dependencies.IsUnion (es.map fun e => of [e])

/-- Where a path has a single quote, two references can be written alike and are listed as one. No
source is read as such a path. -/
theorem references_alike :
    let e : Expr := .binary ⟨0, 0⟩ .add (.access ⟨0, 0⟩ (.node "x") "a').b")
      (.access ⟨0, 0⟩ (.node "x').a") "b")
    ¬ e.Plain ∧ e.analyze.references = ["$node('x').a').b"] ∧
      e.analyze.references ≠ e.reads.eraseDups.map fun read => read.1.reference read.2 := by
  intro e
  have hreads : e.reads = ([(.node "x", "a').b"), (.node "x').a", "b")] : List (DataSource × Text)) := rfl
  have hreferences : e.analyze.references = ["$node('x').a').b"] := by
    rw [Expr.references_analyze, hreads]
    decide
  refine ⟨fun hplain => ?_, hreferences, ?_⟩
  · exact hplain (.node "x", "a').b") (hreads ▸ List.mem_cons_self) (by decide)
  · rw [hreferences, hreads]
    decide

namespace Expr

/-- The paths of parsed references are names and points. -/
lemma Parsed.plain {e : Expr} (h : e.Parsed) : e.Plain := by
  rintro ⟨source, path⟩ hread
  obtain ⟨span, hx⟩ := mem_reads.1 hread
  cases h.printable.node hx with
  | access hreads =>
    have hpath : path = [] ∨ Reading.Path path := by
      obtain ⟨-, h | h⟩ | ⟨_, _, -, -, -, -, h⟩ := Reading.cases_of_reads hreads
      · exact .inl h.1
      · exact .inr h
      · exact h
    obtain rfl | hpath := hpath
    · exact List.not_mem_nil
    · exact fun hquote => absurd (hpath.units _ hquote) (by decide)

/-- References without single quotes in their paths are listed once for each pair. -/
lemma references_of_plain {e : Expr} (h : e.Plain) :
    e.analyze.references = e.reads.eraseDups.map fun read => read.1.reference read.2 := by
  rw [references_analyze]
  apply eraseDups_map
  intro read hread read' hread' heq
  obtain ⟨hsource, hpath⟩ := (DataSource.reference_inj (h read hread) (h read' hread')).1 heq
  exact Prod.ext hsource hpath

lemma mem_functions_analyze {e : Expr} {name : Text} :
    name ∈ e.analyze.functions ↔ name ∈ e.callNames := by
  rw [functions_analyze, List.mem_mergeSort, List.mem_eraseDups]

end Expr

namespace Template

lemma map_calls (t : Template) : t.calls.map CallSite.name = t.exprs.flatMap Expr.callNames := by
  rw [calls, nodes, List.flatMap_assoc, List.map_flatMap]
  rfl

lemma calls_validate (t : Template) (r : Rules) : (t.validate r).counts.calls = t.calls.length := by
  rw [calls, ← nodes_eq]
  rfl

/-- In an empty registry every function that is called is unknown. -/
lemma reports_unknown {t : Template} {r : Rules}
    (h : (r.registry.getD t.functions).entries = []) {name : Text} :
    (∃ i ∈ (t.validate r).issues, ∃ bound, i.violation = .unknownFunction name bound) ↔
      name ∈ t.calls.map CallSite.name := by
  constructor
  · rintro ⟨i, hi, bound, hv⟩
    obtain hi | hi | hi | hi | hi := mem_issues.1 hi
    · obtain ⟨_, _, hv'⟩ := Rules.exists_of_mem_nodeIssues hi
      cases hv.symm.trans hv'
    · obtain ⟨visits, -, hi⟩ := List.mem_flatMap.1 hi
      obtain ⟨_, _, hv'⟩ := Rules.exists_of_mem_depthIssues hi
      cases hv.symm.trans hv'
    · obtain ⟨_, _, _, _, -, -, rfl⟩ := Rules.mem_operatorIssues.1 hi
      cases hv
    · obtain ⟨call, hcall, v, rfl, hname | harity⟩ := Rules.exists_of_mem_callIssues hi
      · obtain rfl : v = .unknownFunction name bound := hv
        obtain ⟨-, h⟩ | ⟨-, h⟩ | ⟨-, h⟩ := Rules.mem_nameViolations.1 hname
        · cases h
        · cases h
        · cases h
          exact List.mem_map_of_mem hcall
      · obtain ⟨_, _, -, -, -, rfl⟩ := Rules.arityViolation?_eq_some.1 harity
        cases hv
    · obtain ⟨_, hv' | hv'⟩ := Rules.exists_of_mem_sourceIssues hi
      · cases hv.symm.trans hv'
      · cases hv.symm.trans hv'
  · intro hname
    obtain ⟨call, hcall, rfl⟩ := List.mem_map.1 hname
    have hfind : (r.registry.getD t.functions).find? call.name = none := by
      rw [Registry.find?, h]
      rfl
    have hviolation : .unknownFunction call.name (r.registry.getD t.functions).bound ∈
        r.nameViolations (r.registry.getD t.functions) call.name :=
      Rules.mem_nameViolations.2 (.inr (.inr ⟨hfind, rfl⟩))
    obtain ⟨span, hi⟩ := Rules.callIssues_name hcall List.not_mem_nil hviolation
    exact ⟨_, mem_issues.2 (.inr (.inr (.inr (.inl hi)))), _, rfl⟩

end Template

namespace Dependencies

variable {es : List Expr}

/-- What is selected of references and adjoined at each node is what is selected of all of them. -/
lemma selected_of {get : Dependencies → List Text} {select : DataSource × Text → Option Text}
    (h : ∀ d x, get (note d x) = (x.ownReads.filterMap select).foldl adjoin (get d))
    (hnil : get {} = []) (es : List Expr) :
    get (of es) = ((es.flatMap Expr.reads).filterMap select).eraseDups := by
  rw [of_eq, foldl_adjoins h, hnil, foldl_adjoin, ← List.filterMap_flatMap, List.flatMap_assoc]
  rfl

/-- Each node adjoins what is selected of its reference to the lists. -/
lemma selected_note (d : Dependencies) (x : Expr) :
    (d.note x).inputPaths = (x.ownReads.filterMap DataSource.inputPath?).foldl adjoin d.inputPaths ∧
    (d.note x).nodes = (x.ownReads.filterMap DataSource.nodeId?).foldl adjoin d.nodes ∧
    (d.note x).environment =
      (x.ownReads.filterMap DataSource.envName?).foldl adjoin d.environment := by
  cases x with
  | access _ source path => cases source <;> exact ⟨rfl, rfl, rfl⟩
  | _ =>
    rw [note_eq _ rfl]
    exact ⟨rfl, rfl, rfl⟩

lemma functions_of (es : List Expr) : (of es).functions = (es.flatMap Expr.callNames).eraseDups := by
  rw [of_eq, foldl_adjoins functions_note, foldl_adjoin, ← List.map_flatMap, List.flatMap_assoc,
    List.map_flatMap]
  rfl

/-- A source of which no path counts is a dependency if some reference is to it. -/
lemma has_of_reads (source : DataSource) (hsource : source ≠ .input ∧ source ≠ .environment) :
    (of es).Has source [] ↔ ∃ path, (source, path) ∈ es.flatMap Expr.reads := by
  simp only [has_of, Referred, List.mem_flatMap, Expr.mem_reads]
  constructor
  · rintro ⟨span, path, ⟨e, he, hx⟩, -⟩
    exact ⟨path, e, he, span, hx⟩
  · rintro ⟨path, e, he, span, hx⟩
    exact ⟨span, path, ⟨e, he, hx⟩, fun h => (h.elim hsource.1 hsource.2).elim⟩

lemma addReference_of_has {d : Dependencies} {source : DataSource} {path : Text}
    (h : d.Has source path) : d.addReference source path = d := by
  have hsame {xs : List Text} {x : Text} (hx : x ∈ xs) : adjoin xs x = xs := adjoin_of_mem hx
  obtain ⟨inputPaths, nodes, environment, functions, system, execution, workflow⟩ := d
  cases source with
  | input => rw [addReference, hsame h]
  | node => rw [addReference, hsame h]
  | environment => rw [addReference, hsame h]
  | system => rw [addReference, show system = true from h]
  | execution => rw [addReference, show execution = true from h]
  | workflow => rw [addReference, show workflow = true from h]

/-- Noting what is covered adds nothing. -/
lemma note_of_covers {d : Dependencies} {x : Expr} (h : d.Covers x) : d.note x = d := by
  cases x with
  | access => exact addReference_of_has (h.reference rfl)
  | _ =>
    rw [note_eq _ rfl, foldl_adjoin_of_mem]
    intro name hname
    obtain ⟨call, hcall, rfl⟩ := List.mem_map.1 hname
    exact h.call hcall

lemma foldl_note_of_covers {d : Dependencies} {xs : List Expr} (h : ∀ x ∈ xs, d.Covers x) :
    xs.foldl note d = d := by
  induction xs with
  | nil => rfl
  | cons x xs ih =>
    obtain ⟨hx, hxs⟩ := List.forall_mem_cons.1 h
    rw [List.foldl_cons, note_of_covers hx, ih hxs]

/-- What is collected from the nodes depends only on which there are, and there may be more. -/
lemma within_foldl_note {xs ys : List Expr} (h : ∀ x ∈ xs, x ∈ ys) (d : Dependencies) :
    (xs.foldl note d).Within (ys.foldl note d) where
  reference hhas := by
    rw [has_foldl_note] at hhas ⊢
    exact hhas.imp_right fun ⟨span, path, hx, htells⟩ => ⟨span, path, h _ hx, htells⟩
  function hname := by
    rw [mem_functions_foldl_note] at hname ⊢
    exact hname.imp_right fun ⟨x, hx, hcall⟩ => ⟨x, h x hx, hcall⟩

lemma IsUnion.of_cons_empty {d : Dependencies} {ds : List Dependencies}
    (h : d.IsUnion ({} :: ds)) : d.IsUnion ds where
  reference := by
    intro source path
    rw [h.reference, List.exists_mem_cons_iff, or_iff_right not_has_empty]
  function := by
    intro name
    rw [h.function, List.exists_mem_cons_iff]
    exact or_iff_right List.not_mem_nil

lemma mem_nodes_of_subset {es es' : List Expr} (h : ∀ e ∈ es, e ∈ es') {x : Expr}
    (hx : x ∈ es.flatMap Expr.nodes) : x ∈ es'.flatMap Expr.nodes := by
  obtain ⟨e, he, hx⟩ := List.mem_flatMap.1 hx
  exact List.mem_flatMap.2 ⟨e, h e he, hx⟩

/-- Collecting expressions adds the dependencies of groups of them, in whichever order. -/
lemma isUnion_groups (d : Dependencies) {groups : List (List Expr)}
    (h : ∀ e, e ∈ es ↔ e ∈ groups.flatten) : (es.foldl collect d).IsUnion (d :: groups.map of) := by
  have hnodes (x : Expr) :
      x ∈ es.flatMap Expr.nodes ↔ ∃ group ∈ groups, x ∈ group.flatMap Expr.nodes := by
    simp only [List.mem_flatMap, h, List.mem_flatten]
    constructor
    · rintro ⟨e, ⟨group, hgroup, he⟩, hx⟩
      exact ⟨group, hgroup, e, he, hx⟩
    · rintro ⟨group, hgroup, e, he, hx⟩
      exact ⟨e, ⟨group, hgroup, he⟩, hx⟩
  rw [foldl_collect]
  constructor
  · intro source path
    rw [has_foldl_note, List.exists_mem_cons_iff]
    apply or_congr_right
    simp only [List.mem_map, exists_exists_and_eq_and, has_of, Referred, hnodes]
    constructor
    · rintro ⟨span, path', ⟨group, hgroup, hx⟩, htells⟩
      exact ⟨group, hgroup, span, path', hx, htells⟩
    · rintro ⟨group, hgroup, span, path', hx, htells⟩
      exact ⟨span, path', ⟨group, hgroup, hx⟩, htells⟩
  · intro name
    rw [mem_functions_foldl_note, List.exists_mem_cons_iff]
    apply or_congr_right
    simp only [List.mem_map, exists_exists_and_eq_and, mem_functions_of, Called, hnodes]
    constructor
    · rintro ⟨x, ⟨group, hgroup, hx⟩, hcall⟩
      exact ⟨group, hgroup, x, hx, hcall⟩
    · rintro ⟨group, hgroup, x, hx, hcall⟩
      exact ⟨x, ⟨group, hgroup, hx⟩, hcall⟩

end Dependencies

open Dependencies in
/-- All walks over expressions see the nodes that a traversal enters. -/
theorem walks_agree (es : List Expr) : WalksAgree es where
  functions := functions_of es
  analyzed name := by
    rw [functions_of, List.mem_eraseDups, List.mem_flatMap]
    simp only [Expr.mem_functions_analyze]
  validated := by
    rintro t r rfl
    rw [functions_of, ← t.map_calls, t.calls_validate, List.length_map]
    refine ⟨rfl, fun hempty name => ?_⟩
    rw [List.mem_eraseDups, Template.reports_unknown hempty]
  inputPaths := selected_of (fun d x => (selected_note d x).1) rfl es
  nodes := selected_of (fun d x => (selected_note d x).2.1) rfl es
  environment := selected_of (fun d x => (selected_note d x).2.2) rfl es
  system := has_of_reads .system ⟨nofun, nofun⟩
  execution := has_of_reads .execution ⟨nofun, nofun⟩
  workflow := has_of_reads .workflow ⟨nofun, nofun⟩
  references := Expr.references_analyze
  distinct e hplain := by
    refine ⟨Expr.references_of_plain hplain, ?_⟩
    rw [Expr.references_analyze]
    exact nodup_eraseDups _
  plain _ := Expr.Parsed.plain
  idempotent d e := by
    rw [collect_eq_foldl, collect_eq_foldl]
    exact foldl_note_of_covers fun x hx => covers_foldl_note hx d
  grows d e := by
    rw [collect_eq_foldl]
    exact within_foldl_note (List.forall_mem_nil fun x => x ∈ e.nodes) d
  reordered d es' h := by
    rw [foldl_collect, foldl_collect]
    exact ⟨within_foldl_note (fun _ => mem_nodes_of_subset fun e => (h e).1) d,
      within_foldl_note (fun _ => mem_nodes_of_subset fun e => (h e).2) d⟩
  grouped d groups := isUnion_groups d
  template := by
    rintro t rfl
    have hgroups : ∀ e, e ∈ t.exprs ↔ e ∈ (t.exprs.map fun e => [e]).flatten := by simp
    have hunion := (isUnion_groups {} hgroups).of_cons_empty
    rw [List.map_map, ← collectAll_eq] at hunion
    exact hunion

open Dependencies in
theorem walks_agree_quotes :
    let e : Expr := .access ⟨0, 14⟩ (.node "a').b") []
    let x : Expr := .pipeline ⟨0, 52⟩
      (.call ⟨0, 30⟩ "g" [e, .access ⟨18, 28⟩ (.node "a") "b"])
      [.mk ⟨33, 52⟩ "f" [.access ⟨35, 41⟩ .environment "X", e]]
    let t : Template := ⟨[], [.expression [] x ⟨0, 56⟩], .unbound, {}⟩
    Expr.parse "$node(\"a').b\")" none = .ok e ∧ e.Plain ∧ x.Plain ∧
    x.analyze.references = ["$node('a').b')", "$node('a').b", "$env.X"] ∧
    (of t.exprs).functions = ["f", "g"] ∧
    ∃ i ∈ (t.validate {}).issues, ∃ bound, i.violation = .unknownFunction "g" bound := by
  intro e x t
  have hparse : Expr.parse "$node(\"a').b\")" none = .ok e := Expr.parse_of_reads ⟨_, _, rfl, rfl⟩
  have hplain : x.Plain := by
    intro read hread
    change read ∈ [(DataSource.node "a').b", []), (.node "a", "b"), (.environment, "X"),
      (.node "a').b", [])] at hread
    simp only [List.mem_cons, List.not_mem_nil, or_false] at hread
    obtain rfl | rfl | rfl | rfl := hread <;> decide
  have hagree := walks_agree t.exprs
  obtain ⟨hreferences, -⟩ := hagree.distinct x hplain
  have hfunctions : (of t.exprs).functions = ["f", "g"] := hagree.functions
  obtain ⟨-, hunknown⟩ := hagree.validated t {} rfl
  refine ⟨hparse, hagree.plain e (.inl ⟨_, none, hparse⟩), hplain, hreferences.trans rfl,
    hfunctions, ?_⟩
  rw [hunknown rfl, hfunctions]
  decide

end Stencil
