import Stencil.Proofs.Eval.Relation
import Stencil.Proofs.Eval.Report
import Stencil.Proofs.Expr.Dependencies

/-!
# Missing data

A template can be checked against a context without rendering it. Main statement:
`Template.missing?_exact`: the check finds something exactly if the template refers to an input, a node
or an environment variable that the context has not, and where it finds nothing, references of a
rendering fail only below data that is there, or in the data of the system, the execution or the
workflow.
-/

namespace Stencil

namespace Context

/-- The context has no data in a source, or none under the name of an environment variable. The data
of the system, the execution and the workflow is always there. -/
def Lacks (c : Context) : DataSource → Text → Prop
  | .input, _ => c.input = none
  | .node id, _ => c.nodes.find? id = none
  | .environment, name => c.environment.find? name = none
  | _, _ => False

/-- The value that paths into the input or into a node begin at. -/
def root? (c : Context) : DataSource → Option Value
  | .input => c.input
  | .node id => c.nodes.find? id
  | _ => none

variable {c : Context} {source : DataSource} {path : Text}

/-- A reference that does not resolve is to a source without data, leads nowhere in the value of its
source, or is to the data of the system, the execution or the workflow. -/
lemma cases_of_resolve {miss : Miss} (h : c.resolve source path = .error miss) :
    c.Lacks source path ∨ (∃ v, c.root? source = some v ∧ v.navigate? path = none) ∨
      source = .system ∨ source = .execution ∨ source = .workflow := by
  have leads {v : Value} {available : List Text} (hv : c.root? source = some v)
      (hd : descend v source path available = .error miss) :
      ∃ v, c.root? source = some v ∧ v.navigate? path = none := by
    rw [descend] at hd
    split at hd
    · cases hd
    · next hnone => exact ⟨v, hv, hnone⟩
  cases source with
  | input =>
    rw [resolve] at h
    split at h
    · next v hv => exact .inr (.inl (leads hv h))
    · next hnone => exact .inl hnone
  | node id =>
    rw [resolve] at h
    split at h
    · next v hv => exact .inr (.inl (leads hv h))
    · next hnone => exact .inl hnone
  | environment =>
    rw [resolve] at h
    split at h
    · cases h
    · next hnone => exact .inl hnone
  | system => exact .inr (.inr (.inl rfl))
  | execution => exact .inr (.inr (.inr (.inl rfl)))
  | workflow => exact .inr (.inr (.inr (.inr rfl)))

end Context

namespace Template

variable {t : Template} {c : Context}

/-- A node of the template is a reference to the source with the path. -/
def RefersTo (t : Template) (source : DataSource) (path : Text) : Prop :=
  ∃ span, .access span source path ∈ t.nodes

lemma firstMissing?_eq_some {names : List Text} {present : Text → Bool} {name : Text}
    (h : firstMissing? names present = some name) : name ∈ names ∧ ¬ present name := by
  have hname := List.find?_some h
  rw [Bool.not_eq_true'] at hname
  exact ⟨List.mem_of_find?_eq_some h, Bool.eq_false_iff.1 hname⟩

lemma firstMissing?_eq_none {names : List Text} {present : Text → Bool}
    (h : firstMissing? names present = none) : ∀ name ∈ names, present name = true := by
  intro name hname
  have hpresent := List.find?_eq_none.1 h name hname
  rwa [Bool.not_eq_true, Bool.not_eq_false'] at hpresent

/-- What the check finds is a reference that the context lacks, and the path that it reports is that
of the reference. -/
lemma lacks_of_missing? {miss : Miss} (h : t.missing? c = some miss) :
    ∃ source path, t.RefersTo source path ∧ c.Lacks source path ∧
      ∃ available, c.resolve source path = .error ⟨miss.path, available⟩ := by
  rw [missing?] at h
  split at h
  · next hinput =>
    rw [Bool.and_eq_true, Bool.not_eq_true', List.isEmpty_eq_false_iff,
      Option.isNone_iff_eq_none] at hinput
    obtain ⟨hne, hnone⟩ := hinput
    cases h
    obtain ⟨path, hpath⟩ := List.exists_mem_of_ne_nil _ hne
    have hd : t.dependencies.Has .input path := hpath
    obtain ⟨span, path', hx, -⟩ := Dependencies.has_of.1 hd
    refine ⟨.input, path', ⟨span, hx⟩, hnone, ["No input data available"], ?_⟩
    rw [Context.resolve, hnone]
  · split at h
    · next id hid =>
      obtain ⟨hmem, hhas⟩ := firstMissing?_eq_some hid
      have hnone : c.nodes.find? id = none := Option.not_isSome_iff_eq_none.1 hhas
      cases h
      have hd : t.dependencies.Has (.node id) [] := hmem
      obtain ⟨span, path', hx, -⟩ := Dependencies.has_of.1 hd
      refine ⟨.node id, path', ⟨span, hx⟩, hnone,
        c.nodes.keys.map fun k => (DataSource.node k).label, ?_⟩
      rw [Context.resolve, hnone]
    · split at h
      · next name hname =>
        obtain ⟨hmem, hhas⟩ := firstMissing?_eq_some hname
        have hnone : c.environment.find? name = none := Option.not_isSome_iff_eq_none.1 hhas
        cases h
        have hd : t.dependencies.Has .environment name := hmem
        obtain ⟨span, path', hx, htells⟩ := Dependencies.has_of.1 hd
        obtain rfl := htells (.inr rfl)
        refine ⟨.environment, name, ⟨span, hx⟩, hnone,
          c.environment.keys.map DataSource.environment.pathLabel, ?_⟩
        rw [Context.resolve, hnone]
      · cases h

/-- Where the check finds nothing, the context has what the template refers to. -/
lemma not_lacks_of_missing? (h : t.missing? c = none) {source : DataSource} {path : Text}
    (ht : t.RefersTo source path) : ¬ c.Lacks source path := by
  obtain ⟨span, hx⟩ := ht
  have hd : t.dependencies.Has source path := Dependencies.has_of.2 ⟨span, path, hx, fun _ => rfl⟩
  intro hlacks
  rw [missing?] at h
  split at h
  · cases h
  · next hinput =>
    split at h
    · cases h
    · next hnodes =>
      split at h
      · cases h
      · next hnames =>
        cases source with
        | input =>
          apply hinput
          rw [Bool.and_eq_true, Bool.not_eq_true', List.isEmpty_eq_false_iff,
            Option.isNone_iff_eq_none]
          exact ⟨List.ne_nil_of_mem hd, hlacks⟩
        | node id =>
          have hhas := firstMissing?_eq_none hnodes id hd
          rw [Context.has, Table.has, hlacks] at hhas
          cases hhas
        | environment =>
          have hhas := firstMissing?_eq_none hnames path hd
          rw [Table.has, hlacks] at hhas
          cases hhas
        | _ => exact hlacks

/-- The fault is not of a reference, or it is of one of the template. -/
def OfReference (t : Template) (c : Context) (fault : EvalFault) : Prop :=
  ∀ miss, fault = .unresolved miss →
    ∃ source path, t.RefersTo source path ∧ c.resolve source path = .error miss

lemma node_ofReference {x : Expr} (hx : x ∈ t.nodes) :
    NodeRelated (fun _ m _ => m.FailsOnly (t.OfReference c)) (t.scope c) (t.scope c) x := by
  refine ⟨?_, ?_, ?_⟩
  · rintro span source path rfl
    apply Eval.FailsOnly.lift
    rintro e he _ ⟨⟩
    exact ⟨source, path, ⟨span, hx⟩, he⟩
  · intro call _
    refine ⟨?_, ?_⟩
    · exact Scope.function_failsOnly _ nofun
    · intro f args _ _
      exact Registration.invoke_failsOnly (fun _ _ => nofun) (fun _ => nofun) (fun _ _ => nofun)
  · intro _ _ _ _ _ _
    exact .throw nofun

/-- A reference that a rendering cannot resolve is one of the template. -/
lemma resolve_of_render {miss : Miss} {trace : Trace}
    (h : (t.render c).runFrom {} = (.error (.unresolved miss), trace)) :
    ∃ source path, t.RefersTo source path ∧ c.resolve source path = .error miss := by
  have hrelates :=
    relates_failsOnly (P := t.OfReference c) (t.scope c) (fun _ => nofun) (fun _ => nofun)
      (fun _ => nofun)
  have hrender : (t.render c).FailsOnly (t.OfReference c) :=
    render_related hrelates t fun _ hx => node_ofReference hx
  exact hrender _ _ _ h miss rfl

/-- The check of a template against a context is exact about missing sources, in whichever branch they
stand. Where it finds nothing, data is missing in a rendering only below an input or a node that is
there, or in the data of the system, the execution or the workflow. What it finds does not resolve
either, under the same path. -/
theorem missing?_exact (t : Template) (c : Context) :
    (t.missing? c = none ↔ ∀ source path, t.RefersTo source path → ¬ c.Lacks source path) ∧
    (t.missing? c = none → ∀ fault trace, (t.render c).runFrom {} = (.error fault, trace) →
      fault.isOwn → ∀ text path available,
        (fault.diagnostic text).category = .dataNotFound path available →
        ∃ source below, t.RefersTo source below ∧
          c.resolve source below = .error ⟨path, available⟩ ∧
          ((∃ v, c.root? source = some v ∧ v.navigate? below = none) ∨
            source = .system ∨ source = .execution ∨ source = .workflow)) ∧
    ∀ miss, t.missing? c = some miss →
      ∃ source path, t.RefersTo source path ∧
        ∃ available, c.resolve source path = .error ⟨miss.path, available⟩ := by
  refine ⟨⟨?_, ?_⟩, ?_, ?_⟩
  · intro h source path ht
    exact not_lacks_of_missing? h ht
  · intro h
    cases hmissing : t.missing? c with
    | none => rfl
    | some miss =>
      obtain ⟨source, path, ht, hlacks, -⟩ := lacks_of_missing? hmissing
      exact absurd hlacks (h source path ht)
  · intro h fault trace hrun hown text path available hcategory
    obtain rfl := EvalFault.eq_unresolved hown hcategory
    obtain ⟨source, below, ht, hresolve⟩ := resolve_of_render hrun
    have hcases := (Context.cases_of_resolve hresolve).resolve_left (not_lacks_of_missing? h ht)
    exact ⟨source, below, ht, hresolve, hcases⟩
  · intro miss h
    obtain ⟨source, path, ht, -, hresolve⟩ := lacks_of_missing? h
    exact ⟨source, path, ht, hresolve⟩

theorem missing?_exact_branch :
    let source : Text := "if(false, $input.a, $node('n').b)"
    let x : Expr := .conditional ⟨2, 35⟩ (.literal ⟨5, 10⟩ (.bool false) "false")
      (.access ⟨12, 20⟩ .input "a") (some (.access ⟨22, 34⟩ (.node "n") "b"))
    let t : Template :=
      ⟨"\x7b\x7b" ++ source ++ "\x7d\x7d", [.expression source x ⟨0, 37⟩], .unbound, {}⟩
    let c : Context := ⟨none, [("n", .object [])], [], [], [], []⟩
    let c' : Context := c.setInput .null
    let miss : Miss := ⟨"$node('n').b", ["$node('n')"]⟩
    t.missing? c = some ⟨"$input", ["Input data required but not provided"]⟩ ∧
    (∃ source path, t.RefersTo source path ∧
      ∃ available, c.resolve source path = .error ⟨"$input", available⟩) ∧
    t.missing? c' = none ∧ (∀ source path, t.RefersTo source path → ¬ c'.Lacks source path) ∧
    (t.render c').runFrom {} = (.error (.unresolved miss), ⟨3, []⟩) ∧
    ∃ source below, t.RefersTo source below ∧ c'.resolve source below = .error miss ∧
      ((∃ v, c'.root? source = some v ∧ v.navigate? below = none) ∨
        source = .system ∨ source = .execution ∨ source = .workflow) := by
  intro source x t c c' miss
  have hsome : t.missing? c = some ⟨"$input", ["Input data required but not provided"]⟩ := rfl
  have hnone : t.missing? c' = none := rfl
  have hrun : (t.render c').runFrom {} = (.error (.unresolved miss), ⟨3, []⟩) := rfl
  obtain ⟨-, -, hfound⟩ := missing?_exact t c
  obtain ⟨hiff, hbelow, -⟩ := missing?_exact t c'
  refine ⟨hsome, hfound _ hsome, hnone, hiff.1 hnone, hrun, ?_⟩
  exact hbelow hnone _ _ hrun rfl none _ _ (EvalFault.category_build _ _ _ _)

end Template

end Stencil
