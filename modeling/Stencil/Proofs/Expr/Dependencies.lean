import Stencil.Dependencies
import Stencil.Proofs.Distinct
import Stencil.Proofs.Expr.Nodes
import Stencil.Validation.Basic

/-!
# What dependencies cover

Dependencies are collected from the nodes of an expression, one after the other. Main statements:
`Dependencies.collect_eq_foldl`; `Dependencies.covers_of`, the dependencies have the reference of
each node and the functions that it calls; `Dependencies.has_of` and
`Dependencies.mem_functions_of`, they have no others.
-/

namespace Stencil

section

variable {α : Type} [BEq α] [LawfulBEq α]

lemma mem_adjoin {xs : List α} {x y : α} : y ∈ adjoin xs x ↔ y ∈ xs ∨ y = x := by
  unfold adjoin
  split
  · next h =>
    rw [List.contains_iff_mem] at h
    constructor
    · exact .inl
    · rintro (hy | rfl)
      · exact hy
      · exact h
  · rw [List.mem_append, List.mem_singleton]

lemma adjoin_of_mem {xs : List α} {x : α} (h : x ∈ xs) : adjoin xs x = xs :=
  if_pos (List.contains_iff_mem.2 h)

lemma mem_foldl_adjoin {xs ys : List α} {y : α} : y ∈ ys.foldl adjoin xs ↔ y ∈ xs ∨ y ∈ ys := by
  induction ys generalizing xs with
  | nil => simp
  | cons x ys ih => rw [List.foldl_cons, ih, mem_adjoin, List.mem_cons, or_assoc]

/-- Adjoining what is there adds nothing. -/
lemma foldl_adjoin_of_mem {xs ys : List α} (h : ∀ y ∈ ys, y ∈ xs) : ys.foldl adjoin xs = xs := by
  induction ys with
  | nil => rfl
  | cons y ys ih =>
    obtain ⟨hy, hys⟩ := List.forall_mem_cons.1 h
    rw [List.foldl_cons, adjoin_of_mem hy, ih hys]

/-- Adjoining all items of a list one by one keeps each where it comes first. -/
lemma foldl_adjoin (xs : List α) : xs.foldl adjoin [] = xs.eraseDups := by
  classical
  induction xs using List.reverseRecOn with
  | nil => rfl
  | append_singleton xs x ih =>
    rw [List.foldl_concat, ih, eraseDups_concat]
    simp only [adjoin, List.contains_iff_mem, List.mem_eraseDups]

omit [LawfulBEq α] in
/-- Steps that each adjoin some items to a list adjoin the items of all of them. -/
lemma foldl_adjoins {σ ι : Type} {step : σ → ι → σ} {get : σ → List α} {items : ι → List α}
    (h : ∀ s x, get (step s x) = (items x).foldl adjoin (get s)) (xs : List ι) (s : σ) :
    get (xs.foldl step s) = (xs.flatMap items).foldl adjoin (get s) := by
  induction xs generalizing s with
  | nil => rfl
  | cons x xs ih => rw [List.foldl_cons, ih, h, List.flatMap_cons, List.foldl_append]

end

namespace Expr

/-- The reference that a node is, if it is one. -/
def ownReads : Expr → List (DataSource × Text)
  | .access _ source path => [(source, path)]
  | _ => []

/-- The references of an expression, in the order in which a traversal enters them. -/
def reads (e : Expr) : List (DataSource × Text) := e.nodes.flatMap ownReads

/-- The names of the functions that an expression calls, likewise. -/
def callNames (e : Expr) : List Text := (e.nodes.flatMap callSites).map CallSite.name

lemma mem_ownReads {x : Expr} {source : DataSource} {path : Text} :
    (source, path) ∈ x.ownReads ↔ ∃ span, x = .access span source path := by
  cases x with
  | access span source' path' => simp [ownReads, eq_comm]
  | _ => simp [ownReads]

lemma mem_reads {e : Expr} {source : DataSource} {path : Text} :
    (source, path) ∈ e.reads ↔ ∃ span, .access span source path ∈ e.nodes := by
  simp only [reads, List.mem_flatMap, mem_ownReads]
  constructor
  · rintro ⟨_, hx, span, rfl⟩
    exact ⟨span, hx⟩
  · rintro ⟨span, hx⟩
    exact ⟨_, hx, span, rfl⟩

end Expr

namespace Dependencies

/-- The reference is among the dependencies. -/
def Has (d : Dependencies) : DataSource → Text → Prop
  | .input, path => path ∈ d.inputPaths
  | .node id, _ => id ∈ d.nodes
  | .environment, path => path ∈ d.environment
  | .system, _ => d.system
  | .execution, _ => d.execution
  | .workflow, _ => d.workflow

/-- The dependencies have what a node refers to itself. -/
structure Covers (d : Dependencies) (x : Expr) : Prop where
  reference {span : Span} {source : DataSource} {path : Text} :
    x = .access span source path → d.Has source path
  call {call : CallSite} : call ∈ x.callSites → call.name ∈ d.functions

/-- Adds what a node refers to itself. -/
def note (d : Dependencies) : Expr → Dependencies
  | .access _ source path => d.addReference source path
  | e => e.callSites.foldl (fun d call => d.addFunction call.name) d

/-! ## The order of collection -/

lemma collectAll_eq (d : Dependencies) (es : List Expr) : collectAll d es = es.foldl collect d := by
  induction es generalizing d with
  | nil => rfl
  | cons e rest ih => rw [collectAll, List.foldl_cons, ih]

lemma collectStages_eq (d : Dependencies) (stages : List Stage) :
    collectStages d stages = (stages.flatMap Stage.args).foldl collect d := by
  induction stages generalizing d with
  | nil => rfl
  | cons stage rest ih =>
    obtain ⟨span, name, args⟩ := stage
    rw [collectStages, List.flatMap_cons, List.foldl_append, collectAll_eq, ih]
    rfl

/-- What an expression refers to is what its node refers to itself, and then what its parts do. -/
lemma collect_eq (d : Dependencies) (e : Expr) :
    collect d e = e.children.foldl collect (d.note e) := by
  cases e with
  | call => rw [collect, collectAll_eq]; rfl
  | pipeline _ input stages =>
    rw [collect, collectStages_eq]
    simp only [note, Expr.callSites, List.foldl_map, Expr.children, List.foldl_cons]
  | conditional _ _ _ alternate =>
    cases alternate with
    | none => rw [collect]; rfl
    | some => rw [collect]; rfl
  | _ => rw [collect]; rfl

/-- What an expression refers to is what its nodes refer to themselves, in the order in which a
traversal enters them. -/
theorem collect_eq_foldl (d : Dependencies) (e : Expr) : collect d e = e.nodes.foldl note d := by
  induction e using Expr.induct_children generalizing d with
  | step e ih =>
    rw [collect_eq, Expr.nodes_eq, List.foldl_cons, List.foldl_flatMap]
    exact List.foldl_ext _ _ _ fun d c hc => ih c hc d

lemma foldl_collect (d : Dependencies) (es : List Expr) :
    es.foldl collect d = (es.flatMap Expr.nodes).foldl note d := by
  rw [List.foldl_flatMap]
  exact List.foldl_ext _ _ _ fun d e _ => collect_eq_foldl d e

lemma of_eq (es : List Expr) : of es = (es.flatMap Expr.nodes).foldl note {} := by
  rw [of, collectAll_eq, foldl_collect]

/-! ## Where dependencies come from -/

/-- Of the input and the environment each path is a dependency of its own; of all other sources only
the source counts. -/
def Tells (source : DataSource) (path path' : Text) : Prop :=
  source = .input ∨ source = .environment → path = path'

/-- One of the nodes is a reference to the source, and if that tells, with the path. -/
def Referred (nodes : List Expr) (source : DataSource) (path : Text) : Prop :=
  ∃ span path', .access span source path' ∈ nodes ∧ Tells source path path'

/-- One of the nodes calls a function of the name. -/
def Called (nodes : List Expr) (name : Text) : Prop :=
  ∃ x ∈ nodes, ∃ call ∈ x.callSites, call.name = name

lemma has_addReference {d : Dependencies} {source source' : DataSource} {path path' : Text} :
    (d.addReference source' path').Has source path ↔
      d.Has source path ∨ source = source' ∧ Tells source path path' := by
  cases source' with
  | input => cases source <;> simp [addReference, Has, Tells, mem_adjoin]
  | node => cases source <;> simp [addReference, Has, Tells, mem_adjoin]
  | environment => cases source <;> simp [addReference, Has, Tells, mem_adjoin]
  | system => cases source <;> simp [addReference, Has, Tells]
  | execution => cases source <;> simp [addReference, Has, Tells]
  | workflow => cases source <;> simp [addReference, Has, Tells]

lemma foldl_addFunction (d : Dependencies) (calls : List CallSite) :
    calls.foldl (fun d call => d.addFunction call.name) d =
      { d with functions := (calls.map CallSite.name).foldl adjoin d.functions } := by
  induction calls generalizing d with
  | nil => rfl
  | cons call rest ih => rw [List.foldl_cons, ih]; rfl

/-- A node that is no reference changes the functions only. -/
lemma note_eq (d : Dependencies) {e : Expr} (he : e.isAccess = false) :
    d.note e = { d with functions := (e.callSites.map CallSite.name).foldl adjoin d.functions } := by
  cases e with
  | access => cases he
  | _ => exact foldl_addFunction d _

lemma functions_note (d : Dependencies) (e : Expr) :
    (d.note e).functions = (e.callSites.map CallSite.name).foldl adjoin d.functions := by
  cases e with
  | access _ source path => cases source <;> rfl
  | _ => rw [note_eq _ rfl]

lemma has_note {d : Dependencies} {x : Expr} {source : DataSource} {path : Text} :
    (d.note x).Has source path ↔ d.Has source path ∨ Referred [x] source path := by
  cases x with
  | access span source' path' =>
    rw [note, has_addReference]
    apply or_congr_right
    constructor
    · rintro ⟨rfl, h⟩
      exact ⟨span, path', List.mem_singleton.2 rfl, h⟩
    · rintro ⟨_, _, hmem, h⟩
      cases List.mem_singleton.1 hmem
      exact ⟨rfl, h⟩
  | _ =>
    rw [note_eq _ rfl]
    cases source <;> simp [Has, Referred]

lemma has_foldl_note {xs : List Expr} {source : DataSource} {path : Text} {d : Dependencies} :
    (xs.foldl note d).Has source path ↔ d.Has source path ∨ Referred xs source path := by
  induction xs generalizing d with
  | nil => simp [Referred]
  | cons x xs ih =>
    rw [List.foldl_cons, ih, has_note, or_assoc]
    apply or_congr_right
    simp only [Referred, List.mem_cons, List.not_mem_nil, or_false, or_and_right, exists_or]

lemma mem_functions_foldl_note {xs : List Expr} {name : Text} {d : Dependencies} :
    name ∈ (xs.foldl note d).functions ↔ name ∈ d.functions ∨ Called xs name := by
  rw [foldl_adjoins functions_note, mem_foldl_adjoin, List.mem_flatMap]
  simp only [List.mem_map, Called]

lemma not_has_empty {source : DataSource} {path : Text} : ¬ ({} : Dependencies).Has source path := by
  cases source <;> simp [Has]

/-- The references among the dependencies of expressions are those of their nodes, and no others. -/
theorem has_of {es : List Expr} {source : DataSource} {path : Text} :
    (of es).Has source path ↔ Referred (es.flatMap Expr.nodes) source path := by
  rw [of_eq, has_foldl_note]
  exact or_iff_right not_has_empty

/-- The functions among the dependencies of expressions are those that their nodes call, and no
others. -/
theorem mem_functions_of {es : List Expr} {name : Text} :
    name ∈ (of es).functions ↔ Called (es.flatMap Expr.nodes) name := by
  rw [of_eq, mem_functions_foldl_note]
  exact or_iff_right List.not_mem_nil

/-- Collecting covers what is collected. -/
lemma covers_foldl_note {xs : List Expr} {x : Expr} (hx : x ∈ xs) (d : Dependencies) :
    (xs.foldl note d).Covers x where
  reference := by
    rintro span source path rfl
    exact has_foldl_note.2 (.inr ⟨span, path, hx, fun _ => rfl⟩)
  call hcall := mem_functions_foldl_note.2 (.inr ⟨x, hx, _, hcall, rfl⟩)

/-- The dependencies of expressions cover all their nodes. -/
theorem covers_of {es : List Expr} {x : Expr} (hx : x ∈ es.flatMap Expr.nodes) :
    (of es).Covers x := by
  rw [of_eq]
  exact covers_foldl_note hx {}

end Dependencies

end Stencil
