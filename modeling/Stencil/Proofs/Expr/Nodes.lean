import Mathlib.Data.List.Basic
import Mathlib.Tactic.Lemma
import Stencil.Expr.Traversal

/-!
# Nodes of expressions

A traversal visits an expression before its parts, and the parts in order. Main statements:
`Visitor.walk_eq` gives the steps of any traversal, `Expr.visits_eq` the nodes with their depths, and
`Expr.mem_nodes` says what a node of an expression is. There are as many nodes as its size, and the
deepest lie as deep as its height.
-/

namespace Stencil

namespace Expr

lemma sizeAll_append (es es' : List Expr) : sizeAll (es ++ es') = sizeAll es + sizeAll es' := by
  induction es with
  | nil => exact (Nat.zero_add _).symm
  | cons e rest ih => rw [List.cons_append, sizeAll, sizeAll, ih, Nat.add_assoc]

lemma size_le_sizeAll {e : Expr} {es : List Expr} (h : e ∈ es) : e.size ≤ sizeAll es := by
  obtain ⟨before, after, rfl⟩ := List.append_of_mem h
  rw [sizeAll_append, sizeAll]
  omega

lemma sizeStages_eq (stages : List Stage) :
    sizeStages stages = sizeAll (stages.flatMap Stage.args) := by
  induction stages with
  | nil => rfl
  | cons stage rest ih =>
    obtain ⟨span, name, args⟩ := stage
    rw [sizeStages, ih, List.flatMap_cons, sizeAll_append]
    rfl

/-- The size of an expression is one more than those of its parts together. -/
lemma size_eq (e : Expr) : e.size = 1 + sizeAll e.children := by
  cases e with
  | pipeline => rw [size, sizeStages_eq, children, sizeAll, Nat.add_assoc]
  | conditional _ _ _ alternate => cases alternate <;> simp [size, sizeAll, children, Nat.add_assoc]
  | _ => simp [size, sizeAll, children, Nat.add_assoc]

/-- A part is smaller than the whole. -/
lemma size_child {e c : Expr} (h : c ∈ e.children) : c.size < e.size := by
  have hle := size_le_sizeAll h
  rw [size_eq e]
  omega

/-- What holds of an expression whenever it holds of its parts holds of all expressions. -/
theorem induct_children {motive : Expr → Prop}
    (step : ∀ e, (∀ c ∈ e.children, motive c) → motive e) (e : Expr) : motive e := by
  induction hn : e.size using Nat.strongRecOn generalizing e with
  | ind n ih =>
    subst hn
    apply step
    intro c hc
    exact ih c.size (size_child hc) c rfl

/-- The nodes of an expression with their depths, each before its parts. -/
def preorder (depth : Nat) (e : Expr) : List (Expr × Nat) :=
  (e, depth) :: e.children.attach.flatMap fun c => preorder (depth + 1) c.1
termination_by e.size
decreasing_by exact size_child c.2

lemma preorder_eq (depth : Nat) (e : Expr) :
    e.preorder depth = (e, depth) :: e.children.flatMap (preorder (depth + 1)) := by
  rw [preorder, List.flatMap_subtype, List.unattach_attach]
  intro c _
  rfl

end Expr

namespace Visitor

variable {σ : Type} (v : Visitor σ)

lemma walkAll_eq (parent : Expr) (depth : Nat) (s : σ) (es : List Expr) :
    v.walkAll parent depth s es = es.foldlM (v.walk (some parent) depth) s := by
  induction es generalizing s with
  | nil => rfl
  | cons e rest ih =>
    rw [walkAll, List.foldlM_cons]
    exact bind_congr ih

lemma walkStages_eq (parent : Expr) (depth : Nat) (s : σ) (stages : List Stage) :
    v.walkStages parent depth s stages =
      (stages.flatMap Stage.args).foldlM (v.walk (some parent) depth) s := by
  induction stages generalizing s with
  | nil => rfl
  | cons stage rest ih =>
    obtain ⟨span, name, args⟩ := stage
    rw [walkStages, List.flatMap_cons, List.foldlM_append, walkAll_eq]
    exact bind_congr ih

/-- A traversal enters an expression, visits its parts in order, and leaves it. -/
theorem walk_eq (parent : Option Expr) (depth : Nat) (s : σ) (e : Expr) :
    v.walk parent depth s e =
      v.visit e parent depth s fun s => e.children.foldlM (v.walk (some e) (depth + 1)) s := by
  cases e with
  | literal => rw [walk]; rfl
  | access => rw [walk]; rfl
  | call =>
    rw [walk]
    simp only [walkAll_eq]
    rfl
  | pipeline =>
    rw [walk]
    simp only [walkStages_eq]
    rfl
  | binary =>
    rw [walk]
    simp only [Expr.children, List.foldlM_cons, List.foldlM_nil, bind_pure]
  | unary =>
    rw [walk]
    simp only [Expr.children, List.foldlM_cons, List.foldlM_nil, bind_pure]
  | ternary =>
    rw [walk]
    simp only [Expr.children, List.foldlM_cons, List.foldlM_nil, bind_pure]
  | conditional _ _ _ alternate =>
    cases alternate with
    | none =>
      rw [walk]
      simp only [Expr.children, Option.toList, List.foldlM_cons, List.foldlM_nil, bind_pure]
    | some alternate =>
      rw [walk]
      simp only [Expr.children, Option.toList, List.foldlM_cons, List.foldlM_nil, bind_pure]

/-- A visitor that only notes something notes it at each node in turn. -/
theorem walk_noting (note : Expr → Nat → σ → σ) (parent : Option Expr) (depth : Nat) (s : σ)
    (e : Expr) :
    (noting note).walk parent depth s e =
      .ok ((e.preorder depth).foldl (fun s x => note x.1 x.2 s) s) := by
  induction e using Expr.induct_children generalizing parent depth s with
  | step e ih =>
    have parts (cs : List Expr) (hcs : ∀ c ∈ cs, c ∈ e.children) (s : σ) :
        cs.foldlM ((noting note).walk (some e) (depth + 1)) s =
          .ok ((cs.flatMap (Expr.preorder (depth + 1))).foldl (fun s x => note x.1 x.2 s) s) := by
      induction cs generalizing s with
      | nil => rfl
      | cons c cs ihcs =>
        obtain ⟨hc, hcs⟩ := List.forall_mem_cons.1 hcs
        rw [List.foldlM_cons, ih c hc, List.flatMap_cons, List.foldl_append]
        exact ihcs hcs _
    rw [walk_eq, Expr.preorder_eq, List.foldl_cons]
    exact congrArg (Except.map id) (parts e.children (fun _ h => h) (note e depth s))

end Visitor

namespace Expr

/-- The visits of an expression are its nodes, each before its parts. -/
theorem visits_eq (e : Expr) : e.visits = e.preorder 1 := by
  have fold (l seen : List (Expr × Nat)) :
      l.foldl (fun seen x => (x.1, x.2) :: seen) seen = l.reverse ++ seen := by
    induction l generalizing seen with
    | nil => rfl
    | cons x l ih => rw [List.foldl_cons, ih, List.reverse_cons, List.append_assoc]; rfl
  rw [visits, traverse, Visitor.walk_noting]
  simp only [fold, List.append_nil, List.reverse_reverse]

/-- The nodes of an expression, each before its parts. -/
def nodes (e : Expr) : List Expr := e.visits.map Prod.fst

lemma map_fst_preorder (d d' : Nat) (e : Expr) :
    (e.preorder d).map Prod.fst = (e.preorder d').map Prod.fst := by
  induction e using induct_children generalizing d d' with
  | step e ih =>
    rw [preorder_eq, preorder_eq, List.map_cons, List.map_cons, List.map_flatMap, List.map_flatMap]
    congr 1
    exact List.flatMap_congr fun c hc => ih c hc _ _

/-- The nodes of an expression are itself and those of its parts. -/
theorem nodes_eq (e : Expr) : e.nodes = e :: e.children.flatMap nodes := by
  rw [nodes, visits_eq, preorder_eq, List.map_cons, List.map_flatMap]
  congr 1
  apply List.flatMap_congr
  intro c _
  rw [nodes, visits_eq]
  exact map_fst_preorder _ _ c

/-- The nodes of an expression are one more than those of its parts. -/
lemma length_nodes (e : Expr) : e.nodes.length = 1 + (e.children.flatMap nodes).length := by
  rw [nodes_eq, List.length_cons, Nat.add_comm]

theorem mem_nodes {e x : Expr} : x ∈ e.nodes ↔ x = e ∨ ∃ c ∈ e.children, x ∈ c.nodes := by
  rw [nodes_eq, List.mem_cons, List.mem_flatMap]

lemma self_mem_nodes (e : Expr) : e ∈ e.nodes := mem_nodes.2 (.inl rfl)

lemma mem_nodes_of_child {e c x : Expr} (hc : c ∈ e.children) (hx : x ∈ c.nodes) : x ∈ e.nodes :=
  mem_nodes.2 (.inr ⟨c, hc, hx⟩)

lemma length_flatMap_nodes {es : List Expr} (h : ∀ e ∈ es, e.nodes.length = e.size) :
    (es.flatMap nodes).length = sizeAll es := by
  induction es with
  | nil => rfl
  | cons e rest ih =>
    obtain ⟨he, hrest⟩ := List.forall_mem_cons.1 h
    rw [List.flatMap_cons, List.length_append, he, ih hrest, sizeAll]

/-- There are as many nodes as the size of the expression says. -/
theorem length_nodes_eq_size (e : Expr) : e.nodes.length = e.size := by
  induction e using induct_children with
  | step e ih => rw [length_nodes, length_flatMap_nodes ih, size_eq]

/-! ## Height -/

/-- How many nodes an expression has along its longest branch. -/
def height (e : Expr) : Nat := 1 + ((e.children.attach.map fun c => c.1.height).max?).getD 0
termination_by e.size
decreasing_by exact size_child c.2

lemma height_eq (e : Expr) : e.height = 1 + ((e.children.map height).max?).getD 0 := by
  rw [height, List.attach_map_val]

lemma height_child {e c : Expr} (h : c ∈ e.children) : c.height + 1 ≤ e.height := by
  have hle := List.le_max?_getD_of_mem (k := 0) (List.mem_map_of_mem (f := height) h)
  rw [height_eq e]
  omega

lemma depth_le_of_mem_preorder {d : Nat} {e : Expr} {visit : Expr × Nat}
    (h : visit ∈ e.preorder (d + 1)) : visit.2 ≤ d + e.height := by
  induction e using induct_children generalizing d with
  | step e ih =>
    rw [preorder_eq, List.mem_cons, List.mem_flatMap] at h
    obtain rfl | ⟨c, hc, hvisit⟩ := h
    · rw [height_eq]
      dsimp only
      omega
    · have hle := ih c hc hvisit
      have hchild := height_child hc
      omega

lemma exists_mem_preorder (d : Nat) (e : Expr) :
    ∃ visit ∈ e.preorder (d + 1), visit.2 = d + e.height := by
  induction e using induct_children generalizing d with
  | step e ih =>
    rw [preorder_eq, height_eq]
    cases hmax : (e.children.map height).max? with
    | none => exact ⟨(e, d + 1), List.mem_cons_self, rfl⟩
    | some m =>
      obtain ⟨c, hc, hm⟩ := List.mem_map.1 (List.max?_mem hmax)
      obtain ⟨visit, hvisit, hdepth⟩ := ih c hc (d + 1)
      refine ⟨visit, List.mem_cons_of_mem _ (List.mem_flatMap.2 ⟨c, hc, hvisit⟩), ?_⟩
      rw [Option.getD_some]
      omega

/-- No node is deeper than the height says. -/
theorem depth_le_height {e : Expr} {visit : Expr × Nat} (h : visit ∈ e.visits) :
    visit.2 ≤ e.height := by
  rw [visits_eq] at h
  exact Nat.zero_add e.height ▸ depth_le_of_mem_preorder h

/-- Some node is as deep as the height says. -/
theorem exists_depth_eq_height (e : Expr) : ∃ visit ∈ e.visits, visit.2 = e.height := by
  rw [visits_eq]
  exact Nat.zero_add e.height ▸ exists_mem_preorder 0 e

end Expr

end Stencil
