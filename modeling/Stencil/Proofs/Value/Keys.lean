import Mathlib.Data.List.Sort
import Stencil.Value.Host

/-!
# The order of keys

The host keeps the keys of an object in an order of its own, in which an index stands behind lesser
indexes only. Main statements: `Table.inOrder_indexFirst` and `Table.indexFirst_of_inOrder`, so the
order of the host is a fixed point of `Table.indexFirst`.
-/

namespace Stencil

namespace Table

variable {α β ε : Type}

/-- The one key may stand before the other: if that is an index, so is the one, and it is no larger. -/
def Precedes (k l : Text) : Prop := ∀ j ∈ index? l, ∃ i ∈ index? k, i ≤ j

instance (k l : Text) : Decidable (Precedes k l) :=
  inferInstanceAs (Decidable (∀ j ∈ index? l, ∃ i ∈ index? k, i ≤ j))

/-- The keys stand in the order in which the host lists them: indexes first, by size. -/
def InOrder (t : Table α) : Prop := t.keys.Pairwise Precedes

instance (t : Table α) : Decidable t.InOrder := inferInstanceAs (Decidable (t.keys.Pairwise Precedes))

/-- Every entry under its key. -/
def mapValues (f : α → β) (t : Table α) : Table β := t.map fun e => (e.1, f e.2)

lemma keys_mapValues (f : α → β) (t : Table α) : (t.mapValues f).keys = t.keys := by
  rw [keys, mapValues, List.map_map]
  rfl

lemma mapValues_mapValues {γ : Type} (g : β → γ) (f : α → β) (t : Table α) :
    (t.mapValues f).mapValues g = t.mapValues (g ∘ f) :=
  List.map_map

lemma mapValues_congr {f g : α → β} {t : Table α} (h : ∀ e ∈ t, f e.2 = g e.2) :
    t.mapValues f = t.mapValues g :=
  List.map_congr_left fun e he => congrArg (e.1, ·) (h e he)

lemma InOrder.of_keys {t : Table α} {t' : Table β} (h : t.InOrder) (hkeys : t'.keys = t.keys) :
    t'.InOrder := by
  rw [InOrder, hkeys]
  exact h

/-- The entries under indexes, each with its index. -/
def indexed (t : Table α) : List (Nat × Text × α) :=
  t.filterMap fun e => (index? e.1).map (·, e)

lemma indexFirst_eq (t : Table α) :
    t.indexFirst = (t.indexed.mergeSort fun a b => a.1 ≤ b.1).map Prod.snd ++
      t.filter fun e => (index? e.1).isNone := rfl

lemma mem_indexed {t : Table α} {x : Nat × Text × α} :
    x ∈ t.indexed ↔ x.2 ∈ t ∧ index? x.2.1 = some x.1 := by
  obtain ⟨i, e⟩ := x
  rw [indexed, List.mem_filterMap]
  constructor
  · rintro ⟨e', he, h⟩
    obtain ⟨j, hj, hx⟩ := Option.map_eq_some_iff.1 h
    cases hx
    exact ⟨he, hj⟩
  · rintro ⟨he, hi⟩
    exact ⟨e, he, by rw [hi]; rfl⟩

lemma mem_indexFirst {t : Table α} {e : Text × α} : e ∈ t.indexFirst ↔ e ∈ t := by
  rw [indexFirst_eq, List.mem_append, List.mem_map]
  constructor
  · rintro (⟨x, hx, rfl⟩ | he)
    · exact (mem_indexed.1 (List.mem_mergeSort.1 hx)).1
    · exact (List.mem_filter.1 he).1
  · intro he
    cases hi : index? e.1 with
    | some i => exact .inl ⟨(i, e), List.mem_mergeSort.2 (mem_indexed.2 ⟨he, hi⟩), rfl⟩
    | none => exact .inr (List.mem_filter.2 ⟨he, by rw [hi]; rfl⟩)

lemma precedes_of_isNone {k l : Text} (h : (index? l).isNone) : Precedes k l := by
  intro j hj
  rw [hj] at h
  cases h

lemma inOrder_iff {t : Table α} : t.InOrder ↔ t.Pairwise fun a b => Precedes a.1 b.1 :=
  List.pairwise_map

/-- The order of the host is in order. -/
lemma inOrder_indexFirst (t : Table α) : t.indexFirst.InOrder := by
  have hother : ∀ e ∈ t.filter fun e => (index? e.1).isNone, ∀ k, Precedes k e.1 :=
    fun e he _ => precedes_of_isNone (List.mem_filter.1 he).2
  have hsorted : (t.indexed.mergeSort fun a b => a.1 ≤ b.1).Pairwise
      fun a b => decide (a.1 ≤ b.1) := by
    apply List.pairwise_mergeSort
    · intro a b c hab hbc
      rw [decide_eq_true_eq] at *
      exact hab.trans hbc
    · intro a b
      rw [Bool.or_eq_true, decide_eq_true_eq, decide_eq_true_eq]
      exact Nat.le_total _ _
  rw [inOrder_iff, indexFirst_eq, List.pairwise_append, List.pairwise_map]
  refine ⟨?_, ?_, ?_⟩
  · apply hsorted.imp_of_mem
    intro a b ha hb hab j hj
    have hi := (mem_indexed.1 (List.mem_mergeSort.1 ha)).2
    rw [(mem_indexed.1 (List.mem_mergeSort.1 hb)).2] at hj
    cases hj
    exact ⟨_, hi, of_decide_eq_true hab⟩
  · exact List.pairwise_of_forall_mem_list fun _ _ e he => hother e he _
  · exact fun _ _ e he => hother e he _

lemma indexed_sorted {t : Table α} (h : t.InOrder) :
    (t.indexed.mergeSort fun a b => a.1 ≤ b.1) = t.indexed := by
  apply List.mergeSort_of_pairwise
  rw [indexed, List.pairwise_filterMap]
  apply (inOrder_iff.1 h).imp
  intro a b hab x hx y hy
  obtain ⟨i, hi, rfl⟩ := Option.map_eq_some_iff.1 hx
  obtain ⟨j, hj, rfl⟩ := Option.map_eq_some_iff.1 hy
  obtain ⟨i', hi', hle⟩ := hab j hj
  rw [hi] at hi'
  cases hi'
  exact decide_eq_true hle

/-- What is in order is in the order of the host. -/
lemma indexFirst_of_inOrder {t : Table α} (h : t.InOrder) : t.indexFirst = t := by
  rw [indexFirst_eq, indexed_sorted h]
  induction t with
  | nil => rfl
  | cons e rest ih =>
    obtain ⟨he, hrest⟩ := List.pairwise_cons.1 (inOrder_iff.1 h)
    cases hi : index? e.1 with
    | some i =>
      rw [indexed, List.filterMap_cons_some (by rw [hi]; rfl),
        List.filter_cons_of_neg (by rw [hi]; exact Bool.false_ne_true), List.map_cons, List.cons_append]
      exact congrArg (e :: ·) (ih (inOrder_iff.2 hrest))
    | none =>
      -- after a key that is no index there is none
      have hnone : ∀ x ∈ e :: rest, index? x.1 = none := by
        intro x hx
        cases hx with
        | head => exact hi
        | tail _ hx =>
          rw [Option.eq_none_iff_forall_ne_some]
          intro j hj
          obtain ⟨i, hi', -⟩ := he x hx j hj
          rw [hi] at hi'
          cases hi'
      rw [indexed, List.filterMap_eq_nil_iff.2 fun x hx => by rw [hnone x hx]; rfl]
      exact List.filter_eq_self.2 fun x hx => by rw [hnone x hx]; rfl

/-- The order of the host depends on the keys only. -/
lemma indexFirst_mapValues (f : α → β) (t : Table α) :
    (t.mapValues f).indexFirst = t.indexFirst.mapValues f := by
  let g : Nat × Text × α → Nat × Text × β := fun x => (x.1, x.2.1, f x.2.2)
  have hindexed : (t.mapValues f).indexed = t.indexed.map g := by
    rw [indexed, indexed, mapValues, List.filterMap_map, List.map_filterMap]
    congr 1
    funext e
    cases hi : index? e.1 <;> simp [hi, g]
  have hsorted : ((t.indexed.mergeSort fun a b => a.1 ≤ b.1).map g) =
      (t.indexed.map g).mergeSort fun a b => a.1 ≤ b.1 := List.map_mergeSort fun _ _ _ _ => rfl
  rw [indexFirst_eq, indexFirst_eq, hindexed, ← hsorted, mapValues, mapValues, List.map_append,
    List.map_map, List.map_map, List.filter_map]
  rfl

/-! ## Tables of results -/

/-- A list of results is there if its first result and the list of the others are. -/
lemma cons_eq_ok {x : Except ε α} {rest : Except ε (List β)} {f : α → β} {l : List β} :
    (do let a ← x; return f a :: (← rest)) = .ok l ↔
      ∃ a as, x = .ok a ∧ rest = .ok as ∧ l = f a :: as := by
  constructor
  · intro h
    cases x with
    | error => cases h
    | ok a =>
      cases rest with
      | error => cases h
      | ok as =>
        cases h
        exact ⟨a, as, rfl, rfl, rfl⟩
  · rintro ⟨a, as, rfl, rfl, rfl⟩
    rfl

/-- All entries are there exactly if none is a fault. -/
lemma collect_eq_ok {t : Table (Except ε α)} {t' : Table α} :
    t.collect = .ok t' ↔ t = t'.mapValues .ok := by
  induction t generalizing t' with
  | nil =>
    cases t' with
    | nil => exact ⟨fun _ => rfl, fun _ => rfl⟩
    | cons => exact ⟨nofun, nofun⟩
  | cons e rest ih =>
    obtain ⟨key, result⟩ := e
    rw [collect, cons_eq_ok]
    constructor
    · rintro ⟨a, as, rfl, has, rfl⟩
      rw [ih.1 has]
      rfl
    · intro h
      cases t' with
      | nil => cases h
      | cons e' rest' =>
        cases h
        exact ⟨e'.2, rest', rfl, ih.2 rfl, rfl⟩

end Table

end Stencil
