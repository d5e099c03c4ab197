import Mathlib.Data.List.Forall2
import Mathlib.Tactic.Lemma
import Stencil.Validation.Basic

/-!
# First uses

What is checked by name is reported where the name is used first, all else wherever it stands. Main
statements: `firsts_spec`, the first uses are one for each name; `Rules.callIssues_perm` and
`Rules.sourceIssues_eq`, the checks go through first uses.
-/

namespace Stencil

section

variable {α β : Type}

/-- The item is the first of the list that satisfies the condition. -/
inductive First (p : α → Prop) : List α → α → Prop where
  | head {x xs} (hx : p x) : First p (x :: xs) x
  | tail {y xs x} (hy : ¬ p y) (h : First p xs x) : First p (y :: xs) x

/-- For each item that offends, in order, there is one issue, and no other. -/
inductive OnePer (offends : α → Prop) (issue : α → Issue → Prop) : List α → List Issue → Prop where
  | nil : OnePer offends issue [] []
  | clean {x xs issues} (hx : ¬ offends x) (h : OnePer offends issue xs issues) :
    OnePer offends issue (x :: xs) issues
  | offending {x i xs issues} (hx : offends x) (hi : issue x i) (h : OnePer offends issue xs issues) :
    OnePer offends issue (x :: xs) (i :: issues)

lemma First.mem {p : α → Prop} {xs : List α} {x : α} (h : First p xs x) : x ∈ xs ∧ p x := by
  induction h with
  | head hx => exact ⟨List.mem_cons_self, hx⟩
  | tail _ _ ih => exact ⟨List.mem_cons_of_mem _ ih.1, ih.2⟩

/-- A search finds the first item. -/
lemma first_of_find? {p : α → Prop} {q : α → Bool} (hq : ∀ y, q y = true ↔ p y) {xs : List α} {x : α}
    (h : xs.find? q = some x) : First p xs x := by
  induction xs with
  | nil => cases h
  | cons y rest ih =>
    rw [List.find?_cons] at h
    split at h
    · next hy =>
      cases h
      exact .head ((hq _).1 hy)
    · next hy => exact .tail (mt (hq y).2 (Bool.eq_false_iff.1 hy)) (ih h)

lemma exists_mem_of_forall₂ {R : α → β → Prop} {xs : List α} {ys : List β} (h : List.Forall₂ R xs ys)
    {x : α} (hx : x ∈ xs) : ∃ y ∈ ys, R x y := by
  induction h with
  | nil => cases hx
  | @cons a b xs ys hab _ ih =>
    obtain rfl | hx := List.mem_cons.1 hx
    · exact ⟨b, List.mem_cons_self, hab⟩
    · obtain ⟨y, hy, hxy⟩ := ih hx
      exact ⟨y, List.mem_cons_of_mem _ hy, hxy⟩

namespace OnePer

variable {offends : α → Prop} {issue : α → Issue → Prop} {xs : List α} {issues : List Issue}

lemma exists_of_mem (h : OnePer offends issue xs issues) {i : Issue} (hi : i ∈ issues) :
    ∃ x ∈ xs, offends x ∧ issue x i := by
  induction h with
  | nil => cases hi
  | clean _ _ ih =>
    obtain ⟨x, hx, h⟩ := ih hi
    exact ⟨x, List.mem_cons_of_mem _ hx, h⟩
  | offending hx hissue _ ih =>
    obtain rfl | hi := List.mem_cons.1 hi
    · exact ⟨_, List.mem_cons_self, hx, hissue⟩
    · obtain ⟨x, hx, h⟩ := ih hi
      exact ⟨x, List.mem_cons_of_mem _ hx, h⟩

/-- There are no more issues than items. -/
lemma length_le (h : OnePer offends issue xs issues) : issues.length ≤ xs.length := by
  induction h with
  | nil => exact Nat.le_refl _
  | clean _ _ ih => exact Nat.le_succ_of_le ih
  | offending _ _ _ ih => exact Nat.succ_le_succ ih

/-- A check that finds one issue at each place of an item that offends, and none at the others, finds
one for each of the items. -/
lemma of_places {R : α → β → Prop} {places : List β} {f : β → List Issue}
    (h : List.Forall₂ R xs places)
    (hclean : ∀ x y, R x y → ¬ offends x → f y = [])
    (hoffends : ∀ x y, R x y → offends x → ∃ i, f y = [i] ∧ issue x i) :
    OnePer offends issue xs (places.flatMap f) := by
  induction h with
  | nil => exact .nil
  | @cons x y xs places hxy _ ih =>
    rw [List.flatMap_cons]
    by_cases hx : offends x
    · obtain ⟨i, hf, hi⟩ := hoffends x y hxy hx
      rw [hf]
      exact .offending hx hi ih
    · rw [hclean x y hxy hx]
      exact .clean hx ih

/-- The places may be the items themselves. -/
lemma of_items {f : α → List Issue} (hclean : ∀ x ∈ xs, ¬ offends x → f x = [])
    (hoffends : ∀ x ∈ xs, offends x → ∃ i, f x = [i] ∧ issue x i) :
    OnePer offends issue xs (xs.flatMap f) := by
  apply of_places (R := fun x y => x = y ∧ x ∈ xs) (List.forall₂_same.2 fun x hx => ⟨rfl, hx⟩)
  · rintro x _ ⟨rfl, hx⟩
    exact hclean x hx
  · rintro x _ ⟨rfl, hx⟩
    exact hoffends x hx

end OnePer

/-- The items with a key that is not among those seen nor that of an item before. -/
def firsts [BEq β] (key : α → Option β) (seen : List β) : List α → List α
  | [] => []
  | x :: xs =>
    match key x with
    | none => firsts key seen xs
    | some k => if seen.contains k then firsts key seen xs else x :: firsts key (k :: seen) xs

/-- Only which keys were seen matters. -/
lemma firsts_congr [BEq β] [LawfulBEq β] {key : α → Option β} {seen seen' : List β}
    (h : ∀ k, k ∈ seen ↔ k ∈ seen') (xs : List α) : firsts key seen xs = firsts key seen' xs := by
  induction xs generalizing seen seen' with
  | nil => rfl
  | cons x xs ih =>
    rw [firsts, firsts]
    cases key x with
    | none => exact ih h
    | some k =>
      have hcons : ∀ k', k' ∈ k :: seen ↔ k' ∈ k :: seen' := fun k' => by
        rw [List.mem_cons, List.mem_cons, h]
      simp only [List.contains_iff_mem, h k, ih h, ih hcons]

/-- The first uses are one for each of the keys that were not seen. -/
theorem firsts_spec [BEq β] [LawfulBEq β] (key : α → Option β) (seen : List β) (xs : List α) :
    List.Forall₂ (fun k x => k ∉ seen ∧ First (fun y => key y = some k) xs x)
      ((xs.filterMap key).filter fun k => !seen.contains k).eraseDups (firsts key seen xs) := by
  induction xs generalizing seen with
  | nil => exact .nil
  | cons x xs ih =>
    rw [firsts]
    cases hkey : key x with
    | none =>
      rw [List.filterMap_cons_none hkey]
      refine (ih seen).imp fun k y ⟨hk, hfirst⟩ => ⟨hk, .tail ?_ hfirst⟩
      rw [hkey]
      exact nofun
    | some k =>
      rw [List.filterMap_cons_some hkey]
      dsimp only
      split
      · next hseen =>
        rw [List.filter_cons_of_neg (by rw [hseen]; exact Bool.false_ne_true)]
        refine (ih seen).imp fun k' y ⟨hk', hfirst⟩ => ⟨hk', .tail ?_ hfirst⟩
        rw [hkey]
        rintro ⟨⟩
        exact hk' (List.contains_iff_mem.1 hseen)
      · next hseen =>
        have hkeys : ((xs.filterMap key).filter fun b => !b == k && !seen.contains b) =
            (xs.filterMap key).filter fun b => !(k :: seen).contains b := by
          apply List.filter_congr
          intro b _
          rw [List.contains_cons, Bool.not_or]
        rw [List.filter_cons_of_pos (by rw [Bool.eq_false_iff.2 hseen]; rfl), List.eraseDups_cons,
          List.filter_filter, hkeys]
        refine .cons ⟨mt List.contains_iff_mem.2 hseen, .head hkey⟩ ((ih (k :: seen)).imp ?_)
        rintro k' y ⟨hk', hfirst⟩
        rw [List.mem_cons, not_or] at hk'
        refine ⟨hk'.2, .tail ?_ hfirst⟩
        rw [hkey]
        rintro ⟨⟩
        exact hk'.1 rfl

lemma firsts_sublist [BEq β] (key : α → Option β) (seen : List β) (xs : List α) :
    (firsts key seen xs).Sublist xs := by
  induction xs generalizing seen with
  | nil => exact .slnil
  | cons x xs ih =>
    rw [firsts]
    split
    · exact (ih seen).cons x
    · split
      · exact (ih seen).cons x
      · exact (ih _).cons_cons x

/-- Every key that was not seen has a first use. -/
lemma exists_mem_firsts [BEq β] [LawfulBEq β] (key : α → Option β) {seen : List β} {xs : List α}
    {x : α} {k : β} (hx : x ∈ xs) (hkey : key x = some k) (hseen : k ∉ seen) :
    ∃ y ∈ firsts key seen xs, key y = some k := by
  have hk : k ∈ ((xs.filterMap key).filter fun k => !seen.contains k).eraseDups := by
    rw [List.mem_eraseDups, List.mem_filter, Bool.not_eq_true', ← Bool.not_eq_true,
      List.contains_iff_mem]
    exact ⟨List.mem_filterMap.2 ⟨x, hx, hkey⟩, hseen⟩
  obtain ⟨y, hy, -, hfirst⟩ := exists_mem_of_forall₂ (firsts_spec key seen xs) hk
  exact ⟨y, hy, hfirst.mem.2⟩

/-- What is found at first uses is found once for each of the keys that offend. -/
lemma OnePer.of_firsts [BEq β] [LawfulBEq β] {key : α → Option β} {xs : List α} {offends : β → Prop}
    {issue : β → Issue → Prop} {f : α → List Issue}
    (hclean : ∀ x k, key x = some k → ¬ offends k → f x = [])
    (hoffends : ∀ x k, First (fun y => key y = some k) xs x → offends k →
      ∃ i, f x = [i] ∧ issue k i) :
    OnePer offends issue (xs.filterMap key).eraseDups ((firsts key [] xs).flatMap f) := by
  have hspec := firsts_spec key [] xs
  have hkeys : ((xs.filterMap key).filter fun k => !([] : List β).contains k) = xs.filterMap key :=
    List.filter_eq_self.2 fun _ _ => rfl
  rw [hkeys] at hspec
  apply OnePer.of_places hspec
  · rintro k x ⟨-, hfirst⟩
    exact hclean x k hfirst.mem.2
  · rintro k x ⟨-, hfirst⟩
    exact hoffends x k hfirst

end

namespace Rules

variable {r : Rules} {registry : Registry} {source : Text}

/-- The checks of a name are three checks that may find one violation each. -/
lemma map_nameViolations {α : Type} (f : Violation → α) (name : Text) :
    (r.nameViolations registry name).map f =
      (if lacks r.allowedFunctions name then [f (.functionNotAllowed name)] else []) ++
        (if r.forbiddenFunctions.contains name then [f (.functionForbidden name)] else []) ++
        (if !registry.has name then [f (.unknownFunction name registry.bound)] else []) := by
  rw [nameViolations, List.map_append, List.map_append]
  congr 1
  · congr 1
    · split <;> rfl
    · split <;> rfl
  · cases registry.has name <;> rfl

/-- The checks of calls find the violations of names at first uses, and wrong numbers of arguments at
all of them. -/
theorem callIssues_perm (seen : List Text) (calls : List CallSite) :
    (r.callIssues registry source seen calls).Perm
      ((firsts (fun call => some call.name) seen calls).flatMap (fun call =>
          (r.nameViolations registry call.name).map (Issue.ofSpan source call.span)) ++
        calls.flatMap fun call =>
          (arityViolation? registry call).toList.map (Issue.ofSpan source call.span)) := by
  induction calls generalizing seen with
  | nil => exact .nil
  | cons call rest ih =>
    rw [callIssues, firsts, List.flatMap_cons]
    dsimp only
    split
    · next hseen =>
      rw [List.contains_iff_mem] at hseen
      have hcons : ∀ k, k ∈ call.name :: seen ↔ k ∈ seen := fun k =>
        List.mem_cons.trans (or_iff_right_of_imp fun h => h ▸ hseen)
      rw [List.nil_append, ← firsts_congr hcons]
      exact ((ih _).append_left _).trans (List.perm_append_comm_assoc ..)
    · rw [List.flatMap_cons, List.append_assoc, List.append_assoc]
      exact (((ih _).append_left _).trans (List.perm_append_comm_assoc ..)).append_left _

/-- The checks of data sources find their violations at first uses. -/
theorem sourceIssues_eq (seen : List Text) (nodes : List Expr) :
    r.sourceIssues source seen nodes =
      (firsts Expr.sourceKind? seen nodes).flatMap fun x => x.sourceKind?.toList.flatMap fun kind =>
        (if lacks r.allowedSources kind then
          [Issue.ofSpan source x.span (.sourceNotAllowed kind)] else []) ++
        (if r.forbiddenSources.contains kind then
          [Issue.ofSpan source x.span (.sourceForbidden kind)] else []) := by
  induction nodes generalizing seen with
  | nil => rfl
  | cons x rest ih =>
    rw [sourceIssues, firsts]
    cases hkind : x.sourceKind? with
    | none => exact ih seen
    | some kind =>
      dsimp only
      split
      · exact ih seen
      · rw [ih, List.flatMap_cons, hkind, Option.toList_some, List.flatMap_singleton]

end Rules

end Stencil
