import Mathlib.Data.List.Induction
import Mathlib.Tactic.Lemma

/-!
# Lists without repetitions

What is left of a list when each of its items is kept only where it comes first.
-/

namespace Stencil

section

variable {α β : Type} [BEq α] [LawfulBEq α] [BEq β] [LawfulBEq β]

/-- An item that came before is not kept again. -/
lemma eraseDups_concat [DecidableEq α] (xs : List α) (x : α) :
    (xs ++ [x]).eraseDups = if x ∈ xs then xs.eraseDups else xs.eraseDups ++ [x] := by
  rw [List.eraseDups_append, List.removeAll]
  by_cases hmem : x ∈ xs
  · rw [if_pos hmem, List.filter_cons_of_neg (by simpa using hmem)]
    exact List.append_nil _
  · rw [if_neg hmem, List.filter_cons_of_pos (by simpa using hmem)]
    rfl

lemma nodup_eraseDups (xs : List α) : xs.eraseDups.Nodup := by
  classical
  induction xs using List.reverseRecOn with
  | nil => exact List.nodup_nil
  | append_singleton xs x ih =>
    rw [eraseDups_concat]
    split
    · exact ih
    · next hmem =>
      refine List.nodup_append.2 ⟨ih, List.pairwise_singleton .., ?_⟩
      rintro y hy _ hx rfl
      rw [List.mem_singleton.1 hx] at hy
      exact hmem (List.mem_eraseDups.1 hy)

/-- A function that tells the items apart may be applied before or after. -/
lemma eraseDups_map {f : α → β} {xs : List α} (h : ∀ x ∈ xs, ∀ y ∈ xs, f x = f y → x = y) :
    (xs.map f).eraseDups = xs.eraseDups.map f := by
  classical
  induction xs using List.reverseRecOn with
  | nil => rfl
  | append_singleton xs x ih =>
    have hinj : ∀ y ∈ xs, ∀ z ∈ xs, f y = f z → y = z := fun y hy z hz =>
      h y (List.mem_append_left _ hy) z (List.mem_append_left _ hz)
    have hmem : f x ∈ xs.map f ↔ x ∈ xs := by
      rw [List.mem_map]
      constructor
      · rintro ⟨y, hy, heq⟩
        rwa [← h y (List.mem_append_left _ hy) x List.mem_concat_self heq]
      · exact fun hx => ⟨x, hx, rfl⟩
    rw [List.map_append, List.map_singleton, eraseDups_concat, eraseDups_concat, ih hinj]
    simp only [hmem]
    split
    · rfl
    · rw [List.map_append, List.map_singleton]

end

end Stencil
