import Stencil.Proofs.Registry.Signature
import Stencil.Proofs.Table

/-!
# Registries that are built up

A registry that comes from an empty one by adding and removing functions has each of them under its
own name. Main statements: `Registry.exists_insert_iff` says which functions can be added, and
`Registry.Built.name_eq` under which name they are found.
-/

namespace Stencil

namespace Registry

/-- The registries that come from an empty one by adding and removing functions. -/
inductive Built : Registry → Prop where
  | empty : Built .empty
  | unbound : Built .unbound
  | insert {r r' f} :
    Built r →
    r.insert f = .ok r' →
    Built r'
  | erase {r} (name : Text) :
    Built r →
    Built (r.erase name)

lemma exists_insert {r : Registry} {f : Registration} :
    (∃ r', r.insert f = .ok r') ↔ refusal? f.name f.signature = none := by
  unfold insert
  cases refusal? f.name f.signature with
  | none => exact ⟨fun _ => rfl, fun _ => ⟨_, rfl⟩⟩
  | some fault => exact ⟨nofun, nofun⟩

lemma refusal?_eq_none {name : Text} {signature : Option Signature} :
    refusal? name signature = none ↔
      name.isName = true ∧ name ≠ "if" ∧ ∀ s, signature = some s → s.Ordered := by
  have hmisplaced : ((signature.bind fun s => Signature.misplaced? s.parameters).map
      RegistryFault.misplaced) = none ↔ ∀ s, signature = some s → s.Ordered := by
    rw [Option.map_eq_none_iff, Option.bind_eq_none_iff]
    exact forall₂_congr fun s _ => Signature.misplaced?_eq_none
  rw [← hmisplaced, refusal?]
  cases name.isName with
  | false => exact ⟨nofun, nofun⟩
  | true =>
    rw [if_neg (by decide)]
    split
    · next hif => exact ⟨nofun, fun h => absurd hif h.2.1⟩
    · next hif => exact ⟨fun h => ⟨rfl, hif, h⟩, fun h => h.2.2⟩

/-- A function can be added if its name is one, save that of the conditional, and its signature has the
required parameters first. -/
theorem exists_insert_iff {r : Registry} {f : Registration} :
    (∃ r', r.insert f = .ok r') ↔
      f.name.isName = true ∧ f.name ≠ "if" ∧ ∀ s, f.signature = some s → s.Ordered := by
  rw [exists_insert, refusal?_eq_none]

lemma find?_of_insert {r r' : Registry} {f : Registration} (h : r.insert f = .ok r') (name : Text) :
    r'.find? name = if name = f.name then some f else r.find? name := by
  rw [insert] at h
  split at h
  · cases h
  · cases h
    exact Table.find?_insert r.entries f.name f name

lemma find?_erase (r : Registry) (erased name : Text) :
    (r.erase erased).find? name = if name = erased then none else r.find? name := by
  rw [erase]
  split
  · exact Table.find?_erase r.entries erased name
  · next h =>
    split
    · next heq =>
      subst heq
      exact Option.not_isSome_iff_eq_none.1 h
    · rfl

/-- A function is found under its own name only. -/
theorem Built.name_eq {r : Registry} (h : r.Built) {name : Text} {f : Registration}
    (hf : r.find? name = some f) : f.name = name := by
  induction h with
  | empty => cases hf
  | unbound => cases hf
  | insert _ hr ih =>
    rw [find?_of_insert hr] at hf
    split at hf
    · next heq =>
      cases hf
      exact heq.symm
    · exact ih hf
  | erase erased _ ih =>
    rw [find?_erase] at hf
    split at hf
    · cases hf
    · exact ih hf

end Registry

end Stencil
