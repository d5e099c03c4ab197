import Mathlib.Tactic.Lemma
import Stencil.Registry.Basic

/-!
# Counts and kinds of arguments

Binding checks the number of arguments first. Main statements: `Signature.count_of_bind`, bound
arguments have a number that the signature allows, and `Signature.mismatch_of_bind`, with such a
number binding fails over a kind only. `Signature.misplaced?_eq_none` says which signatures a registry
accepts.
-/

namespace Stencil

namespace Signature

/-- The signature allows the number of arguments. -/
def Allows (s : Signature) (count : Nat) : Prop := s.least ≤ count ∧ s.exceeds count = false

lemma checkKinds_fault {s : Signature} {place : Nat} {args : List Value} {fault : BindFault}
    (h : s.checkKinds place args = .error fault) : ∃ p t k, fault = .mismatch p t k := by
  induction args generalizing place with
  | nil => cases h
  | cons v rest ih =>
    rw [checkKinds] at h
    split at h
    · split at h
      · exact ih h
      · cases h
        exact ⟨_, _, _, rfl⟩
    · exact ih h

lemma count_of_bind {s : Signature} {args bound : List Value} (h : s.bind args = .ok bound) :
    s.Allows args.length := by
  unfold bind at h
  split at h
  · cases h
  · next hmost =>
    split at h
    · cases h
    · next hleast => exact ⟨Nat.le_of_not_lt hleast, Bool.eq_false_iff.2 hmost⟩

lemma mismatch_of_bind {s : Signature} {args : List Value} {fault : BindFault}
    (hcount : s.Allows args.length) (h : s.bind args = .error fault) :
    ∃ p t k, fault = .mismatch p t k := by
  unfold bind at h
  rw [if_neg (Bool.eq_false_iff.1 hcount.2), if_neg (Nat.not_lt.2 hcount.1)] at h
  cases hkinds : s.checkKinds 0 args with
  | error fault' =>
    rw [hkinds] at h
    cases h
    exact checkKinds_fault hkinds
  | ok =>
    rw [hkinds] at h
    cases h

/-- All required parameters come before all optional ones. -/
def Ordered (s : Signature) : Prop :=
  ∃ required optional, s.parameters = required ++ optional ∧
    (∀ p ∈ required, p.isOptional = false) ∧ ∀ p ∈ optional, p.isOptional = true

lemma misplaced?_append {required optional : List Parameter}
    (hrequired : ∀ p ∈ required, p.isOptional = false)
    (hoptional : ∀ p ∈ optional, p.isOptional = true) : misplaced? (required ++ optional) = none := by
  induction required with
  | nil =>
    cases optional with
    | nil => rfl
    | cons p rest =>
      obtain ⟨hp, hrest⟩ := List.forall_mem_cons.1 hoptional
      have hnone : (rest.find? fun q => !q.isOptional) = none := by
        rw [List.find?_eq_none]
        intro q hq
        rw [hrest q hq]
        decide
      rw [List.nil_append, misplaced?, if_pos hp, hnone]
      rfl
  | cons p rest ih =>
    obtain ⟨hp, hrest⟩ := List.forall_mem_cons.1 hrequired
    rw [List.cons_append, misplaced?, hp]
    exact ih hrest

/-- No parameter is misplaced exactly if the required ones come first. -/
theorem misplaced?_eq_none {s : Signature} : misplaced? s.parameters = none ↔ s.Ordered := by
  constructor
  · unfold Ordered
    generalize s.parameters = ps
    intro h
    induction ps with
    | nil => exact ⟨[], [], rfl, nofun, nofun⟩
    | cons p rest ih =>
      rw [misplaced?] at h
      split at h
      · next hp =>
        rw [Option.map_eq_none_iff, List.find?_eq_none] at h
        refine ⟨[], p :: rest, rfl, nofun, List.forall_mem_cons.2 ⟨hp, fun q hq => ?_⟩⟩
        simpa using h q hq
      · next hp =>
        obtain ⟨required, optional, rfl, hrequired, hoptional⟩ := ih h
        refine ⟨p :: required, optional, rfl, ?_, hoptional⟩
        exact List.forall_mem_cons.2 ⟨Bool.eq_false_iff.2 hp, hrequired⟩
  · rintro ⟨required, optional, hs, hrequired, hoptional⟩
    rw [hs]
    exact misplaced?_append hrequired hoptional

/-- Where the required parameters come first, they are those at the places below the least number of
arguments. -/
lemma Ordered.required_iff {s : Signature} (h : s.Ordered) {place : Nat} {p : Parameter}
    (hp : s.parameters[place]? = some p) : p.isOptional = false ↔ place < s.least := by
  obtain ⟨required, optional, hs, hrequired, hoptional⟩ := h
  have hleast : s.least = required.length := by
    have hall : required.filter (fun p => !p.isOptional) = required :=
      List.filter_eq_self.2 fun q hq => by rw [hrequired q hq]; rfl
    have hnone : optional.filter (fun p => !p.isOptional) = [] :=
      List.filter_eq_nil_iff.2 fun q hq => by rw [hoptional q hq]; decide
    rw [least, hs, List.filter_append, hall, hnone, List.append_nil]
  rw [hs] at hp
  rw [hleast]
  by_cases hplace : place < required.length
  · rw [List.getElem?_append_left hplace] at hp
    exact ⟨fun _ => hplace, fun _ => hrequired p (List.mem_of_getElem? hp)⟩
  · rw [List.getElem?_append_right (Nat.le_of_not_lt hplace)] at hp
    rw [hoptional p (List.mem_of_getElem? hp)]
    exact ⟨nofun, fun h => absurd h hplace⟩

lemma least_le (s : Signature) : s.least ≤ s.parameters.length := List.length_filter_le ..

end Signature

/-- The function takes the number of arguments. -/
def Registration.Takes (f : Registration) (count : Nat) : Prop :=
  ∀ s, f.signature = some s → s.Allows count

namespace Registration

lemma takes_of_bind {f : Registration} {args bound : List Value} (h : f.bind args = .ok bound) :
    f.Takes args.length := by
  intro s hs
  unfold bind at h
  rw [hs] at h
  exact Signature.count_of_bind h

lemma mismatch_of_bind {f : Registration} {args : List Value} {fault : BindFault}
    (hcount : f.Takes args.length) (h : f.bind args = .error fault) :
    ∃ p t k, fault = .mismatch p t k := by
  unfold bind at h
  cases hs : f.signature with
  | none => rw [hs] at h; cases h
  | some s =>
    rw [hs] at h
    exact Signature.mismatch_of_bind (hcount s hs) h

end Registration

end Stencil
