import Stencil.Proofs.Distinct
import Stencil.Table

/-!
# Writing to tables

What is found in a table after entries are written and removed. Main statement:
`Table.records_ofEntries`: a table that is written entry by entry has the last one of each key, in the
order in which the keys first came.
-/

namespace Stencil

namespace Table

variable {α : Type}

lemma find?_cons (key : Text) (entry : α) (t : Table α) (k : Text) :
    find? ((key, entry) :: t) k = if k = key then some entry else t.find? k := by
  rw [find?, List.lookup_cons]
  by_cases h : k = key
  · rw [if_pos h, beq_iff_eq.2 h]
  · rw [if_neg h, beq_false_of_ne h]
    rfl

/-- Writing an entry changes what is found under its key, and nothing else. -/
lemma find?_insert (t : Table α) (key : Text) (entry : α) (k : Text) :
    (t.insert key entry).find? k = if k = key then some entry else t.find? k := by
  induction t with
  | nil => exact find?_cons key entry [] k
  | cons e rest ih =>
    obtain ⟨key', old⟩ := e
    rw [insert, find?_cons key' old]
    by_cases hkey : key' = key
    · subst hkey
      rw [if_pos rfl, find?_cons]
      split <;> rfl
    · rw [if_neg hkey, find?_cons, ih]
      by_cases h : k = key'
      · rw [if_pos h, if_pos h, if_neg (h ▸ hkey)]
      · rw [if_neg h, if_neg h]

/-- Removing an entry changes what is found under its key, and nothing else. -/
lemma find?_erase (t : Table α) (key k : Text) :
    (t.erase key).find? k = if k = key then none else t.find? k := by
  induction t with
  | nil => exact (ite_self none).symm
  | cons e rest ih =>
    obtain ⟨key', old⟩ := e
    rw [erase] at ih
    rw [erase, find?_cons key' old]
    by_cases hkey : key' = key
    · subst hkey
      rw [List.filter_cons_of_neg (by simp), ih]
      split <;> rfl
    · rw [List.filter_cons_of_pos (by simpa using hkey), find?_cons, ih]
      by_cases h : k = key'
      · rw [if_pos h, if_pos h, if_neg (h ▸ hkey)]
      · rw [if_neg h, if_neg h]

lemma keys_insert (t : Table α) (key : Text) (entry : α) :
    (t.insert key entry).keys = if key ∈ t.keys then t.keys else t.keys ++ [key] := by
  induction t with
  | nil => rfl
  | cons e rest ih =>
    obtain ⟨key', old⟩ := e
    rw [insert]
    by_cases hkey : key' = key
    · subst hkey
      have hmem : key' ∈ keys ((key', old) :: rest) := List.mem_cons_self
      rw [if_pos rfl, if_pos hmem]
      rfl
    · have hmem : key ∈ keys ((key', old) :: rest) ↔ key ∈ keys rest :=
        List.mem_cons.trans (or_iff_right (Ne.symm hkey))
      rw [if_neg hkey, keys, List.map_cons, ← keys, ih, if_congr hmem rfl rfl]
      split <;> rfl

/-- Of two entries written under a key the second stays. -/
lemma insert_insert (t : Table α) (key : Text) (first second : α) :
    (t.insert key first).insert key second = t.insert key second := by
  induction t with
  | nil => exact if_pos rfl
  | cons e rest ih =>
    obtain ⟨key', old⟩ := e
    rw [insert, insert]
    by_cases hkey : key' = key
    · rw [if_pos hkey, if_pos hkey, insert, if_pos rfl]
    · rw [if_neg hkey, if_neg hkey, insert, if_neg hkey, ih]

/-- To write the entry that is there changes nothing. -/
lemma insert_find? {t : Table α} {key : Text} {entry : α} (h : t.find? key = some entry) :
    t.insert key entry = t := by
  induction t with
  | nil => cases h
  | cons e rest ih =>
    obtain ⟨key', old⟩ := e
    rw [find?_cons] at h
    rw [insert]
    by_cases hkey : key = key'
    · rw [if_pos hkey] at h
      cases h
      rw [if_pos hkey.symm, hkey]
    · rw [if_neg hkey] at h
      rw [if_neg (Ne.symm hkey), ih h]

/-- The keys are those under which there is an entry. -/
lemma mem_keys_iff {t : Table α} {key : Text} : key ∈ t.keys ↔ (t.find? key).isSome := by
  induction t with
  | nil => exact ⟨nofun, nofun⟩
  | cons e rest ih =>
    obtain ⟨key', old⟩ := e
    rw [find?_cons, keys, List.map_cons, List.mem_cons, ← keys]
    by_cases hkey : key = key'
    · rw [if_pos hkey]
      exact ⟨fun _ => rfl, fun _ => .inl hkey⟩
    · rw [if_neg hkey, ← ih]
      exact or_iff_right hkey

/-- Writing an entry leaves no key twice where none was. -/
lemma unique_insert {t : Table α} (h : t.Unique) (key : Text) (entry : α) :
    (t.insert key entry).Unique := by
  have hkeys : t.keys.Nodup := h
  rw [Unique, ← keys, keys_insert]
  split
  · exact hkeys
  · next hkey =>
    refine List.nodup_append.2 ⟨hkeys, List.pairwise_singleton _ key, fun k hk k' hk' => ?_⟩
    obtain rfl := List.mem_singleton.1 hk'
    rintro rfl
    exact hkey hk

lemma unique_erase {t : Table α} (h : t.Unique) (key : Text) : (t.erase key).Unique :=
  h.sublist (List.filter_sublist.map Prod.fst)

lemma length_keys (t : Table α) : t.keys.length = t.length := List.length_map ..

/-- A table grows by one with a new key, and not with one that it has. -/
lemma length_insert (t : Table α) (key : Text) (entry : α) :
    (t.insert key entry).length = if key ∈ t.keys then t.length else t.length + 1 := by
  rw [← length_keys, keys_insert]
  split
  · exact length_keys t
  · rw [List.length_append, length_keys]
    rfl

/-- The table has what was last written under each key, in the order in which the keys first came. -/
structure Records (writes : List (Text × α)) (t : Table α) : Prop where
  keys : t.keys = (writes.map Prod.fst).eraseDups
  latest (key : Text) : t.find? key = writes.reverse.lookup key

/-- A table that is written entry by entry records what was written. -/
theorem records_ofEntries (writes : List (Text × α)) : Records writes (ofEntries writes) := by
  induction writes using List.reverseRecOn with
  | nil => exact ⟨rfl, fun _ => rfl⟩
  | append_singleton writes e ih =>
    obtain ⟨key, entry⟩ := e
    have hstep : ofEntries (writes ++ [(key, entry)]) = (ofEntries writes).insert key entry :=
      List.foldl_append
    rw [hstep]
    constructor
    · rw [keys_insert, ih.keys, List.map_append, List.map_singleton, eraseDups_concat]
      simp only [List.mem_eraseDups]
    · intro k
      rw [find?_insert, ih.latest, List.reverse_concat]
      exact (find?_cons key entry writes.reverse k).symm

end Table

end Stencil
