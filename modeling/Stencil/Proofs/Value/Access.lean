import Stencil.Proofs.Table
import Stencil.Value.Access

/-!
# Writing parts of values

What a value is after one of its parts was written. Main statement: `Value.set_lens`. A part that was
written is the one that is read, all other parts stay, and nothing tells the order of two writes in
different places. Keys of an array that read as the same index name the same place.
-/

namespace Stencil

namespace Value

/-- The two keys name the same place: the same key of an object, the same index of an array. -/
def SameSlot : Value → Text → Text → Prop
  | .object _, key, key' => key = key'
  | .array _, key, key' => ∃ i, key.index? = some i ∧ key'.index? = some i
  | _, _, _ => False

/-- A part can be written under the key: any key of an object, and one of an array under which there
is a part. -/
def Writable (v : Value) (key : Text) : Prop :=
  match v with
  | .object _ => True
  | .array _ => (v.get? key).isSome
  | _ => False

/-- What the value `w` is that came from `v` when a part was written under a key. -/
structure Written (v : Value) (key : Text) (part w : Value) : Prop where
  here : w.get? key = some part
  elsewhere {key' : Text} : ¬ v.SameSlot key key' → w.get? key' = v.get? key'
  again (part' : Value) : w.set key part' = v.set key part'
  items {items : List Value} : v = .array items →
    ∃ items', w = .array items' ∧ items'.length = items.length
  entries {entries : Table Value} : v = .object entries →
    ∃ entries' : Table Value, w = .object entries' ∧
      entries'.length = (if key ∈ entries.keys then entries.length else entries.length + 1) ∧
      entries'.keys = if key ∈ entries.keys then entries.keys else entries.keys ++ [key]
  commute {key' : Text} {part' w' : Value} : ¬ v.SameSlot key key' → v.set key' part' = .ok w' →
    ∃ z z', w.set key' part' = .ok z ∧ w'.set key part = .ok z' ∧ ∀ k, z.get? k = z'.get? k

variable {v w part part' : Value} {key key' : Text} {items : List Value} {entries : Table Value}
  {i j : Nat}

lemma get?_object (entries : Table Value) (key : Text) :
    (object entries).get? key = entries.find? key := rfl

lemma get?_array (hkey : key.index? = some i) : (array items).get? key = items[i]? := by
  rw [get?, hkey]
  rfl

/-- What is no index of an array has no part in it. -/
lemma get?_array_none (hkey : key.index? = none) : (array items).get? key = none := by
  rw [get?, hkey]
  rfl

lemma set_object (entries : Table Value) (key : Text) (part : Value) :
    (object entries).set key part = .ok (.object (entries.insert key part)) := rfl

lemma set_array (hkey : key.index? = some i) (hi : i < items.length) :
    (array items).set key part = .ok (.array (items.set i part)) := by
  rw [set]
  simp only [hkey, if_pos hi]

/-- A part is written in an object, or in an array at an index that it has. -/
lemma set_eq_ok (h : v.set key part = .ok w) :
    (∃ entries, v = .object entries ∧ w = .object (Table.insert key part entries)) ∨
      ∃ items i, v = .array items ∧ key.index? = some i ∧ i < items.length ∧
        w = .array (items.set i part) := by
  cases v with
  | object entries =>
    cases h
    exact .inl ⟨entries, rfl, rfl⟩
  | array items =>
    rw [set] at h
    split at h
    · cases h
    · next i hi =>
      split at h
      · next hlt =>
        cases h
        exact .inr ⟨items, i, rfl, hi, hlt, rfl⟩
      · cases h
  | _ => cases h

/-- The part that is there can be written again, which changes nothing. -/
lemma set_get? (h : v.get? key = some part) : v.set key part = .ok v := by
  cases v with
  | object entries => rw [set_object, Table.insert_find? h]
  | array items =>
    cases hkey : key.index? with
    | none =>
      rw [get?_array_none hkey] at h
      cases h
    | some i =>
      rw [get?_array hkey] at h
      obtain ⟨hi, hpart⟩ := List.getElem?_eq_some_iff.1 h
      rw [set_array hkey hi, ← hpart, List.set_getElem_self]
  | _ => cases h

lemma exists_set_iff : (∃ w, v.set key part = .ok w) ↔ v.Writable key := by
  cases v with
  | object entries => exact ⟨fun _ => trivial, fun _ => ⟨_, set_object entries key part⟩⟩
  | array items =>
    constructor
    · rintro ⟨w, hw⟩
      obtain ⟨_, ⟨⟩, -⟩ | ⟨_, i, ⟨⟩, hkey, hi, -⟩ := set_eq_ok hw
      rw [Writable, get?_array hkey, List.getElem?_eq_getElem hi]
      rfl
    · intro h
      cases hkey : key.index? with
      | none =>
        rw [Writable, get?_array_none hkey] at h
        cases h
      | some i =>
        rw [Writable, get?_array hkey] at h
        obtain ⟨_, hpart⟩ := Option.isSome_iff_exists.1 h
        exact ⟨_, set_array hkey (List.getElem?_eq_some_iff.1 hpart).1⟩
  | _ => exact ⟨fun h => (nomatch h), False.elim⟩

lemma get?_set_array (hi : i < items.length) (k : Text) :
    (array (items.set i part)).get? k =
      if k.index? = some i then some part else (array items).get? k := by
  cases hk : k.index? with
  | none => rw [get?_array_none hk, get?_array_none hk, if_neg nofun]
  | some j =>
    rw [get?_array hk, get?_array hk, List.getElem?_set]
    by_cases hij : i = j
    · rw [if_pos hij, if_pos hi, if_pos (congrArg some hij.symm)]
    · rw [if_neg hij, if_neg (mt (fun h => (Option.some.inj h).symm) hij)]

lemma written_object (entries : Table Value) (key : Text) (part : Value) :
    Written (.object entries) key part (.object (entries.insert key part)) where
  here := by rw [get?_object, Table.find?_insert, if_pos rfl]
  elsewhere hslot := by rw [get?_object, Table.find?_insert, if_neg (Ne.symm hslot), get?_object]
  again part' := by rw [set_object, Table.insert_insert, set_object]
  items := nofun
  entries := by
    rintro _ ⟨⟩
    exact ⟨_, rfl, Table.length_insert .., Table.keys_insert ..⟩
  commute := by
    intro key' part' w' hslot hw'
    cases hw'
    have hne : key ≠ key' := hslot
    refine ⟨_, _, rfl, rfl, fun k => ?_⟩
    simp only [get?_object, Table.find?_insert]
    by_cases hk : k = key
    · rw [if_pos hk, if_pos hk, if_neg (hk ▸ hne)]
    · rw [if_neg hk, if_neg hk]

lemma written_array (hkey : key.index? = some i) (hi : i < items.length) :
    Written (.array items) key part (.array (items.set i part)) where
  here := by rw [get?_set_array hi, if_pos hkey]
  elsewhere hslot := by
    rw [get?_set_array hi, if_neg]
    exact fun hkey' => hslot ⟨i, hkey, hkey'⟩
  again part' := by
    rw [set_array hkey (by rwa [List.length_set]), set_array hkey hi, List.set_set]
  items := by
    rintro _ ⟨⟩
    exact ⟨_, rfl, List.length_set⟩
  entries := nofun
  commute := by
    intro key' part' w' hslot hw'
    obtain ⟨_, ⟨⟩, -⟩ | ⟨_, j, ⟨⟩, hkey', hj, rfl⟩ := set_eq_ok hw'
    have hne : i ≠ j := by
      rintro rfl
      exact hslot ⟨i, hkey, hkey'⟩
    refine ⟨_, _, set_array hkey' (by rwa [List.length_set]),
      set_array hkey (by rwa [List.length_set]), fun k => ?_⟩
    rw [List.set_comm _ _ hne]

/-- A part can be written in an object under any key, in an array where there is a part, and nowhere
else. It is then read under its key and under the other keys of the same place, and all other parts
stay. Of two writes in one place the second counts, those in different places commute, and to write
what is there changes nothing. Neither the size of an array nor the order of keys changes, except
that a new key comes last. -/
theorem set_lens (v : Value) (key : Text) :
    (∀ part, (∃ w, v.set key part = .ok w) ↔ v.Writable key) ∧
      (∀ part, v.get? key = some part → v.set key part = .ok v) ∧
      ∀ part w, v.set key part = .ok w → Written v key part w := by
  refine ⟨fun part => exists_set_iff, fun part => set_get?, fun part w hw => ?_⟩
  obtain ⟨entries, rfl, rfl⟩ | ⟨items, i, rfl, hkey, hi, rfl⟩ := set_eq_ok hw
  · exact written_object entries key part
  · exact written_array hkey hi

theorem set_lens_zeros :
    let v : Value := .array [.null, .object [("b", .null), ("a", .bool true)]]
    (v.Writable "01" ∧ ¬ v.Writable "2") ∧
    (∃ part, v.get? "01" = some part ∧ v.set "01" part = .ok v) ∧
    ∃ w, v.set "01" .null = .ok w ∧ Written v "01" .null w ∧
      v.SameSlot "01" "1" ∧ w.get? "1" = some .null := by
  intro v
  obtain ⟨hwritable, hsame, hwritten⟩ := set_lens v "01"
  have hpart : v.get? "01" = some (.object [("b", .null), ("a", .bool true)]) := rfl
  have hset : v.set "01" .null = .ok (.array [.null, .null]) := rfl
  exact ⟨⟨(hwritable .null).1 ⟨_, hset⟩, nofun⟩, ⟨_, hpart, hsame _ hpart⟩,
    _, hset, hwritten _ _ hset, ⟨1, rfl, rfl⟩, rfl⟩

end Value

end Stencil
