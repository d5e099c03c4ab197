import Mathlib.Data.List.Perm.Subperm
import Stencil.Proofs.Number.Whole
import Stencil.Proofs.Table
import Stencil.Value.Access
import Stencil.Value.Coercion
import Stencil.Value.Equality

/-!
# Laws of equality

Equality of values is seen from outside: two arrays are equal if they have equal items at each index,
and two objects if they have equal entries under each key. Main statement: `Value.equals_laws`.
Equality is an equivalence on values without anything that is not a number, and what is asked of a
value or of a part of it does not tell equal values apart.
-/

namespace Stencil

namespace Number

variable {x y z : Number}

/-- Numbers are equal if they are the same number or both zero. -/
lemma eq_iff : x.eq y ↔ x = y ∧ x ≠ .nan ∨ x.isZero ∧ y.isZero := by
  cases x with
  | nan => simp [eq, isZero]
  | infinite s => cases y <;> simp [eq, isZero]
  | finite s m =>
    cases y with
    | nan => simp [eq, isZero]
    | infinite t => simp [eq, isZero]
    | finite t n =>
      simp only [eq, isZero, beq_iff_eq, finite.injEq, ne_eq, reduceCtorEq, not_false_eq_true,
        and_true]
      constructor
      · intro h
        have hunits : m.units = n.units := by
          rw [← natAbs_signed s m.units, h, natAbs_signed]
        by_cases hzero : m.units = 0
        · exact .inr ⟨hzero, hunits ▸ hzero⟩
        · refine .inl ⟨?_, Magnitude.ext hunits⟩
          cases s <;> cases t <;> simp only [signed, Bool.false_eq_true, if_true, if_false] at h ⊢ <;>
            omega
      · rintro (⟨rfl, rfl⟩ | ⟨hm, hn⟩)
        · rfl
        · rw [hm, hn]
          cases s <;> cases t <;> rfl

lemma ne_nan_of_isZero (h : x.isZero) : x ≠ .nan := by
  rintro rfl
  cases h

lemma eq_self_iff : x.eq x ↔ x ≠ .nan := by
  rw [eq_iff]
  exact ⟨fun h => h.elim And.right fun h => ne_nan_of_isZero h.1, fun h => .inl ⟨rfl, h⟩⟩

lemma eq_symm (h : x.eq y) : y.eq x := by
  rw [eq_iff] at *
  obtain ⟨rfl, h⟩ | ⟨hx, hy⟩ := h
  · exact .inl ⟨rfl, h⟩
  · exact .inr ⟨hy, hx⟩

lemma eq_trans (h : x.eq y) (h' : y.eq z) : x.eq z := by
  rw [eq_iff] at *
  obtain ⟨rfl, h⟩ | ⟨hx, hy⟩ := h
  · exact h'
  · obtain ⟨rfl, -⟩ | ⟨-, hz⟩ := h'
    · exact .inr ⟨hx, hy⟩
    · exact .inr ⟨hx, hz⟩

/-- Both zeros are written alike. -/
lemma text_of_isZero (h : x.isZero) : x.text = "0" := by
  cases x with
  | finite s m => exact if_pos (beq_iff_eq.1 h)
  | _ => cases h

end Number

namespace Table

variable {α : Type} {t t' : Table α} {key : Text} {entry : α}

instance (t : Table α) : Decidable t.Unique := inferInstanceAs (Decidable (t.map Prod.fst).Nodup)

lemma mem_of_find? (h : t.find? key = some entry) : (key, entry) ∈ t := by
  obtain ⟨before, after, rfl, -⟩ := List.lookup_eq_some_iff.1 h
  exact List.mem_append_right _ List.mem_cons_self

/-- Where no key occurs twice, each entry is found under its key. -/
lemma find?_of_mem (ht : t.Unique) (h : (key, entry) ∈ t) : t.find? key = some entry := by
  induction t with
  | nil => cases h
  | cons e rest ih =>
    obtain ⟨key', old⟩ := e
    obtain ⟨hkey', hrest⟩ := List.nodup_cons.1 ht
    rw [find?_cons]
    obtain ⟨⟩ | ⟨_, h⟩ := h
    · exact if_pos rfl
    · have hne : key ≠ key' := by
        rintro rfl
        exact hkey' (List.mem_map.2 ⟨_, h, rfl⟩)
      rw [if_neg hne, ih hrest h]

/-- The order of entries does not matter to what is found. -/
lemma find?_perm (ht : t.Unique) (h : t.Perm t') (key : Text) : t.find? key = t'.find? key := by
  have ht' : t'.Unique := (h.map Prod.fst).nodup_iff.1 ht
  rw [Option.ext_iff]
  intro entry
  exact ⟨fun hf => find?_of_mem ht' (h.mem_iff.1 (mem_of_find? hf)),
    fun hf => find?_of_mem ht (h.mem_iff.2 (mem_of_find? hf))⟩

lemma mem_insert {next : α} {e : Text × α} (h : e ∈ t.insert key next) : e.2 = next ∨ e ∈ t := by
  induction t with
  | nil =>
    obtain rfl := List.mem_singleton.1 h
    exact .inl rfl
  | cons e' rest ih =>
    rw [insert] at h
    split at h
    · obtain ⟨⟩ | ⟨_, h⟩ := h
      · exact .inl rfl
      · exact .inr (List.mem_cons_of_mem _ h)
    · obtain ⟨⟩ | ⟨_, h⟩ := h
      · exact .inr List.mem_cons_self
      · exact (ih h).imp_right (List.mem_cons_of_mem _)

end Table

namespace Value

/-- The values that an array or an object holds. -/
def parts : Value → List Value
  | .array items => items
  | .object entries => entries.map Prod.snd
  | _ => []

/-- The first value is the second one or occurs in it, at any depth. -/
inductive Occurs (q : Value) : Value → Prop where
  | self : Occurs q q
  | part {v p : Value} : p ∈ v.parts → Occurs q p → Occurs q v

/-- The second value is the first one with the entries of some objects in it in another order. -/
inductive Reordered : Value → Value → Prop where
  | refl (v : Value) : Reordered v v
  | trans {u v w : Value} : Reordered u v → Reordered v w → Reordered u w
  | entries {as bs : Table Value} : as.Perm bs → Reordered (.object as) (.object bs)
  | item {items : List Value} {i : Nat} {p q : Value} :
    items[i]? = some p → Reordered p q → Reordered (.array items) (.array (items.set i q))
  | entry {entries : Table Value} {key : Text} {p q : Value} :
    entries.find? key = some p → Reordered p q →
    Reordered (.object entries) (.object (entries.insert key q))

/-- What is asked of values has the same answer for both, and parts at the same place are equal. -/
structure Alike (v w : Value) : Prop where
  kind : v.kind = w.kind
  isTruthy : v.isTruthy = w.isTruthy
  isEmpty : v.isEmpty = w.isEmpty
  asString : v.asString = w.asString
  length : v.length = w.length
  navigate? (path : Text) :
    Option.Rel (fun p q => p.equals q) (v.navigate? path) (w.navigate? path)

variable {u v w p q : Value} {items items' : List Value} {entries entries' : Table Value}

lemma sizeOf_part (hp : p ∈ v.parts) : sizeOf p < sizeOf v := by
  cases v with
  | array items =>
    have : sizeOf p < sizeOf items := List.sizeOf_lt_of_mem hp
    rw [array.sizeOf_spec]
    omega
  | object entries =>
    obtain ⟨e, he, rfl⟩ := List.mem_map.1 hp
    have := List.sizeOf_lt_of_mem he
    obtain ⟨key, p⟩ := e
    rw [Prod.mk.sizeOf_spec] at this
    rw [object.sizeOf_spec]
    dsimp only
    omega
  | _ => cases hp

/-- What holds of a value whenever it holds of its parts, holds of all values. -/
theorem induct_parts {motive : Value → Prop} (step : ∀ v, (∀ p ∈ v.parts, motive p) → motive v)
    (v : Value) : motive v :=
  step v fun p _ => induct_parts step p
termination_by sizeOf v
decreasing_by exact sizeOf_part ‹_›

lemma mem_parts_array {i : Nat} (h : items[i]? = some p) : p ∈ (array items).parts :=
  List.mem_of_getElem? h

lemma mem_parts_object {key : Text} (h : entries.find? key = some p) : p ∈ (object entries).parts :=
  List.mem_map.2 ⟨_, Table.mem_of_find? h, rfl⟩

lemma mem_parts_of_get? {key : Text} (h : v.get? key = some p) : p ∈ v.parts := by
  cases v with
  | object entries => exact mem_parts_object h
  | array items =>
    obtain ⟨i, -, hi⟩ := Option.bind_eq_some_iff.1 h
    exact mem_parts_array hi
  | _ => cases h

/-! ## Well-formed values -/

lemma wellFormed_array : (array items).WellFormed ↔ ∀ p ∈ items, p.WellFormed := by
  rw [WellFormed]
  induction items with
  | nil => exact ⟨fun _ => nofun, fun _ => trivial⟩
  | cons v rest ih => rw [WellFormedItems, ih, List.forall_mem_cons]

lemma wellFormed_object :
    (object entries).WellFormed ↔ entries.Unique ∧ ∀ e ∈ entries, e.2.WellFormed := by
  rw [WellFormed]
  apply and_congr_right
  intro hunique
  clear hunique
  induction entries with
  | nil => exact ⟨fun _ => nofun, fun _ => trivial⟩
  | cons e rest ih =>
    obtain ⟨key, v⟩ := e
    rw [WellFormedEntries, ih, List.forall_mem_cons]

lemma WellFormed.part (h : v.WellFormed) (hp : p ∈ v.parts) : p.WellFormed := by
  cases v with
  | array items => exact wellFormed_array.1 h p hp
  | object entries =>
    obtain ⟨e, he, rfl⟩ := List.mem_map.1 hp
    exact (wellFormed_object.1 h).2 e he
  | _ => cases hp

lemma WellFormed.unique (h : (object entries).WellFormed) : entries.Unique :=
  (wellFormed_object.1 h).1

/-! ## Equality part by part -/

lemma isSome_of_rel {x y : Option Value} (h : Option.Rel (fun p q => p.equals q) x y) :
    x.isSome = y.isSome := by
  cases h with
  | none => rfl
  | some => rfl

lemma eq_none_iff_of_rel {x y : Option Value} (h : Option.Rel (fun p q => p.equals q) x y) :
    x = none ↔ y = none := by
  rw [← Option.not_isSome_iff_eq_none, ← Option.not_isSome_iff_eq_none, isSome_of_rel h]

lemma exists_of_rel {y : Option Value} (h : Option.Rel (fun p q => p.equals q) (some p) y) :
    ∃ q, y = some q ∧ p.equals q := by
  cases h with
  | some hpq => exact ⟨_, rfl, hpq⟩

lemma equalItems_iff : equalItems items items' ↔
    ∀ i : Nat, Option.Rel (fun p q => p.equals q) items[i]? items'[i]? := by
  induction items generalizing items' with
  | nil =>
    cases items' with
    | nil => exact ⟨fun _ _ => .none, fun _ => rfl⟩
    | cons q rest => exact ⟨nofun, fun h => nomatch h 0⟩
  | cons p rest ih =>
    cases items' with
    | nil => exact ⟨nofun, fun h => nomatch h 0⟩
    | cons q rest' =>
      rw [equalItems, Bool.and_eq_true, ih]
      constructor
      · rintro ⟨hpq, hrest⟩ i
        cases i with
        | zero => exact .some hpq
        | succ i => exact hrest i
      · intro h
        obtain ⟨_, ⟨⟩, hpq⟩ := exists_of_rel (h 0)
        exact ⟨hpq, fun i => h (i + 1)⟩

/-- Arrays are equal if they have equal items at each index. -/
lemma equals_array : (array items).equals (array items') ↔
    ∀ i : Nat, Option.Rel (fun p q => p.equals q) items[i]? items'[i]? := by
  rw [equals, equalItems_iff]

lemma equalEntries_iff : equalEntries entries entries' ↔
    ∀ e ∈ entries, ∃ q, entries'.find? e.1 = some q ∧ e.2.equals q := by
  induction entries with
  | nil => exact ⟨fun _ => nofun, fun _ => rfl⟩
  | cons e rest ih =>
    obtain ⟨key, p⟩ := e
    rw [equalEntries, Bool.and_eq_true, ih, List.forall_mem_cons]
    refine and_congr_left fun _ => ?_
    cases entries'.find? key with
    | none => simp
    | some q => simp

/-- Objects are equal if they have equal entries under each key. As many different keys, all of them
among those of the other object, are the same keys. -/
lemma equals_object (ht : entries.Unique) (ht' : entries'.Unique) :
    (object entries).equals (object entries') ↔
      ∀ key, Option.Rel (fun p q => p.equals q) (entries.find? key) (entries'.find? key) := by
  rw [equals, Bool.and_eq_true, beq_iff_eq, equalEntries_iff]
  constructor
  · rintro ⟨hlength, h⟩ key
    have hsub : entries.keys ⊆ entries'.keys := by
      intro k hk
      obtain ⟨e, he, rfl⟩ := List.mem_map.1 hk
      obtain ⟨q, hq, -⟩ := h e he
      exact Table.mem_keys_iff.2 (Option.isSome_of_eq_some hq)
    have hle : entries'.keys.length ≤ entries.keys.length := by
      rw [Table.length_keys, Table.length_keys, hlength]
    have hkeys : entries.keys.Perm entries'.keys :=
      (List.Nodup.subperm ht hsub).perm_of_length_le hle
    cases hp : entries.find? key with
    | some p =>
      obtain ⟨q, hq, hpq⟩ := h _ (Table.mem_of_find? hp)
      rw [hq]
      exact .some hpq
    | none =>
      cases hq : entries'.find? key with
      | none => exact .none
      | some q =>
        have hmem := hkeys.mem_iff.2 (Table.mem_keys_iff.2 (Option.isSome_of_eq_some hq))
        rw [Table.mem_keys_iff, hp] at hmem
        cases hmem
  · intro h
    have hkeys : entries.keys.Perm entries'.keys := by
      refine (List.perm_ext_iff_of_nodup ht ht').2 fun key => ?_
      rw [← Table.keys, ← Table.keys, Table.mem_keys_iff, Table.mem_keys_iff, isSome_of_rel (h key)]
    refine ⟨?_, fun e he => ?_⟩
    · rw [← Table.length_keys, hkeys.length_eq, Table.length_keys]
    · have hrel := h e.1
      rw [Table.find?_of_mem ht he] at hrel
      exact exists_of_rel hrel

/-- The values are of one kind and match part by part, where the parts match as `R` says. -/
inductive Matching (R : Value → Value → Prop) : Value → Value → Prop where
  | null : Matching R .null .null
  | bool (b : Bool) : Matching R (.bool b) (.bool b)
  | integer (n : Whole) : Matching R (.integer n) (.integer n)
  | float {x y : Number} : x.eq y → Matching R (.float x) (.float y)
  | string (t : Text) : Matching R (.string t) (.string t)
  | array {items items' : List Value} :
    (∀ i : Nat, Option.Rel R items[i]? items'[i]?) → Matching R (.array items) (.array items')
  | object {entries entries' : Table Value} :
    (∀ key, Option.Rel R (entries.find? key) (entries'.find? key)) →
    Matching R (.object entries) (.object entries')

/-- Values are equal if they match and their parts are equal. -/
lemma equals_iff (hv : v.WellFormed) (hw : w.WellFormed) :
    v.equals w ↔ Matching (fun p q => p.equals q) v w := by
  constructor
  · intro h
    cases v with
    | null => cases w <;> first | exact .null | cases h
    | bool b =>
      cases w with
      | bool c =>
        obtain rfl := beq_iff_eq.1 h
        exact .bool b
      | _ => cases h
    | integer m =>
      cases w with
      | integer n =>
        obtain rfl := beq_iff_eq.1 h
        exact .integer m
      | _ => cases h
    | float x => cases w <;> first | exact .float h | cases h
    | string s =>
      cases w with
      | string t =>
        obtain rfl := beq_iff_eq.1 h
        exact .string s
      | _ => cases h
    | array items => cases w <;> first | exact .array (equals_array.1 h) | cases h
    | object entries =>
      cases w with
      | object entries' => exact .object ((equals_object hv.unique hw.unique).1 h)
      | _ => cases h
  · intro h
    cases h with
    | null => rfl
    | bool b => exact beq_self_eq_true b
    | integer n => exact beq_self_eq_true n
    | float h => exact h
    | string t => exact beq_self_eq_true t
    | array h => exact equals_array.2 h
    | object h => exact (equals_object hv.unique hw.unique).2 h

/-! ## An equivalence -/

lemma rel_symm {x y : Option Value} (h : Option.Rel (fun p q => p.equals q) x y)
    (hsymm : ∀ p ∈ x, ∀ q ∈ y, p.equals q → q.equals p) :
    Option.Rel (fun p q => p.equals q) y x := by
  cases h with
  | none => exact .none
  | some h => exact .some (hsymm _ rfl _ rfl h)

lemma rel_trans {x y z : Option Value} (h : Option.Rel (fun p q => p.equals q) x y)
    (h' : Option.Rel (fun p q => p.equals q) y z)
    (htrans : ∀ p ∈ x, ∀ q ∈ y, ∀ r ∈ z, p.equals q → q.equals r → p.equals r) :
    Option.Rel (fun p q => p.equals q) x z := by
  cases h with
  | none => exact h'
  | some h =>
    cases h' with
    | some h' => exact .some (htrans _ rfl _ rfl _ rfl h h')

theorem equals_symm (hv : v.WellFormed) (hw : w.WellFormed) (h : v.equals w) : w.equals v := by
  induction v using induct_parts generalizing w with
  | step v ih =>
    rw [equals_iff hv hw] at h
    rw [equals_iff hw hv]
    cases h with
    | null => exact .null
    | bool b => exact .bool b
    | integer n => exact .integer n
    | float h => exact .float (Number.eq_symm h)
    | string t => exact .string t
    | array h =>
      refine .array fun i => rel_symm (h i) fun p hp q hq => ?_
      exact ih p (mem_parts_array hp) (hv.part (mem_parts_array hp)) (hw.part (mem_parts_array hq))
    | object h =>
      refine .object fun key => rel_symm (h key) fun p hp q hq => ?_
      exact ih p (mem_parts_object hp) (hv.part (mem_parts_object hp))
        (hw.part (mem_parts_object hq))

theorem equals_trans (hu : u.WellFormed) (hv : v.WellFormed) (hw : w.WellFormed)
    (h : u.equals v) (h' : v.equals w) : u.equals w := by
  induction u using induct_parts generalizing v w with
  | step u ih =>
    rw [equals_iff hu hv] at h
    rw [equals_iff hv hw] at h'
    rw [equals_iff hu hw]
    cases h with
    | float h =>
      cases h' with
      | float h' => exact .float (Number.eq_trans h h')
    | array h =>
      cases h' with
      | array h' =>
        refine .array fun i => rel_trans (h i) (h' i) fun p hp q hq r hr => ?_
        exact ih p (mem_parts_array hp) (hu.part (mem_parts_array hp))
          (hv.part (mem_parts_array hq)) (hw.part (mem_parts_array hr))
    | object h =>
      cases h' with
      | object h' =>
        refine .object fun key => rel_trans (h key) (h' key) fun p hp q hq r hr => ?_
        exact ih p (mem_parts_object hp) (hu.part (mem_parts_object hp))
          (hv.part (mem_parts_object hq)) (hw.part (mem_parts_object hr))
    | _ => exact h'

lemma rel_self {x : Option Value} (h : ∀ p ∈ x, p.equals p) :
    Option.Rel (fun p q => p.equals q) x x := by
  cases x with
  | none => exact .none
  | some p => exact .some (h p rfl)

/-- A value equals itself if it is not a float that is not a number, and its parts equal
themselves. -/
lemma equals_self_iff_parts (hv : v.WellFormed) :
    v.equals v ↔ v ≠ .float .nan ∧ ∀ p ∈ v.parts, p.equals p := by
  rw [equals_iff hv hv]
  constructor
  · intro h
    cases h with
    | float h => exact ⟨fun hnan => Number.eq_self_iff.1 h (float.inj hnan), nofun⟩
    | @array items _ h =>
      refine ⟨nofun, fun p (hp : p ∈ items) => ?_⟩
      obtain ⟨i, hi⟩ := List.getElem?_of_mem hp
      have hrel := h i
      rw [hi] at hrel
      obtain ⟨_, ⟨⟩, hpp⟩ := exists_of_rel hrel
      exact hpp
    | object h =>
      refine ⟨nofun, fun p hp => ?_⟩
      obtain ⟨e, he, rfl⟩ := List.mem_map.1 hp
      have hrel := h e.1
      rw [Table.find?_of_mem hv.unique he] at hrel
      obtain ⟨_, ⟨⟩, hpp⟩ := exists_of_rel hrel
      exact hpp
    | _ => exact ⟨nofun, nofun⟩
  · rintro ⟨hnan, hparts⟩
    cases v with
    | null => exact .null
    | bool b => exact .bool b
    | integer n => exact .integer n
    | float x => exact .float (Number.eq_self_iff.2 fun hx => hnan (congrArg float hx))
    | string t => exact .string t
    | array items => exact .array fun i => rel_self fun p hp => hparts p (mem_parts_array hp)
    | object entries =>
      exact .object fun key => rel_self fun p hp => hparts p (mem_parts_object hp)

/-- A value equals itself exactly if nothing in it is a float that is not a number. -/
theorem equals_self_iff (hv : v.WellFormed) : v.equals v ↔ ¬ Occurs (.float .nan) v := by
  induction v using induct_parts with
  | step v ih =>
    rw [equals_self_iff_parts hv]
    constructor
    · rintro ⟨hnan, hparts⟩ hoccurs
      cases hoccurs with
      | self => exact hnan rfl
      | part hp hoccurs => exact (ih _ hp (hv.part hp)).1 (hparts _ hp) hoccurs
    · intro h
      refine ⟨?_, fun p hp => (ih p hp (hv.part hp)).2 fun hoccurs => h (.part hp hoccurs)⟩
      rintro rfl
      exact h .self

/-! ## The order of entries -/

lemma Reordered.wellFormed (h : Reordered v w) (hv : v.WellFormed) : w.WellFormed := by
  induction h with
  | refl v => exact hv
  | trans _ _ ih ih' => exact ih' (ih hv)
  | entries hperm =>
    obtain ⟨hunique, hentries⟩ := wellFormed_object.1 hv
    exact wellFormed_object.2 ⟨(hperm.map Prod.fst).nodup_iff.1 hunique,
      fun e he => hentries e (hperm.mem_iff.2 he)⟩
  | item hp _ ih =>
    have hq := ih (hv.part (mem_parts_array hp))
    refine wellFormed_array.2 fun r hr => ?_
    obtain hr | rfl := List.mem_or_eq_of_mem_set hr
    · exact wellFormed_array.1 hv r hr
    · exact hq
  | entry hp _ ih =>
    have hq := ih (hv.part (mem_parts_object hp))
    obtain ⟨hunique, hentries⟩ := wellFormed_object.1 hv
    refine wellFormed_object.2 ⟨Table.unique_insert hunique _ _, fun e he => ?_⟩
    obtain h | he := Table.mem_insert he
    · rw [h]
      exact hq
    · exact hentries e he

lemma Reordered.kind (h : Reordered v w) : v.kind = w.kind := by
  induction h with
  | trans _ _ ih ih' => exact ih.trans ih'
  | _ => rfl

lemma rel_congr {x : Option Value} (h : ∀ r ∈ x, p.equals r ↔ q.equals r) :
    Option.Rel (fun p q => p.equals q) (some p) x ↔ Option.Rel (fun p q => p.equals q) (some q) x := by
  constructor
  · intro hrel
    obtain ⟨r, rfl, hr⟩ := exists_of_rel hrel
    exact .some ((h r rfl).1 hr)
  · intro hrel
    obtain ⟨r, rfl, hr⟩ := exists_of_rel hrel
    exact .some ((h r rfl).2 hr)

/-- What a value equals does not depend on the order of the entries in it. -/
theorem Reordered.equals_iff (h : Reordered v w) (hv : v.WellFormed) (hu : u.WellFormed) :
    v.equals u ↔ w.equals u := by
  induction h generalizing u with
  | refl v => rfl
  | trans h _ ih ih' => exact (ih hv hu).trans (ih' (h.wellFormed hv) hu)
  | entries hperm =>
    have hw := (Reordered.entries hperm).wellFormed hv
    cases u with
    | object entries =>
      rw [equals_object hv.unique hu.unique, equals_object hw.unique hu.unique]
      exact forall_congr' fun key => by rw [Table.find?_perm hv.unique hperm]
    | _ => rfl
  | @item items i p q hp hpq ih =>
    cases u with
    | array items' =>
      rw [equals_array, equals_array]
      refine forall_congr' fun j => ?_
      by_cases hij : i = j
      · subst hij
        rw [List.getElem?_set_self (List.getElem?_eq_some_iff.1 hp).1, hp]
        exact rel_congr fun r hr =>
          ih (hv.part (mem_parts_array hp)) (hu.part (mem_parts_array hr))
      · rw [List.getElem?_set_ne hij]
    | _ => rfl
  | @entry entries key p q hp hpq ih =>
    have hw := (Reordered.entry hp hpq).wellFormed hv
    cases u with
    | object entries' =>
      rw [equals_object hv.unique hu.unique, equals_object hw.unique hu.unique]
      refine forall_congr' fun k => ?_
      rw [Table.find?_insert]
      by_cases hk : k = key
      · subst hk
        rw [if_pos rfl, hp]
        exact rel_congr fun r hr =>
          ih (hv.part (mem_parts_object hp)) (hu.part (mem_parts_object hr))
      · rw [if_neg hk]
    | _ => rfl

/-! ## Questions about equal values -/

lemma WellFormed.get? {key : Text} (hv : v.WellFormed) (h : v.get? key = some p) : p.WellFormed :=
  hv.part (mem_parts_of_get? h)

/-- Equal values have equal parts under the same keys. -/
lemma rel_get? (hv : v.WellFormed) (hw : w.WellFormed) (h : v.equals w) (key : Text) :
    Option.Rel (fun p q => p.equals q) (v.get? key) (w.get? key) := by
  rw [equals_iff hv hw] at h
  cases h with
  | array h =>
    rw [Value.get?, Value.get?]
    cases key.index? with
    | none => exact .none
    | some i => exact h i
  | object h => exact h key
  | _ => exact .none

lemma rel_follow? (hv : v.WellFormed) (hw : w.WellFormed) (h : v.equals w) (keys : List Text) :
    Option.Rel (fun p q => p.equals q) (v.follow? keys) (w.follow? keys) := by
  induction keys generalizing v w with
  | nil => exact .some h
  | cons key keys ih =>
    have hrel := rel_get? hv hw h key
    rw [follow?, follow?, List.foldlM_cons, List.foldlM_cons]
    cases hp : v.get? key with
    | none =>
      rw [hp] at hrel
      rw [(eq_none_iff_of_rel hrel).1 rfl]
      exact .none
    | some p =>
      rw [hp] at hrel
      obtain ⟨q, hq, hpq⟩ := exists_of_rel hrel
      rw [hq]
      exact ih (hv.get? hp) (hw.get? hq) hpq

lemma rel_navigate? (hv : v.WellFormed) (hw : w.WellFormed) (h : v.equals w) (path : Text) :
    Option.Rel (fun p q => p.equals q) (v.navigate? path) (w.navigate? path) := by
  rw [navigate?, navigate?]
  split
  · exact .some h
  · exact rel_follow? hv hw h _

lemma length_eq_of_rel (h : ∀ i : Nat, Option.Rel (fun p q => p.equals q) items[i]? items'[i]?) :
    items.length = items'.length := by
  have hle (i : Nat) : items.length ≤ i ↔ items'.length ≤ i := by
    rw [← List.getElem?_eq_none_iff, ← List.getElem?_eq_none_iff]
    exact eq_none_iff_of_rel (h i)
  exact Nat.le_antisymm ((hle _).2 (Nat.le_refl _)) ((hle _).1 (Nat.le_refl _))

lemma isEmpty_congr {α : Type} {as bs : List α} (h : as.length = bs.length) :
    as.isEmpty = bs.isEmpty := by
  rw [Bool.eq_iff_iff, List.isEmpty_iff_length_eq_zero, List.isEmpty_iff_length_eq_zero, h]

/-- Both zeros are false and have one text. -/
lemma alike_float {x y : Number} (hxy : x.eq y) : Alike (.float x) (.float y) := by
  obtain ⟨rfl, hx⟩ | ⟨hx, hy⟩ := Number.eq_iff.1 hxy
  · exact ⟨rfl, rfl, rfl, rfl, rfl, rel_navigate? trivial trivial hxy⟩
  · refine ⟨rfl, ?_, rfl, ?_, rfl, rel_navigate? trivial trivial hxy⟩
    · rw [isTruthy, isTruthy, hx, hy]
      rfl
    · rw [asString, asString, Number.text_of_isZero hx, Number.text_of_isZero hy]

theorem alike_of_equals (hv : v.WellFormed) (hw : w.WellFormed) (h : v.equals w) : Alike v w := by
  have hnavigate := rel_navigate? hv hw h
  cases (equals_iff hv hw).1 h with
  | null => exact ⟨rfl, rfl, rfl, rfl, rfl, hnavigate⟩
  | bool b => exact ⟨rfl, rfl, rfl, rfl, rfl, hnavigate⟩
  | integer n => exact ⟨rfl, rfl, rfl, rfl, rfl, hnavigate⟩
  | float hxy => exact alike_float hxy
  | string t => exact ⟨rfl, rfl, rfl, rfl, rfl, hnavigate⟩
  | array hitems =>
    have hlength := length_eq_of_rel hitems
    have hempty := isEmpty_congr hlength
    exact ⟨rfl, congrArg not hempty, hempty, rfl, congrArg Except.ok hlength, hnavigate⟩
  | object hentries =>
    rw [equals, Bool.and_eq_true, beq_iff_eq] at h
    have hempty := isEmpty_congr h.1
    exact ⟨rfl, congrArg not hempty, hempty, rfl, congrArg Except.ok h.1, hnavigate⟩

/-- Equality of values is symmetric and transitive, and a value equals itself exactly if it holds
nothing that is not a number. The order of the entries of an object is never looked at. No integer
equals a float. Equal values are of one kind, and have the same truth, text and length, or none; what
is found in them under a path is equal again. -/
theorem equals_laws :
    (∀ v w : Value, v.WellFormed → w.WellFormed → v.equals w = w.equals v) ∧
      (∀ u v w : Value, u.WellFormed → v.WellFormed → w.WellFormed →
        u.equals v → v.equals w → u.equals w) ∧
      (∀ v : Value, v.WellFormed → (v.equals v ↔ ¬ Occurs (.float .nan) v)) ∧
      (∀ v w u : Value, v.WellFormed → u.WellFormed → Reordered v w →
        v.equals u = w.equals u ∧ u.equals v = u.equals w) ∧
      (∀ (n : Whole) (x : Number),
        (integer n).equals (.float x) = false ∧ (float x).equals (.integer n) = false) ∧
      ∀ v w : Value, v.WellFormed → w.WellFormed → v.equals w → Alike v w := by
  have hcomm (v w : Value) (hv : v.WellFormed) (hw : w.WellFormed) : v.equals w = w.equals v :=
    Bool.eq_iff_iff.2 ⟨equals_symm hv hw, equals_symm hw hv⟩
  refine ⟨hcomm, fun u v w => equals_trans, fun v => equals_self_iff, ?_,
    fun n x => ⟨rfl, rfl⟩, fun v w => alike_of_equals⟩
  intro v w u hv hu h
  have hleft : v.equals u = w.equals u := Bool.eq_iff_iff.2 (h.equals_iff hv hu)
  exact ⟨hleft, by rw [hcomm u v hu hv, hleft, hcomm w u (h.wellFormed hv) hu]⟩

theorem equals_laws_zeros :
    let zero (negative : Bool) : Value := .array [.float (.finite negative .zero)]
    let v : Value := .object [("a", zero false), ("b", .null)]
    let r : Value := .object [("b", .null), ("a", zero false)]
    let w : Value := .object [("b", .null), ("a", zero true)]
    v.WellFormed ∧ r.WellFormed ∧ w.WellFormed ∧ Reordered v r ∧ v.equals w ∧
    v.equals w = w.equals v ∧ (w.equals v → v.equals r → w.equals r) ∧
    ¬ Occurs (.float .nan) v ∧ w.equals v = w.equals r ∧
    (integer .zero).equals (.float (.finite false .zero)) = false ∧ Alike v w := by
  intro zero v r w
  have hzero (negative : Bool) : (zero negative).WellFormed := ⟨trivial, trivial⟩
  have hv : v.WellFormed := ⟨by decide, hzero false, trivial, trivial⟩
  have hr : r.WellFormed := ⟨by decide, trivial, hzero false, trivial⟩
  have hw : w.WellFormed := ⟨by decide, trivial, hzero true, trivial⟩
  have hreordered : Reordered v r := .entries (.swap ..)
  have heq : v.equals w := rfl
  obtain ⟨hsymm, htrans, hself, horder, hkinds, halike⟩ := equals_laws
  exact ⟨hv, hr, hw, hreordered, heq, hsymm v w hv hw, htrans w v r hw hv hr,
    (hself v hv).1 rfl, (horder v r w hv hw hreordered).2, (hkinds _ _).1, halike v w hv hw heq⟩

end Value

end Stencil
