import Mathlib.Data.List.ReduceOption
import Mathlib.Tactic.Choose
import Stencil.Proofs.Number.Whole
import Stencil.Proofs.Value.Keys

/-!
# Round trips across the boundary to the host

Data is the same after it went to the host and back, unless an item of an array is missing. Main
statement: `Received.round_trip`.
-/

namespace Stencil

/-! ## Plain data -/

mutual
/-- Plain data as the host has it. -/
def Plain.toHost : Plain → Host
  | .null => .null
  | .bool b => .bool b
  | .number x => .number x
  | .string t => .string t
  | .array items => .array (toHostItems items)
  | .object entries => .object (toHostEntries entries)
/-- The items as the host has them. -/
def Plain.toHostItems : List Plain → List (Option Host)
  | [] => []
  | p :: rest => some p.toHost :: toHostItems rest
/-- The entries as the host has them. -/
def Plain.toHostEntries : Table Plain → Table Host
  | [] => []
  | (key, p) :: rest => (key, p.toHost) :: toHostEntries rest
end

mutual
/-- Plain data with the keys of all objects in the order of the host. -/
def Plain.listed : Plain → Plain
  | .array items => .array (listedItems items)
  | .object entries => .object (Table.indexFirst (listedEntries entries))
  | p => p
/-- The items with all keys in order. -/
def Plain.listedItems : List Plain → List Plain
  | [] => []
  | p :: rest => p.listed :: listedItems rest
/-- The entries with all keys within them in order. -/
def Plain.listedEntries : Table Plain → Table Plain
  | [] => []
  | (key, p) :: rest => (key, p.listed) :: listedEntries rest
end

namespace Plain

/-- The data that an array or an object holds. -/
def parts : Plain → List Plain
  | .array items => items
  | .object entries => entries.map Prod.snd
  | _ => []

/-- The data and all that it holds, at any depth, has the property. -/
inductive Everywhere (P : Plain → Prop) : Plain → Prop where
  | intro {p : Plain} : P p → (∀ q ∈ p.parts, Everywhere P q) → Everywhere P p

/-- No number is negative zero. -/
def Unsigned : Plain → Prop :=
  Everywhere fun p => ∀ x, p = .number x → x.isNegativeZero = false

/-- The keys of each object are in order. -/
def InOrder : Plain → Prop :=
  Everywhere fun p => ∀ entries, p = .object entries → Table.InOrder entries

/-- Data that holds nothing. -/
lemma Everywhere.leaf {P : Plain → Prop} {p : Plain} (hp : P p) (hparts : p.parts = []) :
    Everywhere P p := by
  refine .intro hp ?_
  rw [hparts]
  exact List.forall_mem_nil _

lemma everywhere_object {P : Plain → Prop} {entries : Table Plain} :
    Everywhere P (object entries) ↔ P (object entries) ∧ ∀ e ∈ entries, Everywhere P e.2 := by
  constructor
  · rintro ⟨hp, hparts⟩
    exact ⟨hp, fun e he => hparts e.2 (List.mem_map_of_mem he)⟩
  · rintro ⟨hp, hparts⟩
    refine .intro hp fun q hq => ?_
    obtain ⟨e, he, rfl⟩ := List.mem_map.1 hq
    exact hparts e he

lemma toHostEntries_eq (entries : Table Plain) :
    toHostEntries entries = entries.mapValues toHost := by
  induction entries with
  | nil => rfl
  | cons e rest ih =>
    obtain ⟨key, p⟩ := e
    rw [toHostEntries, ih]
    rfl

lemma listedItems_eq (items : List Plain) : listedItems items = items.map listed := by
  induction items with
  | nil => rfl
  | cons p rest ih => rw [listedItems, ih, List.map_cons]

lemma listedEntries_eq (entries : Table Plain) :
    listedEntries entries = entries.mapValues listed := by
  induction entries with
  | nil => rfl
  | cons e rest ih =>
    obtain ⟨key, p⟩ := e
    rw [listedEntries, ih]
    rfl

lemma mem_parts_object {entries : Table Plain} {e : Text × Plain} (h : e ∈ entries) :
    e.2 ∈ (object entries).parts :=
  List.mem_map_of_mem h

/-- Data whose keys are in order is as the host lists it. -/
lemma listed_of_inOrder {p : Plain} (h : p.InOrder) : p.listed = p := by
  induction h with
  | @intro p hp _ ih =>
    cases p with
    | array items =>
      have hmap : items.map listed = items := (List.map_congr_left ih).trans (List.map_id items)
      rw [listed, listedItems_eq, hmap]
    | object entries =>
      have hmap : Table.mapValues listed entries = entries :=
        (Table.mapValues_congr (g := id) fun e he => ih e.2 (mem_parts_object he)).trans
          (List.map_id entries)
      rw [listed, listedEntries_eq, hmap, Table.indexFirst_of_inOrder (hp entries rfl)]
    | _ => rfl

end Plain

namespace Host

/-- The data that an array or an object holds. -/
def parts : Host → List Host
  | .array items => items.reduceOption
  | .object entries => entries.map Prod.snd
  | _ => []

lemma sizeOf_part {h q : Host} (hq : q ∈ h.parts) : sizeOf q < sizeOf h := by
  cases h with
  | array items =>
    have := List.sizeOf_lt_of_mem (List.reduceOption_mem_iff.1 hq)
    rw [Option.some.sizeOf_spec] at this
    rw [array.sizeOf_spec]
    omega
  | object entries =>
    obtain ⟨e, he, rfl⟩ := List.mem_map.1 hq
    have := List.sizeOf_lt_of_mem he
    obtain ⟨key, q⟩ := e
    rw [Prod.mk.sizeOf_spec] at this
    rw [object.sizeOf_spec]
    dsimp only
    omega
  | _ => cases hq

/-- What holds of data whenever it holds of what the data holds, holds of all data. -/
theorem induct_parts {motive : Host → Prop} (step : ∀ h, (∀ q ∈ h.parts, motive q) → motive h)
    (h : Host) : motive h :=
  step h fun q _ => induct_parts step q
termination_by sizeOf h
decreasing_by exact sizeOf_part ‹_›

/-- No item of an array is missing, at any depth. -/
inductive Dense : Host → Prop where
  | intro {h : Host} : (∀ items, h = .array items → none ∉ items) → (∀ q ∈ h.parts, Dense q) → Dense h

/-- Data that holds nothing has no missing items if it is no array. -/
lemma Dense.leaf {h : Host} (harray : ∀ items, h ≠ array items) (hparts : h.parts = []) :
    h.Dense := by
  refine .intro (fun items hitems => absurd hitems (harray items)) ?_
  rw [hparts]
  exact List.forall_mem_nil _

lemma dense_array {items : List (Option Host)} :
    (array items).Dense ↔ none ∉ items ∧ ∀ q, some q ∈ items → q.Dense := by
  constructor
  · rintro ⟨hitems, hparts⟩
    exact ⟨hitems items rfl, fun q hq => hparts q (List.reduceOption_mem_iff.2 hq)⟩
  · rintro ⟨hitems, hparts⟩
    refine .intro ?_ fun q hq => hparts q (List.reduceOption_mem_iff.1 hq)
    rintro _ ⟨⟩
    exact hitems

lemma dense_object {entries : Table Host} :
    (object entries).Dense ↔ ∀ e ∈ entries, e.2.Dense := by
  constructor
  · rintro ⟨-, hparts⟩ e he
    exact hparts e.2 (List.mem_map_of_mem he)
  · intro hparts
    refine .intro nofun fun q hq => ?_
    obtain ⟨e, he, rfl⟩ := List.mem_map.1 hq
    exact hparts e he

end Host

namespace Value

lemma receivedEntries_eq (entries : Table Value) :
    receivedEntries entries = entries.mapValues received := by
  induction entries with
  | nil => rfl
  | cons e rest ih =>
    obtain ⟨key, v⟩ := e
    rw [receivedEntries, ih]
    rfl

lemma ofNumber_of_some {x : Number} {n : Whole} (hx : x.toWhole? = some n) :
    ofNumber x true = .integer n := by
  unfold ofNumber
  rw [hx]

lemma ofNumber_of_none {x : Number} (hx : x.toWhole? = none) : ofNumber x true = .float x := by
  unfold ofNumber
  rw [hx]

end Value

namespace Received

/-! ## Items and entries -/

lemma ofHostItems_eq_ok {items : List (Option Host)} {slots : List (Option Received)} :
    ofHostItems items = .ok slots ↔ items.map (Option.map ofHost) = slots.map (Option.map .ok) := by
  induction items generalizing slots with
  | nil =>
    cases slots with
    | nil => exact ⟨fun _ => rfl, fun _ => rfl⟩
    | cons => exact ⟨nofun, nofun⟩
  | cons item rest ih =>
    cases item with
    | none =>
      have hnone : ofHostItems (none :: rest) = (ofHostItems rest).map (none :: ·) := by
        rw [ofHostItems]
        cases ofHostItems rest <;> rfl
      rw [hnone]
      constructor
      · intro h
        cases hrest : ofHostItems rest with
        | error =>
          rw [hrest] at h
          cases h
        | ok slots' =>
          rw [hrest] at h
          cases h
          exact congrArg (none :: ·) (ih.1 hrest)
      · intro h
        cases slots with
        | nil => cases h
        | cons slot slots =>
          injection h with hslot hslots
          rw [ih.2 hslots, Option.map_eq_none_iff.1 hslot.symm]
          rfl
    | some h =>
      rw [ofHostItems, Table.cons_eq_ok, List.map_cons]
      constructor
      · rintro ⟨v, vs, hv, hvs, rfl⟩
        rw [Option.map_some, hv, ih.1 hvs, List.map_cons, Option.map_some]
      · intro hmap
        cases slots with
        | nil => cases hmap
        | cons slot slots =>
          injection hmap with hslot hslots
          obtain ⟨v, rfl, hv⟩ := Option.map_eq_some_iff.1 hslot.symm
          exact ⟨v, slots, hv.symm, ih.2 hslots, rfl⟩

lemma ofHostEntries_eq (entries : Table Host) :
    ofHostEntries entries = entries.mapValues ofHost := by
  induction entries with
  | nil => rfl
  | cons e rest ih =>
    obtain ⟨key, h⟩ := e
    rw [ofHostEntries, ih]
    rfl

lemma array_of_ofHost {items : List (Option Host)} {v : Received}
    (h : ofHost (.array items) = .ok v) : ∃ slots, ofHostItems items = .ok slots ∧ v = array slots := by
  rw [ofHost_array] at h
  cases hslots : ofHostItems items with
  | error fault =>
    rw [hslots] at h
    cases h
  | ok slots =>
    rw [hslots] at h
    cases h
    exact ⟨slots, rfl, rfl⟩

lemma object_of_ofHost {entries : Table Host} {v : Received}
    (h : ofHost (.object entries) = .ok v) : ∃ values,
      (Table.indexFirst (ofHostEntries entries)).collect = .ok values ∧ v = object values := by
  rw [ofHost_object] at h
  cases hvalues : (Table.indexFirst (ofHostEntries entries)).collect with
  | error fault =>
    rw [hvalues] at h
    cases h
  | ok values =>
    rw [hvalues] at h
    cases h
    exact ⟨values, rfl, rfl⟩

/-- What the slots of an array become is missing where an item is, and else is of that item. -/
lemma mem_of_ofHostItems {items : List (Option Host)} {slots : List (Option Received)}
    (h : ofHostItems items = .ok slots) :
    (none ∈ slots ↔ none ∈ items) ∧
      (∀ v, some v ∈ slots → ∃ q, some q ∈ items ∧ ofHost q = .ok v) ∧
      ∀ q, some q ∈ items → ∃ v, some v ∈ slots ∧ ofHost q = .ok v := by
  have hmap := ofHostItems_eq_ok.1 h
  refine ⟨?_, ?_, ?_⟩
  · have hmem := congrArg (none ∈ ·) hmap
    simpa using hmem.symm
  · intro v hv
    have hmem : some (Except.ok v) ∈ items.map (Option.map ofHost) := by
      rw [hmap]
      exact List.mem_map_of_mem hv
    simpa using hmem
  · intro q hq
    have hmem : some (ofHost q) ∈ slots.map (Option.map .ok) := by
      rw [← hmap]
      exact List.mem_map_of_mem hq
    obtain ⟨slot, hslot, heq⟩ := List.mem_map.1 hmem
    obtain ⟨v, rfl, hv⟩ := Option.map_eq_some_iff.1 heq
    exact ⟨v, hslot, hv.symm⟩

/-- Entries are received in order, each is of an entry, and each entry is received. -/
lemma mem_of_ofHostEntries {entries : Table Host} {values : Table Received}
    (h : (Table.indexFirst (ofHostEntries entries)).collect = .ok values) :
    values.InOrder ∧ (∀ e ∈ values, ∃ q ∈ entries, ofHost q.2 = .ok e.2) ∧
      ∀ q ∈ entries, ∃ e ∈ values, ofHost q.2 = .ok e.2 := by
  rw [Table.collect_eq_ok, ofHostEntries_eq] at h
  refine ⟨?_, ?_, ?_⟩
  · apply (Table.inOrder_indexFirst (Table.mapValues ofHost entries)).of_keys
    rw [h, Table.keys_mapValues]
  · intro e he
    have hmem : (e.1, Except.ok e.2) ∈ (Table.mapValues ofHost entries).indexFirst := by
      rw [h]
      exact List.mem_map_of_mem he
    obtain ⟨q, hq, hqv⟩ := List.mem_map.1 (Table.mem_indexFirst.1 hmem)
    injection hqv with _ hvalue
    exact ⟨q, hq, hvalue⟩
  · intro q hq
    have hmem : (q.1, ofHost q.2) ∈ values.mapValues Except.ok := by
      rw [← h]
      exact Table.mem_indexFirst.2 (List.mem_map_of_mem hq)
    obtain ⟨e, he, heq⟩ := List.mem_map.1 hmem
    injection heq with _ hvalue
    exact ⟨e, he, hvalue.symm⟩

lemma toPlainEntries?_eq_some {entries : Table Received} {plain : Table Plain} :
    toPlainEntries? entries = some plain ↔ entries.mapValues toPlain? = plain.mapValues some := by
  induction entries generalizing plain with
  | nil =>
    cases plain with
    | nil => exact ⟨fun _ => rfl, fun _ => rfl⟩
    | cons => exact ⟨nofun, nofun⟩
  | cons e rest ih =>
    obtain ⟨key, v⟩ := e
    rw [toPlainEntries?]
    constructor
    · intro h
      obtain ⟨p, hp, h⟩ := Option.bind_eq_some_iff.1 h
      obtain ⟨ps, hps, h⟩ := Option.bind_eq_some_iff.1 h
      cases h
      exact congrArg₂ (fun p ps => (key, p) :: ps) hp (ih.1 hps)
    · intro h
      cases plain with
      | nil => cases h
      | cons e' rest' =>
        injection h with he hrest
        injection he with hkey hv
        have hv : v.toPlain? = some e'.2 := hv
        have hkey : key = e'.1 := hkey
        rw [hv, ih.2 hrest, hkey]
        rfl

/-! ## From host data -/

/-- A value that its own plain data is read back as. -/
def Returns (v : Received) : Prop :=
  ∃ (w : Value) (p : Plain), v = w.received ∧ v.toPlain? = some p ∧ ofHost p.toHost = .ok v

lemma ofHost_toNumber (n : Whole) : ofHost (.number n.toNumber) = .ok (.integer n) := by
  rw [ofHost, Value.ofNumber_of_some n.toWhole?_toNumber]
  rfl

lemma returns_integer (n : Whole) : (integer n).Returns :=
  ⟨.integer n, .number n.toNumber, rfl, rfl, ofHost_toNumber n⟩

lemma returns_ofNumber (x : Number) : (Value.ofNumber x true).received.Returns := by
  cases hx : x.toWhole? with
  | some n =>
    rw [Value.ofNumber_of_some hx]
    exact returns_integer n
  | none =>
    rw [Value.ofNumber_of_none hx]
    refine ⟨.float x, .number x, rfl, rfl, ?_⟩
    rw [Plain.toHost, ofHost, Value.ofNumber_of_none hx]

lemma returns_items {slots : List (Option Received)} (h : ∀ slot ∈ slots, ∃ v ∈ slot, v.Returns) :
    ∃ ws ps, slots = Value.receivedItems ws ∧ toPlainItems? slots = some ps ∧
      ofHostItems (Plain.toHostItems ps) = .ok slots := by
  induction slots with
  | nil => exact ⟨[], [], rfl, rfl, rfl⟩
  | cons slot rest ih =>
    obtain ⟨⟨v, hv, w, p, hw, hp, hhost⟩, hrest⟩ := List.forall_mem_cons.1 h
    obtain ⟨ws, ps, rfl, hps, hhosts⟩ := ih hrest
    cases hv
    refine ⟨w :: ws, p :: ps, ?_, ?_, ?_⟩
    · rw [hw, Value.receivedItems]
    · rw [toPlainItems?, hp, hps]
      rfl
    · rw [Plain.toHostItems, ofHostItems, hhost, hhosts]
      rfl

lemma returns_array {slots : List (Option Received)} (h : ∀ slot ∈ slots, ∃ v ∈ slot, v.Returns) :
    (array slots).Returns := by
  obtain ⟨ws, ps, hws, hps, hhosts⟩ := returns_items h
  refine ⟨.array ws, .array ps, ?_, ?_, ?_⟩
  · rw [Value.received, hws]
  · rw [toPlain?_array, hps]
    rfl
  · rw [Plain.toHost, ofHost_array, hhosts]
    rfl

lemma returns_object {entries : Table Received} (horder : entries.InOrder)
    (h : ∀ v ∈ entries.map Prod.snd, Returns v) : (object entries).Returns := by
  have : Nonempty Value := ⟨.null⟩
  have : Nonempty Plain := ⟨.null⟩
  choose! w p hw hp hhost using h
  have hentry {e : Text × Received} (he : e ∈ entries) : e.2 ∈ entries.map Prod.snd :=
    List.mem_map_of_mem he
  refine ⟨.object (entries.mapValues w), .object (entries.mapValues p), ?_, ?_, ?_⟩
  · have hsame : entries.mapValues (Value.received ∘ w) = entries :=
      (Table.mapValues_congr (g := id) fun e he => (hw e.2 (hentry he)).symm).trans (List.map_id entries)
    rw [Value.received, Value.receivedEntries_eq, Table.mapValues_mapValues, hsame]
  · have hplain : toPlainEntries? entries = some (entries.mapValues p) := by
      rw [toPlainEntries?_eq_some, Table.mapValues_mapValues]
      exact Table.mapValues_congr fun e he => hp e.2 (hentry he)
    have hfirst : (entries.mapValues p).indexFirst = entries.mapValues p :=
      Table.indexFirst_of_inOrder (horder.of_keys (Table.keys_mapValues _ _))
    rw [toPlain?_object, hplain, Option.map_some, hfirst]
  · have hhosts : ofHostEntries (Plain.toHostEntries (entries.mapValues p)) =
        entries.mapValues .ok := by
      rw [ofHostEntries_eq, Plain.toHostEntries_eq, Table.mapValues_mapValues,
        Table.mapValues_mapValues]
      exact Table.mapValues_congr fun e he => hhost e.2 (hentry he)
    have hcollect : (Table.indexFirst (entries.mapValues Except.ok)).collect =
        (.ok entries : Except HostFault (Table Received)) := by
      rw [Table.indexFirst_of_inOrder (horder.of_keys (Table.keys_mapValues _ _))]
      exact Table.collect_eq_ok.2 rfl
    rw [Plain.toHost, ofHost_object, hhosts, hcollect]
    rfl

/-- Host data in which no item is missing becomes a value that is read back from its plain data. -/
lemma returns_of_dense {h : Host} (hdense : h.Dense) : ∀ v, ofHost h = .ok v → v.Returns := by
  induction hdense with
  | @intro h hitems _ ih =>
    intro v hv
    cases h with
    | null => cases hv; exact ⟨.null, .null, rfl, rfl, rfl⟩
    | undefined => cases hv; exact ⟨.null, .null, rfl, rfl, rfl⟩
    | bool b => cases hv; exact ⟨.bool b, .bool b, rfl, rfl, rfl⟩
    | number x =>
      cases hv
      exact returns_ofNumber x
    | bigInteger n =>
      rw [ofHost] at hv
      split at hv
      · cases hv
        exact returns_integer _
      · cases hv
        exact ⟨.string _, .string _, rfl, rfl, rfl⟩
    | string t => cases hv; exact ⟨.string t, .string t, rfl, rfl, rfl⟩
    | date instant =>
      cases instant with
      | none => cases hv
      | some t => cases hv; exact ⟨.string t.iso, .string t.iso, rfl, rfl, rfl⟩
    | function => cases hv
    | symbol => cases hv
    | «instance» => cases hv
    | enclosing => cases hv
    | array items =>
      obtain ⟨slots, hslots, rfl⟩ := array_of_ofHost hv
      obtain ⟨hnone, hsome, -⟩ := mem_of_ofHostItems hslots
      apply returns_array
      intro slot hslot
      cases slot with
      | none => exact absurd (hnone.1 hslot) (hitems items rfl)
      | some v =>
        obtain ⟨q, hq, hqv⟩ := hsome v hslot
        exact ⟨v, rfl, ih q (List.reduceOption_mem_iff.2 hq) v hqv⟩
    | object entries =>
      obtain ⟨values, hcollect, rfl⟩ := object_of_ofHost hv
      obtain ⟨horder, hvalues, -⟩ := mem_of_ofHostEntries hcollect
      apply returns_object horder
      intro v hv
      obtain ⟨e, he, rfl⟩ := List.mem_map.1 hv
      obtain ⟨q, hq, hqv⟩ := hvalues e he
      exact ih q.2 (List.mem_map_of_mem hq) e.2 hqv

/-! ## What is missing -/

lemma present_of_toPlainItems? {slots : List (Option Received)} {plain : List Plain}
    (h : toPlainItems? slots = some plain) : ∀ slot ∈ slots, ∃ v ∈ slot, ∃ p, v.toPlain? = some p := by
  induction slots generalizing plain with
  | nil => exact nofun
  | cons slot rest ih =>
    cases slot with
    | none => cases h
    | some v =>
      rw [toPlainItems?] at h
      obtain ⟨p, hp, h⟩ := Option.bind_eq_some_iff.1 h
      obtain ⟨ps, hps, -⟩ := Option.bind_eq_some_iff.1 h
      exact List.forall_mem_cons.2 ⟨⟨v, rfl, p, hp⟩, ih hps⟩

lemma plain_of_toPlainEntries? {entries : Table Received} {plain : Table Plain}
    (h : toPlainEntries? entries = some plain) : ∀ e ∈ entries, ∃ p, e.2.toPlain? = some p := by
  intro e he
  have hmem : (e.1, e.2.toPlain?) ∈ plain.mapValues some := by
    rw [← toPlainEntries?_eq_some.1 h]
    exact List.mem_map_of_mem he
  obtain ⟨x, -, hx⟩ := List.mem_map.1 hmem
  injection hx with _ hp
  exact ⟨x.2, hp.symm⟩

/-- Host data that plain data comes back from has no missing items. -/
lemma dense_of_toPlain? (h : Host) :
    ∀ v p, ofHost h = .ok v → v.toPlain? = some p → h.Dense := by
  induction h using Host.induct_parts with
  | step h ih =>
    intro v p hv hp
    cases h with
    | array items =>
      obtain ⟨slots, hslots, rfl⟩ := array_of_ofHost hv
      obtain ⟨hnone, -, hsome⟩ := mem_of_ofHostItems hslots
      rw [toPlain?_array] at hp
      obtain ⟨ps, hps, -⟩ := Option.map_eq_some_iff.1 hp
      have hpresent := present_of_toPlainItems? hps
      refine Host.dense_array.2 ⟨fun hmem => ?_, fun q hq => ?_⟩
      · obtain ⟨v, hv, -⟩ := hpresent none (hnone.2 hmem)
        cases hv
      · obtain ⟨v, hv, hqv⟩ := hsome q hq
        obtain ⟨_, ⟨⟩, p, hp⟩ := hpresent (some v) hv
        exact ih q (List.reduceOption_mem_iff.2 hq) v p hqv hp
    | object entries =>
      obtain ⟨values, hcollect, rfl⟩ := object_of_ofHost hv
      obtain ⟨-, -, hvalues⟩ := mem_of_ofHostEntries hcollect
      rw [toPlain?_object] at hp
      obtain ⟨ps, hps, -⟩ := Option.map_eq_some_iff.1 hp
      refine Host.dense_object.2 fun q hq => ?_
      obtain ⟨e, he, hqv⟩ := hvalues q hq
      obtain ⟨p, hp⟩ := plain_of_toPlainEntries? hps e he
      exact ih q.2 (List.mem_map_of_mem hq) e.2 p hqv hp
    | _ => exact .leaf nofun rfl

/-! ## From plain data -/

/-- Plain data becomes a value that gives the same data back, as the host lists it. -/
def Carried (p : Plain) : Prop := ∃ v, ofHost p.toHost = .ok v ∧ v.toPlain? = some p.listed

lemma carried_number {x : Number} (hx : x.isNegativeZero = false) : Carried (.number x) := by
  refine ⟨(Value.ofNumber x true).received, rfl, ?_⟩
  change (Value.ofNumber x true).received.toPlain? = some (.number x)
  cases hwhole : x.toWhole? with
  | some n =>
    rw [Value.ofNumber_of_some hwhole, Value.received, toPlain?,
      Number.toNumber_of_toWhole? hwhole hx]
  | none => rw [Value.ofNumber_of_none hwhole, Value.received, toPlain?]

lemma carried_items {items : List Plain} (h : ∀ p ∈ items, Carried p) :
    ∃ slots, ofHostItems (Plain.toHostItems items) = .ok slots ∧
      toPlainItems? slots = some (Plain.listedItems items) := by
  induction items with
  | nil => exact ⟨[], rfl, rfl⟩
  | cons p rest ih =>
    obtain ⟨⟨v, hhost, hplain⟩, hrest⟩ := List.forall_mem_cons.1 h
    obtain ⟨slots, hhosts, hplains⟩ := ih hrest
    refine ⟨some v :: slots, ?_, ?_⟩
    · rw [Plain.toHostItems, ofHostItems, hhost, hhosts]
      rfl
    · rw [toPlainItems?, hplain, hplains]
      rfl

lemma carried_array {items : List Plain} (h : ∀ p ∈ items, Carried p) : Carried (.array items) := by
  obtain ⟨slots, hhosts, hplains⟩ := carried_items h
  refine ⟨.array slots, ?_, ?_⟩
  · rw [Plain.toHost, ofHost_array, hhosts]
    rfl
  · rw [toPlain?_array, hplains]
    rfl

lemma carried_object {entries : Table Plain} (h : ∀ p ∈ (Plain.object entries).parts, Carried p) :
    Carried (.object entries) := by
  have : Nonempty Received := ⟨.null⟩
  choose! f hhost hplain using h
  have hmem {e : Text × Plain} (he : e ∈ entries.indexFirst) : e.2 ∈ (Plain.object entries).parts :=
    Plain.mem_parts_object (Table.mem_indexFirst.1 he)
  refine ⟨.object (entries.indexFirst.mapValues f), ?_, ?_⟩
  · have hcollect : (Table.indexFirst (ofHostEntries (Plain.toHostEntries entries))).collect =
        .ok (entries.indexFirst.mapValues f) := by
      rw [Table.collect_eq_ok, ofHostEntries_eq, Plain.toHostEntries_eq, Table.mapValues_mapValues,
        Table.mapValues_mapValues, Table.indexFirst_mapValues]
      exact Table.mapValues_congr fun e he => hhost e.2 (hmem he)
    rw [Plain.toHost, ofHost_object, hcollect]
    rfl
  · have hvalues : toPlainEntries? (entries.indexFirst.mapValues f) =
        some (entries.indexFirst.mapValues Plain.listed) := by
      rw [toPlainEntries?_eq_some, Table.mapValues_mapValues, Table.mapValues_mapValues]
      exact Table.mapValues_congr fun e he => hplain e.2 (hmem he)
    rw [toPlain?_object, Plain.listed, hvalues, Option.map_some, Plain.listedEntries_eq,
      Table.indexFirst_mapValues, Table.indexFirst_mapValues,
      Table.indexFirst_of_inOrder (Table.inOrder_indexFirst entries)]

lemma carried_of_unsigned {p : Plain} (h : p.Unsigned) : Carried p := by
  induction h with
  | @intro p hp _ ih =>
    cases p with
    | null => exact ⟨.null, rfl, rfl⟩
    | bool b => exact ⟨.bool b, rfl, rfl⟩
    | number x => exact carried_number (hp x rfl)
    | string t => exact ⟨.string t, rfl, rfl⟩
    | array items => exact carried_array ih
    | object entries => exact carried_object ih

/-- Plain data without a negative zero comes back from what it becomes as the host lists it, so it is
the same if its keys are in order. Any data of the host that is admitted is read back from its own
plain data exactly if no item of an array is missing. Then it has become a value, and otherwise there
is no plain data. -/
theorem round_trip (p : Plain) (h : Host) :
    (p.Unsigned → ∃ v, ofHost p.toHost = .ok v ∧ v.toPlain? = some p.listed ∧
      (p.InOrder → v.toPlain? = some p)) ∧
    ∀ v, ofHost h = .ok v →
      ((∃ q, v.toPlain? = some q ∧ ofHost q.toHost = .ok v) ↔ h.Dense) ∧
      (h.Dense → ∃ w : Value, v = w.received) ∧ (¬ h.Dense → v.toPlain? = none) := by
  refine ⟨?_, ?_⟩
  · intro hp
    obtain ⟨v, hhost, hplain⟩ := carried_of_unsigned hp
    refine ⟨v, hhost, hplain, ?_⟩
    intro horder
    rw [hplain, Plain.listed_of_inOrder horder]
  · intro v hv
    refine ⟨⟨?_, fun hdense => ?_⟩, fun hdense => ?_, fun hdense => ?_⟩
    · rintro ⟨q, hq, -⟩
      exact dense_of_toPlain? h v q hv hq
    · obtain ⟨w, q, -, hq, hback⟩ := returns_of_dense hdense v hv
      exact ⟨q, hq, hback⟩
    · obtain ⟨w, q, hw, -⟩ := returns_of_dense hdense v hv
      exact ⟨w, hw⟩
    · rw [Option.eq_none_iff_forall_ne_some]
      exact fun q hq => hdense (dense_of_toPlain? h v q hv hq)

theorem round_trip_keys :
    let p : Plain := .object [("9", .number .nan), ("10", .bool true), ("__proto__", .null)]
    let h : Host := .object [("9", .bigInteger 5), ("b", .undefined)]
    let v : Received := .object [("9", .integer ⟨5, by decide⟩), ("b", .null)]
    let h' : Host := .array [none, some .null]
    let v' : Received := .array [none, some .null]
    p.Unsigned ∧ p.InOrder ∧ (∃ w, ofHost p.toHost = .ok w ∧ w.toPlain? = some p) ∧
    ofHost h = .ok v ∧ h.Dense ∧ (∃ q, v.toPlain? = some q ∧ ofHost q.toHost = .ok v) ∧
    ofHost h' = .ok v' ∧ ¬ h'.Dense ∧ v'.toPlain? = none := by
  intro p h v h' v'
  have hsigns : p.Unsigned := by
    refine Plain.everywhere_object.2 ⟨?_, ?_⟩
    · intro x hx
      cases hx
    · simp only [List.forall_mem_cons]
      refine ⟨.leaf ?_ rfl, .leaf ?_ rfl, .leaf ?_ rfl, List.forall_mem_nil _⟩
      · rintro x ⟨⟩
        rfl
      · intro x hx
        cases hx
      · intro x hx
        cases hx
  have horder : p.InOrder := by
    refine Plain.everywhere_object.2 ⟨?_, ?_⟩
    · rintro _ ⟨⟩
      decide
    · simp only [List.forall_mem_cons]
      refine ⟨.leaf ?_ rfl, .leaf ?_ rfl, .leaf ?_ rfl, List.forall_mem_nil _⟩ <;>
        · intro entries hentries
          cases hentries
  have hvalue : ofHost h = .ok v := by
    have hfirst := Table.indexFirst_of_inOrder
      (t := ofHostEntries [("9", .bigInteger 5), ("b", .undefined)]) (by decide)
    rw [ofHost, hfirst]
    rfl
  have hdense : h.Dense := by
    rw [Host.dense_object]
    simp only [List.forall_mem_cons]
    exact ⟨.leaf (by rintro _ ⟨⟩) rfl, .leaf (by rintro _ ⟨⟩) rfl, List.forall_mem_nil _⟩
  have hsparse : ¬ h'.Dense := fun hdense => (Host.dense_array.1 hdense).1 List.mem_cons_self
  obtain ⟨hplain, hreturn⟩ := round_trip p h
  obtain ⟨w, hw, -, hsame⟩ := hplain hsigns
  obtain ⟨hback, -⟩ := hreturn v hvalue
  obtain ⟨-, -, hnone⟩ := (round_trip p h').2 v' rfl
  exact ⟨hsigns, horder, ⟨w, hw, hsame horder⟩, hvalue, hdense, hback.2 hdense, rfl, hsparse,
    hnone hsparse⟩

/-- An array of 1 and 2 with a missing item between them is admitted, but what it becomes is not
read back. -/
theorem round_trip_sparse :
    let h : Host := .array [some (.number (.ofInt 1)), none, some (.number (.ofInt 2))]
    ∃ v, ofHost h = .ok v ∧ ¬ ∃ p, v.toPlain? = some p ∧ ofHost p.toHost = .ok v := by
  intro h
  have hone : ofHost (.number (.ofInt 1)) = .ok (.integer .one) := ofHost_toNumber .one
  have htwo : ofHost (.number (.ofInt 2)) = .ok (.integer ⟨2, by decide⟩) := ofHost_toNumber ⟨2, _⟩
  refine ⟨.array [some (.integer .one), none, some (.integer ⟨2, by decide⟩)], ?_, ?_⟩
  · rw [ofHost_array, ofHostItems, hone, ofHostItems, ofHostItems, htwo]
    rfl
  · rintro ⟨p, hp, -⟩
    cases hp

end Received

end Stencil
