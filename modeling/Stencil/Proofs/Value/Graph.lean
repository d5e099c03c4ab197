import Mathlib.Data.Fintype.Card
import Mathlib.Data.List.Lex
import Stencil.Proofs.Value.Host

/-!
# Host data with identities

In the host a container has an identity, so it can be reached in several ways, and from within itself.
`Heap.convert` follows references and keeps the set of the containers that it is inside of; it does
what `Received.ofHost` does on the tree that the data unfolds to. Main statement: `Heap.convert_exact`,
data is refused exactly for its first offence, depth first. A container that encloses itself offends,
one that is only reached twice does not.
-/

namespace Stencil

lemma Received.ofHostItems_eq_mapM (items : List (Option Host)) :
    ofHostItems items = items.mapM (Option.mapM ofHost) := by
  induction items with
  | nil => rfl
  | cons item rest ih =>
    cases item with
    | none =>
      rw [ofHostItems, List.mapM_cons, ih]
      rfl
    | some h =>
      rw [ofHostItems, List.mapM_cons, ih, Option.mapM_some]
      cases ofHost h <;> rfl

/-- A table of results is there if the results in a row are, under the same keys. -/
lemma Table.collect_mapValues {ε α β : Type} (f : α → Except ε β) (t : Table α) :
    (t.mapValues f).collect = ((t.map Prod.snd).mapM f).map (t.keys.zip ·) := by
  induction t with
  | nil => rfl
  | cons e rest ih =>
    obtain ⟨key, x⟩ := e
    have hcons : mapValues f ((key, x) :: rest) = (key, f x) :: mapValues f rest := rfl
    rw [hcons, collect, ih, List.map_cons, List.mapM_cons]
    cases f x with
    | error => rfl
    | ok y => cases (rest.map Prod.snd).mapM f <;> rfl

lemma Received.ofHost_array_map {α : Type} (g : α → Host) (items : List (Option α)) :
    ofHost (.array (items.map (Option.map g))) =
      (items.mapM (Option.mapM (ofHost ∘ g))).map .array := by
  have hslot : Option.mapM ofHost ∘ Option.map g = Option.mapM (ofHost ∘ g) := by
    funext item
    cases item <;> rfl
  rw [ofHost_array, ofHostItems_eq_mapM, List.mapM_map, hslot]

lemma Received.ofHost_object_mapValues {α : Type} (g : α → Host) (entries : Table α) :
    ofHost (.object (entries.mapValues g)) =
      (entries.indexFirst.mapValues (ofHost ∘ g)).collect.map .object := by
  rw [ofHost_object, ofHostEntries_eq, Table.mapValues_mapValues, Table.indexFirst_mapValues]

/-- Data of the host that holds no other data. -/
inductive Atom where
  | null
  | undefined
  | bool (value : Bool)
  | number (value : Number)
  | bigInteger (value : Int)
  | string (value : Text)
  | date (instant : Option Instant)
  | function
  | symbol

/-- The atom as data of the host. -/
def Atom.toHost : Atom → Host
  | .null => .null
  | .undefined => .undefined
  | .bool b => .bool b
  | .number x => .number x
  | .bigInteger n => .bigInteger n
  | .string t => .string t
  | .date instant => .date instant
  | .function => .function
  | .symbol => .symbol

/-- What can stand in a container: an atom, or a container by its address. -/
inductive Item (n : Nat) where
  | atom (a : Atom)
  | ref (address : Fin n)

/-- What the host holds at an address. -/
inductive Container (n : Nat) where
  /-- An array, in which items can be missing. -/
  | array (items : List (Option (Item n)))
  | object (entries : Table (Item n))
  /-- An instance of a class, with the constructor that it inherits, the entry of that name if it has
  one of its own, and its other entries. -/
  | ofClass (inherited : Constructor) (own : Option Constructor) (entries : Table (Item n))

namespace Container

variable {n : Nat}

/-- The parts of a container in the order of the host, which does not look into instances. -/
def parts : Container n → List (Option (Item n))
  | .array items => items
  | .object entries => entries.indexFirst.map fun e => some e.2
  | .ofClass .. => []

/-- The part of that number, if it is not missing. -/
def part? (c : Container n) (k : Nat) : Option (Item n) := c.parts[k]?.join

end Container

/-- The containers of the host by their addresses. -/
abbrev Heap (n : Nat) := Fin n → Container n

namespace Heap

variable {n : Nat}

/-- What a conversion leaves behind: its result, and the containers being converted, which are those
from before. -/
structure Outcome (seen : Finset (Fin n)) (α : Type) where
  result : Except HostFault α
  after : Finset (Fin n)
  restored : after = seen

lemma card_insert_lt {seen : Finset (Fin n)} {a : Fin n} (h : a ∉ seen) :
    (insert a seen)ᶜ.card < seenᶜ.card := by
  rw [Finset.card_compl, Finset.card_compl, Finset.card_insert_of_notMem h]
  have := Finset.card_lt_univ_of_notMem h
  omega

namespace Outcome

variable {seen : Finset (Fin n)} {α β : Type}

/-- Leaves a container after its parts were converted. -/
def leave {a : Fin n} (h : a ∉ seen) (f : α → β) (o : Outcome (insert a seen) α) : Outcome seen β :=
  ⟨o.result.map f, o.after.erase a, by rw [o.restored, Finset.erase_insert h]⟩

/-- The conversion of a part, and those of the parts after it if that did not fail. -/
def cons (f : α → β) (o : Outcome seen α)
    (next : ∀ after, after = seen → Outcome after (List β)) : Outcome seen (List β) :=
  match o with
  | ⟨.error fault, after, restored⟩ => ⟨.error fault, after, restored⟩
  | ⟨.ok v, after, restored⟩ =>
    let o := next after restored
    ⟨o.result.map (f v :: ·), o.after, o.restored.trans restored⟩

lemma cons_result (f : α → β) (o : Outcome seen α)
    (next : ∀ after, after = seen → Outcome after (List β)) :
    (o.cons f next).result = do
      let v ← o.result
      return f v :: (← (next seen rfl).result) := by
  obtain ⟨result, after, rfl⟩ := o
  cases result with
  | error => rfl
  | ok v =>
    rw [cons]
    cases (next after rfl).result <;> rfl

end Outcome

mutual
/-- What an item becomes, where `seen` are the containers being converted. A container is added to
them before its parts are converted, and removed after, whether that failed or not. -/
def convert (heap : Heap n) (seen : Finset (Fin n)) : Item n → Outcome seen Received
  | .atom a => ⟨Received.ofHost a.toHost, seen, rfl⟩
  | .ref a =>
    if h : a ∈ seen then ⟨.error .circular, seen, rfl⟩
    else
      match heap a with
      | .array items => .leave h .array (convertItems heap (insert a seen) items)
      | .object entries => .leave h .object (convertEntries heap (insert a seen) entries.indexFirst)
      | .ofClass inherited own _ =>
        .leave h id ⟨.error (own.getD inherited).fault, insert a seen, rfl⟩
termination_by (seenᶜ.card, 0)
decreasing_by
  · exact Prod.Lex.left _ _ (card_insert_lt h)
  · exact Prod.Lex.left _ _ (card_insert_lt h)
/-- Items one after the other, up to the first that fails. Missing items are passed over. -/
def convertItems (heap : Heap n) (seen : Finset (Fin n)) :
    List (Option (Item n)) → Outcome seen (List (Option Received))
  | [] => ⟨.ok [], seen, rfl⟩
  | none :: rest =>
    let o := convertItems heap seen rest
    ⟨o.result.map (none :: ·), o.after, o.restored⟩
  | some x :: rest =>
    .cons some (convert heap seen x) fun after _restored => convertItems heap after rest
termination_by items => (seenᶜ.card, items.length + 1)
decreasing_by
  · exact Prod.Lex.right _ (Nat.lt_succ_self _)
  · exact Prod.Lex.right _ (Nat.succ_pos _)
  · rw [_restored]
    exact Prod.Lex.right _ (Nat.lt_succ_self _)
/-- Entries one after the other, up to the first that fails. -/
def convertEntries (heap : Heap n) (seen : Finset (Fin n)) :
    Table (Item n) → Outcome seen (Table Received)
  | [] => ⟨.ok [], seen, rfl⟩
  | (key, x) :: rest =>
    .cons (key, ·) (convert heap seen x) fun after _restored => convertEntries heap after rest
termination_by entries => (seenᶜ.card, entries.length + 1)
decreasing_by
  · exact Prod.Lex.right _ (Nat.succ_pos _)
  · rw [_restored]
    exact Prod.Lex.right _ (Nat.lt_succ_self _)
end

/-- An item as a tree inside of the containers `around`, the innermost first: a container that is
reached twice stands there twice, and where it is reached from within itself the tree points back. -/
def tree (heap : Heap n) (around : List (Fin n)) : Item n → Host
  | .atom a => a.toHost
  | .ref a =>
    if _h : a ∈ around then .enclosing (around.idxOf a)
    else
      match heap a with
      | .array items => .array (items.map (Option.map fun x => tree heap (a :: around) x))
      | .object entries => .object (entries.mapValues fun x => tree heap (a :: around) x)
      | .ofClass inherited own _ => .instance (own.getD inherited)
termination_by around.toFinsetᶜ.card
decreasing_by
  · rw [List.toFinset_cons]
    exact card_insert_lt (mt List.mem_toFinset.1 _h)
  · rw [List.toFinset_cons]
    exact card_insert_lt (mt List.mem_toFinset.1 _h)

/-! ## Offences -/

/-- What stands at the end of a path of part numbers. -/
def item? (heap : Heap n) : Item n → List Nat → Option (Item n)
  | x, [] => some x
  | .atom _, _ :: _ => none
  | .ref a, k :: path => ((heap a).part? k).bind fun x => heap.item? x path

/-- A container is passed on the way to the end of a path. -/
def Encloses (heap : Heap n) (root : Item n) (path : List Nat) (a : Fin n) : Prop :=
  ∃ p, p <+: path ∧ p ≠ path ∧ heap.item? root p = some (.ref a)

/-- What stands at the end of a path cannot become a value, for some reason. -/
inductive Offends (heap : Heap n) (root : Item n) (path : List Nat) : HostFault → Prop where
  | function : heap.item? root path = some (.atom .function) → Offends heap root path .function
  | symbol : heap.item? root path = some (.atom .symbol) → Offends heap root path .symbol
  | invalidDate : heap.item? root path = some (.atom (.date none)) →
    Offends heap root path .invalidDate
  | ofClass {a inherited own entries} : heap.item? root path = some (.ref a) →
    heap a = .ofClass inherited own entries → Offends heap root path (own.getD inherited).fault
  | circular {a} : heap.item? root path = some (.ref a) → heap.Encloses root path a →
    Offends heap root path .circular

/-- What stands at the end of a path of part numbers, and the containers around it. -/
def at? (heap : Heap n) : List (Fin n) → Item n → List Nat → Option (List (Fin n) × Item n)
  | around, x, [] => some (around, x)
  | _, .atom _, _ :: _ => none
  | around, .ref a, k :: path =>
    ((heap a).part? k).bind fun x => at? heap (a :: around) x path

/-- What is wrong with an item inside of some containers. -/
def fault? (heap : Heap n) (around : List (Fin n)) : Item n → Option HostFault
  | .atom .function => some .function
  | .atom .symbol => some .symbol
  | .atom (.date none) => some .invalidDate
  | .atom _ => none
  | .ref a =>
    if a ∈ around then some .circular
    else
      match heap a with
      | .ofClass inherited own _ => some (own.getD inherited).fault
      | _ => none

/-- What is wrong at the end of a path. -/
def offence? (heap : Heap n) (around : List (Fin n)) (x : Item n) (path : List Nat) :
    Option HostFault :=
  (heap.at? around x path).bind fun (around, x) => heap.fault? around x

/-- A result stands for the first offence: it is the fault of the first path with one, or there is
none. -/
inductive Judged {α : Type} (offence : List Nat → Option HostFault) : Except HostFault α → Prop where
  | ok {v} : (∀ path, offence path = none) → Judged offence (.ok v)
  | error {fault path} : offence path = some fault → (∀ p < path, offence p = none) →
    Judged offence (.error fault)

/-- The offences in a list of parts, of which each has its own. -/
def among (offences : List (List Nat → Option HostFault)) : List Nat → Option HostFault
  | [] => none
  | k :: path => offences[k]?.bind (· path)

namespace Judged

variable {α β : Type} {offence : List Nat → Option HostFault} {r : Except HostFault α}

lemma map (f : α → β) (h : Judged offence r) : Judged offence (r.map f) := by
  cases h with
  | ok h => exact .ok h
  | error h hp => exact .error h hp

/-- An offence at the beginning comes before all others. -/
lemma of_nil {fault : HostFault} (h : offence [] = some fault) :
    Judged offence (.error fault : Except HostFault α) :=
  .error h fun _ hp => absurd hp (List.not_lt_nil _)

/-- The first offence among parts is the first offence of the first part that has one. -/
lemma mapM {f : β → Except HostFault α} {offence : β → List Nat → Option HostFault} {l : List β}
    (h : ∀ x ∈ l, Judged (offence x) (f x)) : Judged (among (l.map offence)) (l.mapM f) := by
  induction l with
  | nil =>
    refine .ok fun path => ?_
    cases path <;> rfl
  | cons x rest ih =>
    obtain ⟨hx, hrest⟩ := List.forall_mem_cons.1 h
    rw [List.mapM_cons]
    generalize f x = r at hx
    cases hx with
    | @error fault path hpath hfirst =>
      have hzero : among ((x :: rest).map offence) (0 :: path) = some fault := hpath
      refine .error hzero fun p hp => ?_
      match p with
      | [] => rfl
      | k :: p =>
        obtain hk | ⟨rfl, hlt⟩ := List.cons_lt_cons_iff.1 hp
        · exact absurd hk (Nat.not_lt_zero k)
        · exact hfirst p hlt
    | @ok v hnone =>
      have hrest := ih hrest
      generalize rest.mapM f = r at hrest
      cases hrest with
      | ok hrest =>
        refine .ok fun path => ?_
        match path with
        | [] => rfl
        | 0 :: path => exact hnone path
        | (k + 1) :: path => exact hrest (k :: path)
      | @error fault path hpath hfirst =>
        match path with
        | k :: path =>
          have hsucc : among ((x :: rest).map offence) ((k + 1) :: path) = some fault := hpath
          refine .error hsucc fun p hp => ?_
          match p with
          | [] => rfl
          | 0 :: p => exact hnone p
          | (j + 1) :: p =>
            refine hfirst (j :: p) (List.cons_lt_cons_iff.2 ?_)
            exact (List.cons_lt_cons_iff.1 hp).imp Nat.lt_of_succ_lt_succ
              (And.imp_left Nat.succ.inj)

/-- A missing part has no offence. -/
lemma part {f : β → Except HostFault α} {offence : β → List Nat → Option HostFault}
    (h : ∀ x, Judged (offence x) (f x)) (part : Option β) :
    Judged (fun path => part.bind (offence · path)) (part.mapM f) := by
  cases part with
  | none => exact .ok fun _ => rfl
  | some x => exact (h x).map some

/-- A result for the first offence says exactly where there is none and where the first is. -/
lemma exactly (h : Judged offence r) : ((∃ v, r = .ok v) ↔ ∀ path, offence path = none) ∧
    ∀ fault, r = .error fault ↔
      ∃ path, offence path = some fault ∧ ∀ p < path, offence p = none := by
  cases h with
  | @ok v hnone =>
    refine ⟨⟨fun _ => hnone, fun _ => ⟨v, rfl⟩⟩, fun fault => ⟨nofun, ?_⟩⟩
    rintro ⟨path, hpath, -⟩
    cases (hnone path).symm.trans hpath
  | @error fault path hpath hfirst =>
    refine ⟨⟨nofun, fun hnone => ?_⟩, fun fault' => ⟨?_, ?_⟩⟩
    · cases (hnone path).symm.trans hpath
    · rintro ⟨⟩
      exact ⟨path, hpath, hfirst⟩
    · rintro ⟨path', hpath', hfirst'⟩
      obtain hlt | rfl | hlt := lt_trichotomy path path'
      · cases (hfirst' path hlt).symm.trans hpath
      · cases hpath.symm.trans hpath'
        rfl
      · cases (hfirst path' hlt).symm.trans hpath'

end Judged

lemma convertItems_result (heap : Heap n) (seen : Finset (Fin n)) (items : List (Option (Item n))) :
    (convertItems heap seen items).result =
      items.mapM (Option.mapM fun x => (convert heap seen x).result) := by
  induction items with
  | nil =>
    rw [convertItems]
    rfl
  | cons item rest ih =>
    cases item with
    | none =>
      rw [convertItems, List.mapM_cons, ← ih]
      rfl
    | some x =>
      rw [convertItems, Outcome.cons_result, List.mapM_cons, Option.mapM_some, ih]
      cases (convert heap seen x).result <;> rfl

lemma convertEntries_result (heap : Heap n) (seen : Finset (Fin n)) (entries : Table (Item n)) :
    (convertEntries heap seen entries).result =
      (entries.mapValues fun x => (convert heap seen x).result).collect := by
  induction entries with
  | nil =>
    rw [convertEntries]
    rfl
  | cons e rest ih =>
    obtain ⟨key, x⟩ := e
    rw [convertEntries, Outcome.cons_result, ih]
    rfl

/-- Conversion is that of the tree, if the containers being converted are those around. -/
theorem convert_result (heap : Heap n) (around : List (Fin n)) (x : Item n) :
    (convert heap around.toFinset x).result = Received.ofHost (heap.tree around x) := by
  induction hk : around.toFinsetᶜ.card using Nat.strong_induction_on generalizing around x with
  | _ k ih =>
    subst hk
    cases x with
    | atom a => rw [convert, tree]
    | ref a =>
      by_cases ha : a ∈ around
      · rw [convert, dif_pos (List.mem_toFinset.2 ha), tree, dif_pos ha]
        rfl
      · have hseen : a ∉ around.toFinset := mt List.mem_toFinset.1 ha
        have hcons : (a :: around).toFinset = insert a around.toFinset := List.toFinset_cons
        have hparts : (fun x => (convert heap (insert a around.toFinset) x).result) =
            Received.ofHost ∘ heap.tree (a :: around) := by
          funext x
          rw [← hcons]
          exact ih _ (hcons ▸ card_insert_lt hseen) (a :: around) x rfl
        rw [convert, dif_neg hseen, tree, dif_neg ha]
        cases heap a with
        | array items =>
          rw [Received.ofHost_array_map, ← hparts, ← convertItems_result]
          rfl
        | object entries =>
          rw [Received.ofHost_object_mapValues, ← hparts, ← convertEntries_result]
          rfl
        | ofClass => rfl

/-- The offences in a container are those of its parts, if it is none itself. -/
lemma offence?_ref {heap : Heap n} {around : List (Fin n)} {a : Fin n}
    (h : heap.fault? around (.ref a) = none) : heap.offence? around (.ref a) =
      among ((heap a).parts.map fun part path =>
        part.bind fun x => heap.offence? (a :: around) x path) := by
  funext path
  cases path with
  | nil => exact h
  | cons k path =>
    rw [offence?, at?, among, List.getElem?_map, Container.part?]
    cases (heap a).parts[k]? with
    | none => rfl
    | some part => cases part <;> rfl

lemma judged_atom (heap : Heap n) (around : List (Fin n)) (a : Atom) :
    Judged (heap.offence? around (.atom a)) (Received.ofHost a.toHost) := by
  have hok {v : Received} (h : heap.fault? around (.atom a) = none) :
      Judged (heap.offence? around (.atom a)) (.ok v : Except HostFault Received) := by
    refine .ok fun path => ?_
    cases path with
    | nil => exact h
    | cons => rfl
  cases a with
  | function => exact .of_nil rfl
  | symbol => exact .of_nil rfl
  | date instant =>
    cases instant with
    | none => exact .of_nil rfl
    | some => exact hok rfl
  | bigInteger i =>
    rw [Atom.toHost, Received.ofHost]
    cases Whole.ofInt? i <;> exact hok rfl
  | _ => exact hok rfl

/-- The value of a tree, or its fault, is that of the first offence. -/
theorem judged_tree (heap : Heap n) (around : List (Fin n)) (x : Item n) :
    Judged (heap.offence? around x) (Received.ofHost (heap.tree around x)) := by
  induction hk : around.toFinsetᶜ.card using Nat.strong_induction_on generalizing around x with
  | _ k ih =>
    subst hk
    cases x with
    | atom a =>
      rw [tree]
      exact judged_atom heap around a
    | ref a =>
      by_cases ha : a ∈ around
      · rw [tree, dif_pos ha]
        exact .of_nil (if_pos ha)
      · have hlt : (a :: around).toFinsetᶜ.card < around.toFinsetᶜ.card := by
          rw [List.toFinset_cons]
          exact card_insert_lt (mt List.mem_toFinset.1 ha)
        have hpart (x : Item n) : Judged (heap.offence? (a :: around) x)
            (Received.ofHost (heap.tree (a :: around) x)) :=
          ih _ hlt (a :: around) x rfl
        rw [tree, dif_neg ha]
        cases hc : heap a with
        | array items =>
          have hfault : heap.fault? around (.ref a) = none := by rw [fault?, if_neg ha, hc]
          rw [offence?_ref hfault, hc, Received.ofHost_array_map]
          exact (Judged.mapM fun item _ => Judged.part hpart item).map _
        | object entries =>
          have hfault : heap.fault? around (.ref a) = none := by rw [fault?, if_neg ha, hc]
          have hoffences : ((Container.object entries).parts.map fun part path =>
              part.bind fun x => heap.offence? (a :: around) x path) =
              (entries.indexFirst.map Prod.snd).map (heap.offence? (a :: around)) := by
            rw [Container.parts, List.map_map, List.map_map]
            rfl
          rw [offence?_ref hfault, hc, hoffences, Received.ofHost_object_mapValues,
            Table.collect_mapValues]
          exact ((Judged.mapM fun x _ => hpart x).map _).map _
        | ofClass inherited own entries =>
          have hfault : heap.fault? around (.ref a) = some (own.getD inherited).fault := by
            rw [fault?, if_neg ha, hc]
          exact .of_nil hfault

lemma item?_eq (heap : Heap n) (around : List (Fin n)) (x : Item n) (path : List Nat) :
    heap.item? x path = (heap.at? around x path).map Prod.snd := by
  induction path generalizing around x with
  | nil => rfl
  | cons k path ih =>
    cases x with
    | atom => rfl
    | ref a =>
      rw [item?, at?]
      cases (heap a).part? k with
      | none => rfl
      | some y => exact ih (a :: around) y

lemma item?_append (heap : Heap n) (x : Item n) (p q : List Nat) :
    heap.item? x (p ++ q) = (heap.item? x p).bind fun y => heap.item? y q := by
  induction p generalizing x with
  | nil => rfl
  | cons k p ih =>
    cases x with
    | atom => rfl
    | ref a =>
      rw [List.cons_append, item?, item?]
      cases (heap a).part? k with
      | none => rfl
      | some y => exact ih y

variable {heap : Heap n} {x y : Item n} {path : List Nat} {a : Fin n}

lemma encloses_cons {b : Fin n} {k : Nat} (h : (heap b).part? k = some y) :
    heap.Encloses (.ref b) (k :: path) a ↔ a = b ∨ heap.Encloses y path a := by
  have hstep (p : List Nat) : heap.item? (.ref b) (k :: p) = heap.item? y p := by
    rw [item?, h]
    rfl
  constructor
  · rintro ⟨p, hp, hne, hitem⟩
    cases p with
    | nil =>
      cases hitem
      exact .inl rfl
    | cons j p =>
      obtain ⟨rfl, hprefix⟩ := List.cons_prefix_cons.1 hp
      rw [hstep] at hitem
      exact .inr ⟨p, hprefix, fun heq => hne (congrArg (j :: ·) heq), hitem⟩
  · rintro (rfl | ⟨p, hp, hne, hitem⟩)
    · exact ⟨[], List.nil_prefix, (List.cons_ne_nil _ _).symm, rfl⟩
    · refine ⟨k :: p, List.cons_prefix_cons.2 ⟨rfl, hp⟩, fun heq => hne (List.cons.inj heq).2, ?_⟩
      rw [hstep, hitem]

/-- The containers around the end of a path are those passed on the way. -/
lemma mem_around {around inner : List (Fin n)} (h : heap.at? around x path = some (inner, y)) :
    a ∈ inner ↔ a ∈ around ∨ heap.Encloses x path a := by
  induction path generalizing around x with
  | nil =>
    cases h
    refine (or_iff_left ?_).symm
    rintro ⟨p, hp, hne, -⟩
    exact hne (List.prefix_nil.1 hp)
  | cons k path ih =>
    cases x with
    | atom => cases h
    | ref b =>
      obtain ⟨z, hz, hpath⟩ := Option.bind_eq_some_iff.1 h
      rw [ih hpath, encloses_cons hz, List.mem_cons, or_assoc, or_left_comm]

/-- A container that is passed has parts. -/
lemma Encloses.parts_ne (h : heap.Encloses x path a) (hitem : heap.item? x path = some y) :
    (heap a).parts ≠ [] := by
  obtain ⟨p, ⟨q, rfl⟩, hne, hp⟩ := h
  rw [item?_append, hp, Option.bind_some] at hitem
  intro hparts
  cases q with
  | nil => exact hne (List.append_nil p).symm
  | cons k q =>
    rw [item?, Container.part?, hparts] at hitem
    cases hitem

lemma exists_at? (h : heap.item? x path = some y) :
    ∃ inner, heap.at? [] x path = some (inner, y) ∧
      ∀ a, a ∈ inner ↔ heap.Encloses x path a := by
  rw [item?_eq heap []] at h
  obtain ⟨⟨inner, z⟩, hat, rfl⟩ := Option.map_eq_some_iff.1 h
  exact ⟨inner, hat, fun a => (mem_around hat).trans (or_iff_right List.not_mem_nil)⟩

/-- What is wrong at the end of a path is an offence, and an offence is what is wrong there. -/
lemma offence?_iff {fault : HostFault} :
    heap.offence? [] x path = some fault ↔ heap.Offends x path fault := by
  rw [offence?, Option.bind_eq_some_iff]
  constructor
  · rintro ⟨⟨inner, y⟩, hat, hfault⟩
    have hitem : heap.item? x path = some y := by
      rw [item?_eq heap [], hat]
      rfl
    cases y with
    | atom a =>
      cases a with
      | function => cases hfault; exact .function hitem
      | symbol => cases hfault; exact .symbol hitem
      | date instant =>
        cases instant with
        | none => cases hfault; exact .invalidDate hitem
        | some => cases hfault
      | _ => cases hfault
    | ref a =>
      dsimp only [fault?] at hfault
      split at hfault
      · next ha =>
        cases hfault
        exact .circular hitem (((mem_around hat).1 ha).resolve_left List.not_mem_nil)
      · split at hfault
        · next hc =>
          cases hfault
          exact .ofClass hitem hc
        · cases hfault
  · intro h
    cases h with
    | function hitem =>
      obtain ⟨inner, hat, -⟩ := exists_at? hitem
      exact ⟨_, hat, rfl⟩
    | symbol hitem =>
      obtain ⟨inner, hat, -⟩ := exists_at? hitem
      exact ⟨_, hat, rfl⟩
    | invalidDate hitem =>
      obtain ⟨inner, hat, -⟩ := exists_at? hitem
      exact ⟨_, hat, rfl⟩
    | @ofClass a inherited own entries hitem hc =>
      obtain ⟨inner, hat, hmem⟩ := exists_at? hitem
      refine ⟨_, hat, ?_⟩
      -- an instance is not passed, as it has no parts
      have ha : a ∉ inner := by
        intro ha
        refine ((hmem a).1 ha).parts_ne hitem ?_
        rw [hc]
        rfl
      change heap.fault? inner (.ref a) = _
      rw [fault?, if_neg ha, hc]
    | @circular a hitem hencloses =>
      obtain ⟨inner, hat, hmem⟩ := exists_at? hitem
      exact ⟨_, hat, if_pos ((hmem a).2 hencloses)⟩

/-- The conversion is that of the tree that the host data unfolds to. It succeeds exactly if there is
no offence, and otherwise fails with the first, depth first: paths are compared part by part, and one
that another one goes on from comes before it. -/
theorem convert_exact (heap : Heap n) (root : Item n) :
    (convert heap ∅ root).result = Received.ofHost (heap.tree [] root) ∧
    ((∃ v, (convert heap ∅ root).result = .ok v) ↔ ∀ path fault, ¬ heap.Offends root path fault) ∧
    ∀ fault, (convert heap ∅ root).result = .error fault ↔
      ∃ path, heap.Offends root path fault ∧ ∀ p < path, ∀ f, ¬ heap.Offends root p f := by
  have htree := convert_result heap [] root
  refine ⟨htree, ?_⟩
  rw [List.toFinset_nil] at htree
  rw [htree]
  have hnone (path : List Nat) :
      heap.offence? [] root path = none ↔ ∀ fault, ¬ heap.Offends root path fault := by
    simp only [Option.eq_none_iff_forall_ne_some, ne_eq, offence?_iff]
  have hexact := (judged_tree heap [] root).exactly
  simp only [hnone, offence?_iff] at hexact
  exact hexact

/-- An array that holds another one twice, and misses an item, is received. One that holds itself
after an instance of a class is refused for the instance, whose contents are not looked at. Only an
entry of its own for the constructor counts, and without a constructor no class is told. -/
theorem convert_exact_shared :
    let heap : Heap 6 := fun a => [.array [some (.ref 1), none, some (.ref 1)], .array [],
      .array [some (.ref 1), some (.ref 3), some (.ref 2)],
      .ofClass (.named "Order") none [("f", .atom .function)],
      .ofClass (.named "Order") (some .missing) [], .ofClass .missing none []].get a
    (∃ v, (convert heap ∅ (.ref 0)).result = .ok v) ∧
      (convert heap ∅ (.ref 2)).result = .error (.instance "Order") ∧
      (convert heap ∅ (.ref 4)).result = .error .noConstructor ∧
      (convert heap ∅ (.ref 5)).result = .error .noConstructor := by
  intro heap
  obtain ⟨-, hok, -⟩ := convert_exact heap (.ref 0)
  obtain ⟨-, -, herror⟩ := convert_exact heap (.ref 2)
  obtain ⟨-, -, hhidden⟩ := convert_exact heap (.ref 4)
  obtain ⟨-, -, hmissing⟩ := convert_exact heap (.ref 5)
  have hinstance : heap.Offends (.ref 2) [1] (.instance "Order") :=
    @Offends.ofClass _ heap _ _ 3 (.named "Order") none _ rfl rfl
  have hown : heap.Offends (.ref 4) [] .noConstructor :=
    @Offends.ofClass _ heap _ _ 4 (.named "Order") (some .missing) _ rfl rfl
  have hnone : heap.Offends (.ref 5) [] .noConstructor :=
    @Offends.ofClass _ heap _ _ 5 .missing none _ rfl rfl
  refine ⟨?_, ?_, ?_, ?_⟩
  · refine hok.2 fun path fault h => ?_
    rw [← offence?_iff] at h
    match path, h with
    | [], h => cases h
    | [0], h => cases h
    | [1], h => cases h
    | [2], h => cases h
    | 0 :: k :: _, h => cases h
    | 1 :: k :: _, h => cases h
    | 2 :: k :: _, h => cases h
    | (k + 3) :: _, h => cases h
  · refine (herror _).2 ⟨[1], hinstance, fun p hp f h => ?_⟩
    rw [← offence?_iff] at h
    match p, hp, h with
    | [], _, h => cases h
    | [0], _, h => cases h
    | 0 :: k :: _, _, h => cases h
    | (k + 1) :: p, hp, _ =>
      obtain hlt | ⟨-, hlt⟩ := List.cons_lt_cons_iff.1 hp
      · omega
      · exact List.not_lt_nil _ hlt
  · exact (hhidden _).2 ⟨[], hown, fun p hp => absurd hp (List.not_lt_nil p)⟩
  · exact (hmissing _).2 ⟨[], hnone, fun p hp => absurd hp (List.not_lt_nil p)⟩

end Heap

end Stencil
