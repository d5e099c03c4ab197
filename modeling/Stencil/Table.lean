import Stencil.Text.Basic

/-!
# Tables

Keyed entries in the order in which their keys first came. Writing a key that is present keeps its
place, a new key comes last.
-/

namespace Stencil

/-- Entries by key, oldest key first. -/
abbrev Table (α : Type) := List (Text × α)

namespace Table

variable {α β : Type}

/-- No key occurs twice. -/
def Unique (t : Table α) : Prop := (t.map Prod.fst).Nodup

/-- The keys in order. -/
def keys (t : Table α) : List Text := t.map Prod.fst

/-- The entry under a key. -/
def find? (t : Table α) (key : Text) : Option α := t.lookup key

/-- Whether a key is present. -/
def has (t : Table α) (key : Text) : Bool := (t.find? key).isSome

/-- Writes an entry. -/
def insert (key : Text) (entry : α) : Table α → Table α
  | [] => [(key, entry)]
  | (k, old) :: rest => if k = key then (key, entry) :: rest else (k, old) :: insert key entry rest

/-- Removes an entry. -/
def erase (t : Table α) (key : Text) : Table α := t.filter fun e => e.1 ≠ key

/-- Writes entries one after the other. -/
def ofEntries (entries : List (Text × α)) : Table α :=
  entries.foldl (fun t e => t.insert e.1 e.2) []

/-- The number that a key is as an index: digits without a leading zero, below `2 ^ 32 - 1`. -/
def index? (key : Text) : Option Nat :=
  if key.isDigits && Text.ofNat key.toNat == key && key.toNat < 4294967295 then some key.toNat
  else none

/-- Entries whose keys are indexes first, by index, then the others in their order. -/
def indexFirst (t : Table α) : Table α :=
  let indexed := t.filterMap fun e => (index? e.1).map (·, e)
  let sorted := indexed.mergeSort fun a b => a.1 ≤ b.1
  sorted.map Prod.snd ++ t.filter fun e => (index? e.1).isNone

end Table

end Stencil
