import Stencil.Calendar
import Stencil.Value.Coercion

/-!
# Host data

The boundary to the host. `Received.ofHost` admits plain host data and refuses functions, symbols,
instances of classes, invalid dates and containers that hold themselves; `Received.toPlain?` gives
plain data back. The host lists the keys of a container that are indexes first.

An array of the host can have items that were never set. They are admitted, and what the array
becomes has no values in their places, so plain data has no form for it.
-/

namespace Stencil

/-- What the host finds as the constructor of an instance. -/
inductive Constructor where
  /-- Null, undefined or nothing at all. -/
  | missing
  /-- Anything else, by its name, which is empty if it has none. -/
  | named (name : Text)
deriving DecidableEq

/-- Data as the host has it. -/
inductive Host where
  | null
  | undefined
  | bool (value : Bool)
  | number (value : Number)
  | bigInteger (value : Int)
  | string (value : Text)
  | date (instant : Option Instant)
  | function
  | symbol
  | instance (constructor : Constructor)
  /-- The container that many levels above the innermost one. -/
  | enclosing (level : Nat)
  /-- An array, in which items can be missing. -/
  | array (items : List (Option Host))
  | object (entries : List (Text × Host))

/-- What data of the host becomes: a value, if no item of an array is missing. -/
inductive Received where
  | null
  | bool (value : Bool)
  | integer (value : Whole)
  | float (value : Number)
  | string (value : Text)
  | array (items : List (Option Received))
  | object (entries : List (Text × Received))

/-- Plain data: what the host writes as JSON, and the numbers that JSON has no form for. -/
inductive Plain where
  | null
  | bool (value : Bool)
  | number (value : Number)
  | string (value : Text)
  | array (items : List Plain)
  | object (entries : List (Text × Plain))

/-- Why host data is refused. Instances without a constructor and invalid dates are refused by the
host itself, with errors of its own. -/
inductive HostFault where
  | function
  | symbol
  | circular
  | instance (className : Text)
  | noConstructor
  | invalidDate
deriving DecidableEq

/-- The fault of an instance with the constructor. -/
def Constructor.fault : Constructor → HostFault
  | .missing => .noConstructor
  | .named name => .instance name

namespace Table

/-- All entries of a table of results, or the first fault in the order of the entries. -/
def collect {ε α : Type} : Table (Except ε α) → Except ε (Table α)
  | [] => .ok []
  | (key, result) :: rest => do
    let entry ← result
    return (key, entry) :: (← collect rest)

end Table

namespace Value

mutual
/-- A value, which has no missing items. -/
def received : Value → Received
  | .null => .null
  | .bool b => .bool b
  | .integer n => .integer n
  | .float x => .float x
  | .string t => .string t
  | .array items => .array (receivedItems items)
  | .object entries => .object (receivedEntries entries)
/-- The items, none of them missing. -/
def receivedItems : List Value → List (Option Received)
  | [] => []
  | v :: rest => some v.received :: receivedItems rest
/-- The entries. -/
def receivedEntries : List (Text × Value) → Table Received
  | [] => []
  | (key, v) :: rest => (key, v.received) :: receivedEntries rest
end

end Value

namespace Received

mutual
/-- What host data becomes. The fault is that of the first offence, depth first, in the order in
which the host lists items and keys. -/
def ofHost : Host → Except HostFault Received
  | .null | .undefined => .ok .null
  | .bool b => .ok (.bool b)
  | .number x => .ok (Value.ofNumber x true).received
  | .bigInteger n =>
    match Whole.ofInt? n with
    | some whole => .ok (.integer whole)
    | none => .ok (.string (.ofInt n))
  | .string t => .ok (.string t)
  | .date (some t) => .ok (.string t.iso)
  | .date none => .error .invalidDate
  | .function => .error .function
  | .symbol => .error .symbol
  | .instance c => .error c.fault
  | .enclosing _ => .error .circular
  | .array items => (ofHostItems items).map .array
  | .object entries => (Table.indexFirst (ofHostEntries entries)).collect.map .object
/-- The items of a host array, up to the first offence. Missing items are passed over. -/
def ofHostItems : List (Option Host) → Except HostFault (List (Option Received))
  | [] => .ok []
  | none :: rest => do return none :: (← ofHostItems rest)
  | some h :: rest => do
    let v ← ofHost h
    return some v :: (← ofHostItems rest)
/-- What becomes of each entry of a host object. -/
def ofHostEntries : List (Text × Host) → Table (Except HostFault Received)
  | [] => []
  | (key, h) :: rest => (key, ofHost h) :: ofHostEntries rest
end

mutual
/-- What was received as plain data; integers and floats are numbers alike. None if an item is
missing, which has no kind that could be looked at. -/
def toPlain? : Received → Option Plain
  | .null => some .null
  | .bool b => some (.bool b)
  | .integer n => some (.number n.toNumber)
  | .float x => some (.number x)
  | .string t => some (.string t)
  | .array items => (toPlainItems? items).map .array
  | .object entries => (toPlainEntries? entries).map fun entries => .object entries.indexFirst
/-- The items as plain data. -/
def toPlainItems? : List (Option Received) → Option (List Plain)
  | [] => some []
  | none :: _ => none
  | some v :: rest => do
    let p ← v.toPlain?
    return p :: (← toPlainItems? rest)
/-- The entries as plain data. -/
def toPlainEntries? : List (Text × Received) → Option (Table Plain)
  | [] => some []
  | (key, v) :: rest => do
    let p ← v.toPlain?
    return (key, p) :: (← toPlainEntries? rest)
end

theorem ofHost_array (items : List (Option Host)) :
    ofHost (.array items) = (ofHostItems items).map .array := by
  rw [ofHost]

theorem ofHost_object (entries : List (Text × Host)) : ofHost (.object entries) =
    (Table.indexFirst (ofHostEntries entries)).collect.map .object := by
  rw [ofHost]

theorem toPlain?_array (items : List (Option Received)) :
    (array items).toPlain? = (toPlainItems? items).map .array := by
  rw [toPlain?]

theorem toPlain?_object (entries : List (Text × Received)) : (object entries).toPlain? =
    (toPlainEntries? entries).map fun entries => .object entries.indexFirst := by
  rw [toPlain?]

end Received

end Stencil
