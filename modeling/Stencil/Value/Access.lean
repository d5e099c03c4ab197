import Stencil.Value.Fault

/-!
# Access

Parts of values by key. A key names an entry of an object or, written in digits, an item of an
array; a path is a run of keys with points between.
-/

namespace Stencil

/-- The index that a key is: digits of a number in the exact range. -/
def Text.index? (key : Text) : Option Nat :=
  if key.isDigits && key.toNat ≤ exactLimit then some key.toNat else none

namespace Value

/-- The part under a key. -/
def get? : Value → Text → Option Value
  | .object entries, key => Table.find? entries key
  | .array items, key => key.index?.bind fun i => items[i]?
  | _, _ => none

/-- The part at the end of a run of keys. -/
def follow? (v : Value) (keys : List Text) : Option Value := keys.foldlM get? v

/-- The part at the end of a path; the empty path leads nowhere else. -/
def navigate? (v : Value) (path : Text) : Option Value :=
  if path.isEmpty then some v else v.follow? (path.split '.')

/-- The value with another part under a key. An object takes any key, an array only the indexes it
has. -/
def set (v : Value) (key : Text) (part : Value) : Except ValueFault Value :=
  match v with
  | .object entries => .ok (.object (Table.insert key part entries))
  | .array items =>
    match key.index? with
    | none => .error .notIndex
    | some i =>
      if i < items.length then .ok (.array (items.set i part))
      else .error (.outOfBounds i items.length)
  | v => .error (.unsuitable v.kind .entry)

end Value

end Stencil
