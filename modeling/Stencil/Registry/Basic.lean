import Stencil.Diagnostic
import Stencil.Registry.Signature

/-!
# Registries

The functions that expressions can call. A registry is a value: adding or removing a function gives
another registry. Its revision counts the changes since the registry it came from, so two registries
of one history are the same if their revisions are.
-/

namespace Stencil

/-- How a function fails: with a diagnostic of its own, with a plain error, or by throwing something
else, of which only the text is kept. -/
inductive Failure where
  | diagnostic (d : Diagnostic)
  | error (message : Text)
  | thrown (text : Text)

/-- The message of a failure. -/
def Failure.message : Failure → Text
  | .diagnostic d => d.message
  | .error message => message
  | .thrown text => text

/-- A failure as the cause of another one. -/
def Failure.cause : Failure → Cause
  | .diagnostic d => .error d.message
  | .error message => .error message
  | .thrown text => .thrown text

/-- What a function does with its arguments. -/
abbrev Function := List Value → Except Failure Value

/-- A registered function. -/
structure Registration where
  name : Text
  run : Function
  signature : Option Signature

/-- The arguments as the function receives them; without a signature they stay as they are. -/
def Registration.bind (r : Registration) (args : List Value) : Except BindFault (List Value) :=
  match r.signature with
  | some s => s.bind args
  | none => .ok args

/-- The functions by name. -/
structure Registry where
  entries : Table Registration
  /-- Whether the registry was set up at all, even without functions. -/
  bound : Bool
  revision : Nat

/-- Why a function cannot be registered. -/
inductive RegistryFault where
  | notName
  | reserved
  | misplaced (parameter : Text)
deriving DecidableEq

/-- The message. -/
def RegistryFault.message : RegistryFault → Text
  | .notName => "function names must be identifiers"
  | .reserved => "'if' is reserved"
  | .misplaced parameter =>
    "required parameter '" ++ parameter ++ "' follows an optional one"

/-- The diagnostic of a function that cannot be registered. -/
def RegistryFault.diagnostic (name : Text) (fault : RegistryFault) : Diagnostic :=
  .build (.signature name) fault.message {} none

/-- The diagnostic of arguments that do not fit the function of a name. -/
def BindFault.diagnostic (name : Text) (location : Location) (fault : BindFault) : Diagnostic :=
  .build (.signature name) fault.message location none

namespace Registry

/-- A registry without functions. -/
def empty : Registry := ⟨[], true, 0⟩

/-- What stands for a registry where none was set up. -/
def unbound : Registry := ⟨[], false, 0⟩

/-- The function of a name. -/
def find? (r : Registry) (name : Text) : Option Registration := r.entries.find? name

/-- Whether a name is registered. -/
def has (r : Registry) (name : Text) : Bool := r.entries.has name

/-- How many functions there are. -/
def size (r : Registry) : Nat := r.entries.length

/-- The names in order. -/
def names (r : Registry) : List Text := r.entries.keys.mergeSort Text.le

/-- Why a function of that name and signature cannot be registered. -/
def refusal? (name : Text) (signature : Option Signature) : Option RegistryFault :=
  if !name.isName then some .notName
  else if name = ("if" : Text) then some .reserved
  else (signature.bind fun s => Signature.misplaced? s.parameters).map .misplaced

/-- Adds or replaces a function. -/
def insert (r : Registry) (f : Registration) : Except RegistryFault Registry :=
  match refusal? f.name f.signature with
  | some fault => .error fault
  | none => .ok ⟨r.entries.insert f.name f, true, r.revision + 1⟩

/-- Removes a function, if it is there. -/
def erase (r : Registry) (name : Text) : Registry :=
  if r.has name then ⟨r.entries.erase name, true, r.revision + 1⟩ else r

end Registry

end Stencil
