import Stencil.Value.Basic

/-!
# Signatures

What a function declares about its arguments, and how the arguments of a call are bound: counts are
checked before kinds, and omitted arguments take their defaults as far as there are any.
-/

namespace Stencil

/-- What a parameter accepts. -/
inductive ParameterType where
  | any
  /-- Integers and floats. -/
  | number
  /-- Values of the kind of that name. -/
  | kind (name : Text)
deriving DecidableEq

namespace ParameterType

/-- The name of the type. -/
def name : ParameterType → Text
  | .any => "any"
  | .number => "number"
  | .kind name => name

/-- The type of a name. -/
def ofName (name : Text) : ParameterType :=
  if name = ("any" : Text) then .any
  else if name = ("number" : Text) then .number
  else .kind name

/-- Whether a value fits. -/
def accepts (t : ParameterType) (v : Value) : Bool :=
  match t with
  | .any => true
  | .number => v.isNumber
  | .kind name => v.kind.name == name

end ParameterType

/-- A parameter of a function. -/
structure Parameter where
  name : Text
  type : ParameterType
  required : Bool
  fallback : Option Value

/-- Whether the argument may be omitted: it is not required, or it has a default. -/
def Parameter.isOptional (p : Parameter) : Bool := !p.required || p.fallback.isSome

/-- What a function declares. A variadic one takes further arguments of the last type. -/
structure Signature where
  parameters : List Parameter
  variadic : Bool

/-- Why arguments do not fit a signature. -/
inductive BindFault where
  | tooMany (most given : Nat)
  | missing (parameter : Text)
  | mismatch (parameter : Text) (expected : ParameterType) (found : Kind)
deriving DecidableEq

/-- The message. -/
def BindFault.message : BindFault → Text
  | .tooMany most given =>
    "expected at most " ++ Text.ofNat most ++ " argument(s), got " ++ Text.ofNat given
  | .missing parameter => "missing required argument '" ++ parameter ++ "'"
  | .mismatch parameter expected found =>
    "argument '" ++ parameter ++ "' expects " ++ expected.name ++ ", got " ++ found.name

namespace Signature

/-- The least number of arguments. -/
def least (s : Signature) : Nat := (s.parameters.filter fun p => !p.isOptional).length

/-- The greatest number of arguments, if there is one. -/
def most? (s : Signature) : Option Nat := if s.variadic then none else some s.parameters.length

/-- Whether some number of arguments is too many. -/
def exceeds (s : Signature) (count : Nat) : Bool := s.most?.any (· < count)

/-- The first required parameter after an optional one. -/
def misplaced? : List Parameter → Option Text
  | [] => none
  | p :: rest =>
    if p.isOptional then (rest.find? fun q => !q.isOptional).map Parameter.name
    else misplaced? rest

/-- The parameter of the argument at a place; all places past the last parameter share it. -/
def parameterAt? (s : Signature) (place : Nat) : Option Parameter :=
  s.parameters[Nat.min place (s.parameters.length - 1)]?

/-- Checks the kinds of arguments, the first of which is at a place. -/
def checkKinds (s : Signature) : Nat → List Value → Except BindFault Unit
  | _, [] => .ok ()
  | place, v :: rest =>
    match s.parameterAt? place with
    | some p =>
      if p.type.accepts v then s.checkKinds (place + 1) rest
      else .error (.mismatch p.name p.type v.kind)
    | none => s.checkKinds (place + 1) rest

/-- The defaults of parameters in order, up to the first without one. -/
def defaults : List Parameter → List Value
  | [] => []
  | p :: rest =>
    match p.fallback with
    | some v => v :: defaults rest
    | none => []

/-- The arguments that the function receives for those of a call. -/
def bind (s : Signature) (args : List Value) : Except BindFault (List Value) :=
  if s.exceeds args.length then .error (.tooMany s.parameters.length args.length)
  else if args.length < s.least then
    .error (.missing ((s.parameters[args.length]?.map Parameter.name).getD []))
  else do
    s.checkKinds 0 args
    return args ++ defaults (s.parameters.drop args.length)

end Signature

end Stencil
