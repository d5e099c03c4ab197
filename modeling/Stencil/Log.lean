import Stencil.Number.Decimal
import Stencil.Text.Quoted
import Stencil.Value.Host

/-!
# Logging

The level at which a service logs, as its environment sets it, and the line that the console shows
for an entry.
-/

namespace Stencil

namespace Plain

mutual
/-- Plain data as compact JSON. -/
def json : Plain → Text
  | .null => "null"
  | .bool b => if b then "true" else "false"
  | .number x => if x.isFinite then x.text else "null"
  | .string t => t.quote
  | .array items => "[" ++ Text.join "," (jsonItems items) ++ "]"
  | .object entries => "\x7b" ++ Text.join "," (jsonEntries entries) ++ "\x7d"
/-- The items as compact JSON. -/
def jsonItems : List Plain → List Text
  | [] => []
  | p :: rest => p.json :: jsonItems rest
/-- The entries as compact JSON. -/
def jsonEntries : List (Text × Plain) → List Text
  | [] => []
  | (key, p) :: rest => (key.quote ++ ":" ++ p.json) :: jsonEntries rest
end

mutual
/-- Plain data as text: a string stands for itself, an array for its items with commas between, and
an object only says that it is one. -/
def text : Plain → Text
  | .null => "null"
  | .bool b => if b then "true" else "false"
  | .number x => x.text
  | .string t => t
  | .array items => Text.join "," (itemTexts items)
  | .object _ => "[object Object]"
/-- The items as text; a null leaves its place empty. -/
def itemTexts : List Plain → List Text
  | [] => []
  | .null :: rest => [] :: itemTexts rest
  | p :: rest => p.text :: itemTexts rest
end

end Plain

namespace Log

/-- The services that log. -/
inductive Service where
  | registry
  | evaluator
  | template
deriving DecidableEq

namespace Service

/-- The name of a service. -/
def name : Service → Text
  | .registry => "registry"
  | .evaluator => "evaluator"
  | .template => "template"

/-- The level that a service logs at if nothing else is set. -/
def level : Service → Text
  | .registry | .evaluator | .template => "warn"

end Service

/-- The variables of the environment that logging goes by. -/
structure Settings where
  level : Option Text
  mode : Option Text
  testLevel : Option Text
  debug : Option Text

namespace Settings

/-- The value of a variable, if it is set and not empty. -/
def given (value : Option Text) : Option Text := value.filter fun t => !t.isEmpty

/-- Whether the program runs under test. -/
def isTest (s : Settings) : Bool := s.mode == some ("test" : Text)

/-- The level of a service: the one that is set; under test the level for tests, or errors only; for
debugging everything; otherwise that of the service. -/
def resolve (s : Settings) (service : Service) : Text :=
  match given s.level with
  | some level => level
  | none =>
    if s.isTest then (given s.testLevel).getD "error"
    else if s.debug == some ("true" : Text) then "debug"
    else service.level

/-- Whether nothing is logged: under test, unless a level for tests is set. -/
def isSilent (s : Settings) : Bool := s.isTest && (given s.testLevel).isNone

end Settings

/-- Levels, with the terminal colour in which they are shown. -/
def colours : Table Nat :=
  [("error", 31), ("warn", 33), ("info", 32), ("http", 32), ("verbose", 36), ("debug", 34),
    ("silly", 35)]

/-- The control sequence of a terminal with a number. -/
def control (n : Nat) : Text := "\x1b[" ++ Text.ofNat n ++ "m"

/-- Ends a colour. -/
def plainColour : Text := control 39

/-- The text with the colour begun again wherever it ends inside. -/
def resume (colour : Text) : Text → Text
  | [] => []
  | u :: rest =>
    if plainColour.isPrefixOf (u :: rest) then
      colour ++ resume colour (rest.drop (plainColour.length - 1))
    else u :: resume colour rest
termination_by t => t.length

/-- Line feeds and carriage returns. -/
def isBreak (u : CodeUnit) : Bool := u == CodeUnit.ofBasic '\n' || u == CodeUnit.ofBasic '\r'

/-- The text with the colour ended before every run of breaks and begun again after it, where
`broken` says whether the text stands after a break. -/
def paintLines (colour : Text) (broken : Bool) : Text → Text
  | [] => if broken then colour else []
  | u :: rest =>
    if isBreak u = broken then u :: paintLines colour broken rest
    else (if broken then colour else plainColour) ++ u :: paintLines colour (!broken) rest

/-- A text in a colour; an empty text stays empty. Where the text has a line feed, its breaks stand
outside the colour; a text with carriage returns alone counts as one line. -/
def paint (colour : Text) (t : Text) : Text :=
  if t.isEmpty then t
  else
    let painted := colour ++ resume colour t ++ plainColour
    if t.contains (CodeUnit.ofBasic '\n') then paintLines colour false painted else painted

/-- What is logged: a level, a message, and further data. -/
structure Entry where
  level : Text
  message : Text
  data : Table Plain

/-- The fields with a place of their own in the line of an entry. -/
def placed : List Text := ["timestamp", "level", "service", "message"]

namespace Entry

/-- A field of an entry: the data under its name, or else the text given. -/
def field (e : Entry) (name own : Text) : Text := ((e.data.find? name).map Plain.text).getD own

/-- The data without a place of its own, as the host lists it. -/
def remainder (e : Entry) : Table Plain :=
  Table.indexFirst (e.data.filter fun d => !placed.contains d.1)

/-- The line of an entry of a service after the time given. Level and message are coloured by the
level, and data under a field's name is shown in its place; the time is never replaced. Further
data follows as JSON. -/
def line (e : Entry) (time : Text) (service : Service) : Text :=
  let colour := control ((colours.find? e.level).getD 39)
  let data := e.remainder
  let shown : Text := if data.isEmpty then [] else " " ++ (Plain.object data).json
  time ++ " [" ++ paint colour (e.field "level" e.level) ++ "] [" ++
    e.field "service" service.name ++ "] " ++ paint colour (e.field "message" e.message) ++ shown

end Entry

end Log

end Stencil
