import Stencil.Calendar
import Stencil.DataSource
import Stencil.Value.Access

/-!
# Contexts

A context holds the data that references resolve to. Paths into the input, the outputs of nodes and
the system data lead through nested values; the execution, workflow and environment data are looked
up by the whole path as one key.
-/

namespace Stencil

/-- The data of a rendering. -/
structure Context where
  input : Option Value
  nodes : Table Value
  environment : Table Text
  execution : Table Value
  workflow : Table Value
  system : Table Value

/-- A reference that does not resolve, and the references that could be used instead. -/
structure Miss where
  path : Text
  available : List Text

/-- The forms of an instant that references to the system can use, all in UTC. -/
def Instant.fields (t : Instant) : Table Value :=
  let iso := t.iso
  [("now", .string iso), ("timestamp", .integer t.seconds),
    ("iso", .string (iso.slice 0 19 ++ "Z")), ("date", .string (iso.slice 0 10)),
    ("time", .string (iso.slice 11 19))]

namespace Context

/-- The context at an instant; it has no data but the time. -/
def atInstant (t : Instant) : Context :=
  ⟨none, [], [], [], [], [("datetime", .object t.fields)]⟩

/-- Sets the input. -/
def setInput (c : Context) (v : Value) : Context := { c with input := some v }

/-- Sets the output of a node. -/
def setNode (c : Context) (id : Text) (v : Value) : Context :=
  { c with nodes := c.nodes.insert id v }

/-- Sets an environment variable. -/
def setVariable (c : Context) (key value : Text) : Context :=
  { c with environment := c.environment.insert key value }

/-- Sets an entry of the execution data. -/
def setExecution (c : Context) (key : Text) (v : Value) : Context :=
  { c with execution := c.execution.insert key v }

/-- Sets an entry of the workflow data. -/
def setWorkflow (c : Context) (key : Text) (v : Value) : Context :=
  { c with workflow := c.workflow.insert key v }

/-- Sets an entry of the system data. -/
def setSystem (c : Context) (key : Text) (v : Value) : Context :=
  { c with system := c.system.insert key v }

/-- The value at the end of a path below a source. -/
def descend (root : Value) (source : DataSource) (path : Text) (available : List Text) :
    Except Miss Value :=
  match root.navigate? path with
  | some v => .ok v
  | none => .error ⟨source.pathLabel path, available⟩

/-- The entry of a store under a whole path; the empty path stands for all entries. -/
def lookUp (store : Table Value) (source : DataSource) (path : Text) : Except Miss Value :=
  if path.isEmpty then .ok (.object store)
  else
    match store.find? path with
    | some v => .ok v
    | none => .error ⟨source.pathLabel path, store.keys.map source.pathLabel⟩

/-- The value of a reference. -/
def resolve (c : Context) (source : DataSource) (path : Text) : Except Miss Value :=
  match source with
  | .input =>
    match c.input with
    | some v => descend v .input path [DataSource.input.label]
    | none => .error ⟨DataSource.input.label, ["No input data available"]⟩
  | .node id =>
    match c.nodes.find? id with
    | some v => descend v (.node id) path [(DataSource.node id).label]
    | none =>
      .error ⟨(DataSource.node id).label, c.nodes.keys.map fun k => (DataSource.node k).label⟩
  | .system => descend (.object c.system) .system path ["$system.datetime"]
  | .execution => lookUp c.execution .execution path
  | .workflow => lookUp c.workflow .workflow path
  | .environment =>
    match c.environment.find? path with
    | some value => .ok (.string value)
    | none =>
      .error ⟨DataSource.environment.pathLabel path,
        c.environment.keys.map DataSource.environment.pathLabel⟩

/-- The references that resolve at present. -/
def available (c : Context) : List Text :=
  (if c.input.isSome then [DataSource.input.label] else []) ++
    c.nodes.keys.map (fun id => (DataSource.node id).label) ++
    [DataSource.system.label, DataSource.execution.label, DataSource.workflow.label] ++
    c.environment.keys.map DataSource.environment.pathLabel

/-- Whether a source has data. The input and the nodes have some once it is set, all others
always. -/
def has (c : Context) : DataSource → Bool
  | .input => c.input.isSome
  | .node id => c.nodes.has id
  | _ => true

end Context

end Stencil
