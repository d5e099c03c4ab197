import Stencil.Context
import Stencil.Proofs.Table

/-!
# Contexts that are built up

A context starts with the time as its only data, and its setters are called one after the other.
Main statements: `Context.input_built` and `Context.table_built` say that such a context has the
input that was set last, and in each of its tables what was written to it.
-/

namespace Stencil

namespace Context

/-- A call of a setter. -/
inductive Write where
  | input (v : Value)
  | node (id : Text) (v : Value)
  | environment (key value : Text)
  | execution (key : Text) (v : Value)
  | workflow (key : Text) (v : Value)
  | system (key : Text) (v : Value)

namespace Write

/-- The input that is set. -/
def input? : Write → Option Value
  | .input v => some v
  | _ => none

/-- The output of a node that is set. -/
def node? : Write → Option (Text × Value)
  | .node id v => some (id, v)
  | _ => none

/-- The environment variable that is set. -/
def environment? : Write → Option (Text × Text)
  | .environment key value => some (key, value)
  | _ => none

/-- The entry of the execution data that is set. -/
def execution? : Write → Option (Text × Value)
  | .execution key v => some (key, v)
  | _ => none

/-- The entry of the workflow data that is set. -/
def workflow? : Write → Option (Text × Value)
  | .workflow key v => some (key, v)
  | _ => none

/-- The entry of the system data that is set. -/
def system? : Write → Option (Text × Value)
  | .system key v => some (key, v)
  | _ => none

end Write

/-- The context after a call of a setter. -/
def write (c : Context) : Write → Context
  | .input v => c.setInput v
  | .node id v => c.setNode id v
  | .environment key value => c.setVariable key value
  | .execution key v => c.setExecution key v
  | .workflow key v => c.setWorkflow key v
  | .system key v => c.setSystem key v

/-- The context at an instant after calls of its setters. -/
def built (t : Instant) (writes : List Write) : Context := writes.foldl write (atInstant t)

variable {t : Instant} {writes : List Write}

/-- The input is the one that was set last. -/
lemma input_built : (built t writes).input = (writes.filterMap Write.input?).getLast? := by
  induction writes using List.reverseRecOn with
  | nil => rfl
  | append_singleton writes w ih =>
    have hstep : built t (writes ++ [w]) = (built t writes).write w := List.foldl_append
    rw [hstep, List.filterMap_append]
    cases w with
    | input v => exact List.getLast?_concat.symm
    | _ => exact ih.trans (congrArg List.getLast? (List.append_nil _).symm)

/-- A table of the context has what was written to it after what it had before. -/
lemma table_built {α : Type} (table : Context → Table α) (made? : Write → Option (Text × α))
    (hstep : ∀ c w, table (c.write w) =
      match made? w with
      | some e => (table c).insert e.1 e.2
      | none => table c) :
    table (built t writes) =
      (writes.filterMap made?).foldl (fun t e => t.insert e.1 e.2) (table (atInstant t)) := by
  rw [List.foldl_filterMap, built]
  refine (List.foldl_hom table fun c w => ?_).symm
  rw [hstep]
  cases made? w <;> rfl

lemma nodes_built : (built t writes).nodes = .ofEntries (writes.filterMap Write.node?) :=
  table_built nodes Write.node? fun _ w => by cases w <;> rfl

lemma environment_built :
    (built t writes).environment = .ofEntries (writes.filterMap Write.environment?) :=
  table_built environment Write.environment? fun _ w => by cases w <;> rfl

lemma execution_built :
    (built t writes).execution = .ofEntries (writes.filterMap Write.execution?) :=
  table_built execution Write.execution? fun _ w => by cases w <;> rfl

lemma workflow_built : (built t writes).workflow = .ofEntries (writes.filterMap Write.workflow?) :=
  table_built workflow Write.workflow? fun _ w => by cases w <;> rfl

/-- The system data begins with the time. -/
lemma system_built : (built t writes).system =
    .ofEntries (("datetime", .object t.fields) :: writes.filterMap Write.system?) :=
  table_built system Write.system? fun _ w => by cases w <;> rfl

end Context

end Stencil
