import Stencil.Expr.Traversal
import Stencil.Template.Basic
import Stencil.Validation.Issue

/-!
# Validation

Checks of a template without rendering it: the number and depth of its nodes, its functions against
a registry and lists of names, its data sources against lists of kinds. Empty lists and limits that
do not count check nothing.
-/

namespace Stencil

/-- What is checked. -/
structure Rules where
  /-- The registry to check against; that of the template if none is given. -/
  registry : Option Registry := none
  maxDepth : Option Quantity := none
  maxNodes : Option Quantity := none
  allowedFunctions : List Text := []
  forbiddenFunctions : List Text := []
  allowedSources : List Text := []
  forbiddenSources : List Text := []

/-- What a template is made of. -/
structure Counts where
  expressions : Nat := 0
  nodes : Nat := 0
  depth : Nat := 0
  calls : Nat := 0
  accesses : Nat := 0
deriving DecidableEq

/-- What a validation finds, sorted, and what it counted. -/
structure Validation where
  issues : List Issue
  counts : Counts

/-- Whether there is no error. -/
def Validation.ok (v : Validation) : Bool := v.issues.all fun i => i.violation.severity ≠ .error

/-- A function that is called, with how many arguments, at which part of the source. -/
structure CallSite where
  name : Text
  args : Nat
  span : Span

namespace Expr

/-- The calls that a node makes itself. The running value of a pipeline counts as an argument. -/
def callSites : Expr → List CallSite
  | .call span name args => [⟨name, args.length, span⟩]
  | .pipeline _ _ stages =>
    stages.map fun stage => ⟨stage.name, stage.args.length + 1, stage.span⟩
  | _ => []

/-- The kind of the source that a node refers to. -/
def sourceKind? : Expr → Option Text
  | .access _ source _ => some source.kind
  | _ => none

/-- The violation of a node whose operator cannot be evaluated. -/
def unsupported? : Expr → Option Violation
  | .binary _ op _ _ => if op.isSupported then none else some (.unsupported op)
  | _ => none

end Expr

/-- Whether a list of names is set and lacks a name. -/
def lacks (list : List Text) (name : Text) : Bool := !list.isEmpty && !list.contains name

namespace Rules

/-- The issue of a list of nodes that is too long, at the first node too many. -/
def nodeIssues (r : Rules) (source : Text) (nodes : List Expr) : List Issue :=
  match effective r.maxNodes with
  | none => []
  | some limit =>
    match nodes.zipIdx.find? fun (_, before) => limit.lt (before + 1 : Nat) with
    | some (e, before) => [.ofSpan source e.span (.tooManyNodes (before + 1) limit)]
    | none => []

/-- The issue of an expression that is too deep, at its first node too deep. -/
def depthIssues (r : Rules) (source : Text) (visits : List (Expr × Nat)) : List Issue :=
  match effective r.maxDepth with
  | none => []
  | some limit =>
    match visits.find? fun (_, depth) => limit.lt depth with
    | some (e, depth) => [.ofSpan source e.span (.tooDeep depth limit)]
    | none => []

/-- The issues of operators that cannot be evaluated. -/
def operatorIssues (source : Text) (nodes : List Expr) : List Issue :=
  nodes.filterMap fun e => e.unsupported?.map (Issue.ofSpan source e.span)

/-- The violations of a name that do not depend on how it is called. -/
def nameViolations (r : Rules) (registry : Registry) (name : Text) : List Violation :=
  (if lacks r.allowedFunctions name then [.functionNotAllowed name] else []) ++
    (if r.forbiddenFunctions.contains name then [.functionForbidden name] else []) ++
    (if registry.has name then [] else [.unknownFunction name registry.bound])

/-- The violation of a number of arguments that the signature does not allow. -/
def arityViolation? (registry : Registry) (call : CallSite) : Option Violation := do
  let f ← registry.find? call.name
  let s ← f.signature
  if call.args < s.least || s.exceeds call.args then
    some (.arity call.name call.args s.least s.most?)
  else none

/-- The issues of calls. Those of a name are found at its first call, those of a number of arguments
at every call. -/
def callIssues (r : Rules) (registry : Registry) (source : Text) (seen : List Text) :
    List CallSite → List Issue
  | [] => []
  | call :: rest =>
    (if seen.contains call.name then []
      else (r.nameViolations registry call.name).map (Issue.ofSpan source call.span)) ++
      (arityViolation? registry call).toList.map (Issue.ofSpan source call.span) ++
      callIssues r registry source (call.name :: seen) rest

/-- The issues of data sources, each at its first use. -/
def sourceIssues (r : Rules) (source : Text) (seen : List Text) : List Expr → List Issue
  | [] => []
  | e :: rest =>
    match e.sourceKind? with
    | none => sourceIssues r source seen rest
    | some kind =>
      if seen.contains kind then sourceIssues r source seen rest
      else
        (if lacks r.allowedSources kind then
          [Issue.ofSpan source e.span (.sourceNotAllowed kind)] else []) ++
        (if r.forbiddenSources.contains kind then
          [Issue.ofSpan source e.span (.sourceForbidden kind)] else []) ++
        sourceIssues r source (kind :: seen) rest

end Rules

namespace Template

/-- Checks a template. -/
def validate (t : Template) (r : Rules) : Validation :=
  let registry := r.registry.getD t.functions
  let visits := t.exprs.map Expr.visits
  let nodes := visits.flatten.map Prod.fst
  let calls := nodes.flatMap Expr.callSites
  let issues :=
    r.nodeIssues t.source nodes ++ visits.flatMap (r.depthIssues t.source) ++
      Rules.operatorIssues t.source nodes ++ r.callIssues registry t.source [] calls ++
      r.sourceIssues t.source [] nodes
  ⟨issues.mergeSort Issue.le,
    { expressions := t.exprs.length
      nodes := nodes.length
      depth := (visits.flatten.map Prod.snd).foldl Nat.max 0
      calls := calls.length
      accesses := (nodes.filter Expr.isAccess).length }⟩

end Template

/-- The issue of a source that does not parse. -/
def SyntaxFault.issue (source : Text) (fault : SyntaxFault) : Issue :=
  ⟨.malformed fault, (Diagnostic.usable fault.index).map fun index => .of source index 1⟩

/-- Parses a source with the registry of the rules and checks it. The parsed template is given back,
or the fault of a source that does not parse. -/
def Rules.checkSource (r : Rules) (source : Text) (limits : Limits) :
    Validation × Except SyntaxFault Template :=
  match Template.parse source (r.registry.getD .unbound) limits with
  | .ok t => (t.validate r, .ok t)
  | .error fault => (⟨[fault.issue source], {}⟩, .error fault)

end Stencil
