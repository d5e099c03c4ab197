import Stencil.Proofs.Context
import Stencil.Proofs.Eval.Run
import Stencil.Proofs.Print.Label
import Stencil.Proofs.Text

/-!
# References from text to value

A reference is written as the label of its source and a run of segments with points before them.
Main statement: `Context.answers_built`. The input, the nodes and the system data are followed
segment by segment, while the data of the execution, of the workflow and of the environment is looked
up under all segments as one key; what is found is what was set last.
-/

namespace Stencil

namespace Text

/-- The label with the segments after it, each after a point. -/
def dotted (label : Text) (segments : List Text) : Text :=
  label ++ segments.flatMap fun s => ('.' : CodeUnit) :: s

lemma join_cons (s : Text) (rest : List Text) : join "." (s :: rest) = dotted s rest := by
  induction rest generalizing s with
  | nil => exact (List.append_nil s).symm
  | cons s' rest ih =>
    rw [join_cons_cons, ih, List.append_assoc]
    rfl

end Text

/-- The segments of paths: they are not empty, and have letters, digits and underscores only. -/
def Segments (segments : List Text) : Prop := ∀ s ∈ segments, s ≠ [] ∧ ∀ u ∈ s, u.isNamePart

namespace Segments

variable {segments : List Text}

lemma split_join (h : Segments segments) (hne : segments ≠ []) :
    Text.split '.' (Text.join "." segments) = segments := by
  refine Text.split_join (fun s hs hmem => ?_) hne
  have hpoint := (h s hs).2 _ hmem
  revert hpoint
  decide

/-- Segments with points between them can be read as a path. -/
lemma path (h : Segments segments) (hne : segments ≠ []) :
    Reading.Path (Text.join "." segments) := by
  constructor
  · cases segments with
    | nil => exact absurd rfl hne
    | cons s rest =>
      have hpart {s' : Text} (hs' : s' ∈ s :: rest) : ∀ v ∈ s', v.isNamePart || v == '.' :=
        fun v hv => Bool.or_eq_true_iff.2 (.inl ((h s' hs').2 v hv))
      rw [Text.join_cons, Text.dotted]
      refine List.forall_mem_append.2 ⟨hpart List.mem_cons_self, fun v hv => ?_⟩
      obtain ⟨s', hs', hv⟩ := List.mem_flatMap.1 hv
      obtain rfl | hv := List.mem_cons.1 hv
      · decide
      · exact hpart (List.mem_cons_of_mem _ hs') v hv
  · rw [Reading.Legible, h.split_join hne]
    exact fun s hs => (h s hs).1

lemma isEmpty_join (h : Segments segments) (hne : segments ≠ []) :
    (Text.join "." segments).isEmpty = false :=
  List.isEmpty_eq_false_iff.2 (h.path hne).ne_nil

/-- A path leads where its segments lead one after the other. -/
lemma navigate?_join (h : Segments segments) (v : Value) :
    v.navigate? (Text.join "." segments) = v.follow? segments := by
  by_cases hne : segments = []
  · subst hne
    rfl
  · rw [Value.navigate?, h.isEmpty_join hne, h.split_join hne]
    rfl

/-- A path is written after its label segment by segment. -/
lemma pathLabel_join (h : Segments segments) (hne : segments ≠ []) (source : DataSource) :
    source.pathLabel (Text.join "." segments) = Text.dotted source.label segments := by
  cases segments with
  | nil => exact absurd rfl hne
  | cons s rest =>
    rw [DataSource.pathLabel, Text.join_cons, List.append_assoc]
    rfl

/-- A reference is written as its label with the segments of its path. -/
lemma reference_join (h : Segments segments) (source : DataSource) :
    source.reference (Text.join "." segments) = Text.dotted source.label segments := by
  by_cases hne : segments = []
  · subst hne
    exact (List.append_nil _).symm
  · rw [DataSource.reference_eq (h.path hne).ne_nil, h.pathLabel_join hne]

/-- The segments that lead into the output of a node: a `json` that others follow is left out. -/
def inner : List Text → List Text
  | s :: s' :: rest => if s = "json" then s' :: rest else s :: s' :: rest
  | segments => segments

lemma inner_of (h : Segments segments) : Segments (inner segments) := by
  unfold inner
  split
  · split
    · exact fun s hs => h s (List.mem_cons_of_mem _ hs)
    · exact h
  · exact h

/-- A path begins with `json.` exactly if others follow the segment `json`. -/
lemma json_prefix_iff (h : Segments segments) :
    ("json." : Text) <+: Text.join "." segments ↔
      ∃ s rest, segments = ("json" : Text) :: s :: rest := by
  constructor
  · rintro ⟨p, hp⟩
    have hne : segments ≠ [] := by
      rintro rfl
      cases hp
    have hsplit : ("json" : Text) :: Text.split '.' p = segments := by
      rw [← h.split_join hne, ← hp]
      rfl
    cases hrest : Text.split '.' p with
    | nil => exact absurd hrest (Text.split_ne_nil _ _)
    | cons s rest => exact ⟨s, rest, by rw [← hsplit, hrest]⟩
  · rintro ⟨s, rest, rfl⟩
    exact ⟨Text.join "." (s :: rest), rfl⟩

/-- What is dropped from the path of a node is the segment that is left out. -/
lemma dropJson_join (h : Segments segments) :
    Reading.dropJson (Text.join "." segments) = Text.join "." (inner segments) := by
  by_cases hprefix : ("json." : Text) <+: Text.join "." segments
  · obtain ⟨s, rest, rfl⟩ := h.json_prefix_iff.1 hprefix
    have hinner : inner (("json" : Text) :: s :: rest) = s :: rest := by
      rw [inner, if_pos rfl]
    rw [hinner]
    exact Reading.dropJson_json
  · have hinner : inner segments = segments := by
      unfold inner
      split
      · split
        · next s s' rest hs =>
          subst hs
          exact absurd (h.json_prefix_iff.2 ⟨s', rest, rfl⟩) hprefix
        · rfl
      · rfl
    rw [hinner, Reading.dropJson, if_neg (mt List.isPrefixOf_iff_prefix.1 hprefix)]

/-- What is written with segments is read as the reference. -/
lemma reads_worded (h : Segments segments) {source : DataSource} (hsource : source ∈ Reading.worded)
    (henv : source ≠ .environment ∨ segments ≠ []) :
    Reads (Text.dotted source.label segments) (.reference source (Text.join "." segments)) := by
  rw [← h.reference_join]
  refine Reading.reads_worded hsource ?_
  by_cases hne : segments = []
  · subst hne
    exact .inl ⟨rfl, henv.resolve_right (absurd rfl)⟩
  · exact .inr (h.path hne)

lemma reads_node (h : Segments segments) {id : Text} (hid : id ≠ [])
    (hquote : CodeUnit.ofBasic '\'' ∉ id) :
    Reads (Text.dotted (DataSource.node id).label segments)
      (.reference (.node id) (Text.join "." (inner segments))) := by
  rw [← h.reference_join, Reading.reference_node, ← h.dropJson_join]
  refine Reading.reads_quoted (.inl rfl) hid hquote ?_
  by_cases hne : segments = []
  · subst hne
    rfl
  · rw [h.isEmpty_join hne, if_neg Bool.false_ne_true,
      (h.path hne).path, List.length_cons]
    congr 2
    omega

end Segments

/-- An outcome is the value, or is reported as missing data at the path. -/
inductive Outcome.Tells : Except EvalFault Value → Except Text Value → Prop where
  | value (v : Value) : Tells (.ok v) (.ok v)
  | missing {fault path available} :
    (∀ source, (fault.diagnostic source).category = .dataNotFound path available) →
    Tells (.error fault) (.error path)

namespace Context

/-- Evaluating the text in the context takes one operation and gives the answer, which is a value or
the path of missing data, whatever functions there are. -/
def Answers (c : Context) (text : Text) (answer : Except Text Value) : Prop :=
  ∃ e, Expr.parse text none = .ok e ∧
    ∀ s : Scope, s.context = c → effective s.maxOperations = none → ∀ t,
      ∃ outcome, (e.eval s).runFrom t = (outcome, { t with operations := t.operations + 1 }) ∧
        Outcome.Tells outcome answer

/-- The value, or the path at which there is none. -/
def found (path : Text) : Option Value → Except Text Value
  | some v => .ok v
  | none => .error path

/-- What the segments lead to below the value of a source; without a value it is the label of the
source that is missing. -/
def below (label : Text) (root : Option Value) (segments : List Text) : Except Text Value :=
  match root with
  | none => .error label
  | some v => found (Text.dotted label segments) (v.follow? segments)

/-- The text of a reference is answered as the reference is resolved. -/
lemma answers_of_reads {c : Context} {text source path}
    (h : Reads text (.reference source path)) :
    c.Answers text ((c.resolve source path).mapError Miss.path) := by
  refine ⟨_, Expr.parse_of_reads h, ?_⟩
  rintro s rfl hs t
  rw [Expr.eval, Eval.runFrom_bind, Scope.runFrom_count, hs]
  cases s.context.resolve source path with
  | ok v => exact ⟨_, rfl, .value v⟩
  | error miss => exact ⟨_, rfl, .missing fun source => EvalFault.category_diagnostic _ _⟩

section

variable {segments : List Text} (h : Segments segments)

include h

lemma descend_join (root : Value) (source : DataSource) (available : List Text) :
    (descend root source (Text.join "." segments) available).mapError Miss.path =
      below source.label (some root) segments := by
  rw [descend, h.navigate?_join, below]
  cases hfollow : root.follow? segments with
  | some v => rfl
  | none =>
    have hne : segments ≠ [] := by
      rintro rfl
      cases hfollow
    rw [← h.pathLabel_join hne]
    rfl

lemma lookUp_join (hne : segments ≠ []) (store : Table Value) (source : DataSource) :
    (lookUp store source (Text.join "." segments)).mapError Miss.path =
      found (Text.dotted source.label segments) (store.find? (Text.join "." segments)) := by
  rw [lookUp, h.isEmpty_join hne, if_neg Bool.false_ne_true,
    ← h.pathLabel_join hne]
  cases store.find? (Text.join "." segments) <;> rfl

variable (c : Context)

lemma resolve_input : (c.resolve .input (Text.join "." segments)).mapError Miss.path =
    below DataSource.input.label c.input segments := by
  rw [resolve]
  cases c.input with
  | none => rfl
  | some v => exact descend_join h v _ _

lemma resolve_node (id : Text) :
    (c.resolve (.node id) (Text.join "." segments)).mapError Miss.path =
      below (DataSource.node id).label (c.nodes.find? id) segments := by
  rw [resolve]
  cases c.nodes.find? id with
  | none => rfl
  | some v => exact descend_join h v _ _

lemma resolve_environment (hne : segments ≠ []) :
    (c.resolve .environment (Text.join "." segments)).mapError Miss.path =
      found (Text.dotted DataSource.environment.label segments)
        ((c.environment.find? (Text.join "." segments)).map .string) := by
  rw [resolve, ← h.pathLabel_join hne]
  cases c.environment.find? (Text.join "." segments) <;> rfl

end

/-- A reference that is written with segments is answered from what was set last. The input, the
system data and the output of a node are followed segment by segment; an entry of the execution, the
workflow or the environment is found under all segments as one key, and without segments the
execution and the workflow are answered with all entries. -/
theorem answers_built (t : Instant) (writes : List Write) {segments : List Text}
    (h : Segments segments) :
    let c := built t writes
    let key := Text.join "." segments
    c.Answers (Text.dotted "$input" segments)
        (below "$input" (writes.filterMap Write.input?).getLast? segments) ∧
      (∃ entries, Table.Records
          (("datetime", .object t.fields) :: writes.filterMap Write.system?) entries ∧
        c.Answers (Text.dotted "$system" segments)
          (below "$system" (some (.object entries)) segments)) ∧
      (∀ id : Text, id ≠ [] → CodeUnit.ofBasic '\'' ∉ id →
        c.Answers (Text.dotted ("$node('" ++ id ++ "')") segments)
          (below ("$node('" ++ id ++ "')") ((writes.filterMap Write.node?).reverse.lookup id)
            (Segments.inner segments))) ∧
      (segments ≠ [] →
        c.Answers (Text.dotted "$execution" segments)
            (found (Text.dotted "$execution" segments)
              ((writes.filterMap Write.execution?).reverse.lookup key)) ∧
          c.Answers (Text.dotted "$workflow" segments)
            (found (Text.dotted "$workflow" segments)
              ((writes.filterMap Write.workflow?).reverse.lookup key)) ∧
          c.Answers (Text.dotted "$env" segments)
            (found (Text.dotted "$env" segments)
              (((writes.filterMap Write.environment?).reverse.lookup key).map .string))) ∧
      (∃ entries, Table.Records (writes.filterMap Write.execution?) entries ∧
        c.Answers "$execution" (.ok (.object entries))) ∧
      ∃ entries, Table.Records (writes.filterMap Write.workflow?) entries ∧
        c.Answers "$workflow" (.ok (.object entries)) := by
  have worded {segments : List Text} (h : Segments segments) (source : DataSource)
      (hsource : source ∈ Reading.worded) (henv : source ≠ .environment ∨ segments ≠ []) :
      (built t writes).Answers (Text.dotted source.label segments)
        (((built t writes).resolve source (Text.join "." segments)).mapError Miss.path) :=
    answers_of_reads (h.reads_worded hsource henv)
  have hnone : Segments [] := List.forall_mem_nil _
  refine ⟨?_, ?_, fun id hid hquote => ?_, fun hne => ⟨?_, ?_, ?_⟩, ?_, ?_⟩
  · have hanswers := worded h .input (by decide) (.inl (by decide))
    rwa [resolve_input h, input_built] at hanswers
  · have hanswers := worded h .system (by decide) (.inl (by decide))
    rw [resolve, descend_join h] at hanswers
    exact ⟨_, system_built ▸ Table.records_ofEntries _, hanswers⟩
  · have hanswers := answers_of_reads (c := built t writes) (h.reads_node hid hquote)
    rwa [resolve_node h.inner_of, nodes_built, (Table.records_ofEntries _).latest] at hanswers
  · have hanswers := worded h .execution (by decide) (.inl (by decide))
    rwa [resolve, lookUp_join h hne, execution_built, (Table.records_ofEntries _).latest]
      at hanswers
  · have hanswers := worded h .workflow (by decide) (.inl (by decide))
    rwa [resolve, lookUp_join h hne, workflow_built, (Table.records_ofEntries _).latest]
      at hanswers
  · have hanswers := worded h .environment (by decide) (.inr hne)
    rwa [resolve_environment h _ hne, environment_built, (Table.records_ofEntries _).latest]
      at hanswers
  · exact ⟨_, execution_built ▸ Table.records_ofEntries _,
      worded hnone .execution (by decide) (.inl (by decide))⟩
  · exact ⟨_, workflow_built ▸ Table.records_ofEntries _,
      worded hnone .workflow (by decide) (.inl (by decide))⟩

theorem answers_built_overwritten :
    let writes : List Write :=
      [.input (.string "x"), .execution "s.0" (.bool false), .node "a" (.object [("s", .null)]),
        .input (.object [("s", .array [.bool true])])]
    let c := built ⟨0, by decide⟩ writes
    Segments ["s", "0"] ∧ c.Answers "$input.s.0" (.ok (.bool true)) ∧
      c.Answers "$node('a').s.0" (.error "$node('a').s.0") ∧
      c.Answers "$execution.s.0" (.ok (.bool false)) ∧
      c.Answers "$workflow.s.0" (.error "$workflow.s.0") := by
  intro writes c
  have h : Segments ["s", "0"] := List.forall_mem_cons.2 ⟨⟨by decide, Text.forall_mem (by decide)⟩,
    List.forall_mem_singleton.2 ⟨by decide, Text.forall_mem (by decide)⟩⟩
  obtain ⟨hinput, -, hnode, hkeys, -⟩ := answers_built ⟨0, by decide⟩ writes h
  obtain ⟨hexecution, hworkflow, -⟩ := hkeys (List.cons_ne_nil _ _)
  exact ⟨h, hinput, hnode "a" (by decide) (by decide), hexecution, hworkflow⟩

end Context

end Stencil
