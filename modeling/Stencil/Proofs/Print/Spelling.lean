import Stencil.Expr.Operator
import Stencil.Proofs.Token.Layout

/-!
# Spelling

How the words of an expression are written, each of which is read as the lexeme that it stands for.
A reference has many spellings, of which `DataSource.spelling` is one. Main statement:
`reads_spelling`.
-/

namespace Stencil

/-- A spelling of a reference. The path of a node is written in full, as `json.` is dropped from it
only once. -/
def DataSource.spelling : DataSource → Text → Text
  | .node id, path =>
    let quote : CodeUnit := if CodeUnit.ofBasic '\'' ∈ id then '"' else '\''
    "$node(" ++ quote :: (id ++ quote :: ')' :: if path.isEmpty then [] else ".json." ++ path)
  | source, path => source.reference path

lemma reads_mark (m : Mark) : Reads m.text (.mark m) := by
  cases m <;> exact ⟨_, _, rfl, rfl⟩

lemma reads_bar : Reads Sign.bar.text (.sign .bar) := ⟨_, _, rfl, rfl⟩

lemma BinaryOp.reads (op : BinaryOp) :
    ∃ l, Reads op.symbol l ∧ l.isFinal = false ∧ ofLexeme? l = some op := by
  cases op <;> exact ⟨_, ⟨_, _, rfl, rfl⟩, rfl, rfl⟩

lemma UnaryOp.reads (op : UnaryOp) :
    ∃ l, Reads op.symbol l ∧ l.isFinal = false ∧ ofLexeme? l = some op := by
  cases op <;> exact ⟨_, ⟨_, _, rfl, rfl⟩, rfl, rfl⟩

lemma reads_name {name : Text} (h : name.isName) : Reads name (.name name) := by
  cases name with
  | nil => cases h
  | cons u rest =>
    rw [Text.isName, Bool.and_eq_true, List.all_eq_true] at h
    refine ⟨u, rest, rfl, ?_⟩
    have hbegins : Reading.Begins u rest ⟨.name (u :: rest.takeWhile CodeUnit.isNamePart),
        (rest.takeWhile CodeUnit.isNamePart).length⟩ := .name h.1
    rw [List.takeWhile_eq_self_iff.2 h.2] at hbegins
    exact Reading.first_iff.2 hbegins

namespace Reading

/-- A path that can stand after the point that follows a source. -/
structure Path (p : Text) : Prop where
  units : ∀ v ∈ p, v.isNamePart || v == '.'
  legible : Legible p

lemma Path.ne_nil {p : Text} (h : Path p) : p ≠ [] := by
  rintro rfl
  exact h.legible [] (by decide) rfl

lemma Path.pathRun {p : Text} (h : Path p) :
    Reading.pathRun ('.' :: p) = ('.' : CodeUnit) :: p := by
  rw [Reading.pathRun, if_pos rfl, List.takeWhile_eq_self_iff.2 h.units]

/-- The path of a reference is empty or follows a point. -/
lemma path_cases {source width rest r} (h : path source width rest = .ok r) :
    ∃ p : Text, (pathRun rest = [] ∧ p = [] ∨ pathRun rest = ('.' : CodeUnit) :: p ∧ Path p) ∧
      r.lexeme = .reference (source p).1 (source p).2 := by
  obtain ⟨hlegible, rfl⟩ := path_iff.1 h
  refine ⟨_, ?_, rfl⟩
  cases rest with
  | nil => exact .inl ⟨rfl, rfl⟩
  | cons u rest =>
    rw [pathRun] at hlegible ⊢
    split
    · next hu =>
      rw [if_pos hu] at hlegible
      exact .inr ⟨by rw [hu]; rfl, fun _ => List.mem_takeWhile_imp,
        hlegible (List.cons_ne_nil _ _)⟩
    · exact .inl ⟨rfl, rfl⟩

lemma Path.path {p source width} (h : Path p) : Reading.path source width ('.' :: p) =
    .ok ⟨.reference (source p).1 (source p).2, width + p.length⟩ := by
  refine path_iff.2 ⟨fun _ => ?_, ?_⟩
  · rw [h.pathRun]; exact h.legible
  · rw [h.pathRun]; rfl

lemma legible_json {p : Text} : Legible ("json." ++ p) ↔ Legible p := by
  have hsplit : Text.split '.' ("json." ++ p) = ("json" : Text) :: Text.split '.' p := rfl
  rw [Legible, hsplit, List.forall_mem_cons]
  exact and_iff_right (by decide)

lemma Path.json {p} (h : Path p) : Path ("json." ++ p) :=
  ⟨List.forall_mem_append.2 ⟨Text.forall_mem (by decide), h.units⟩, legible_json.2 h.legible⟩

lemma dropJson_json {p : Text} : dropJson ("json." ++ p) = p := by
  have hprefix : ("json." : Text).isPrefixOf ("json." ++ p) :=
    List.isPrefixOf_iff_prefix.2 (List.prefix_append _ _)
  rw [dropJson, if_pos hprefix]
  rfl

lemma Path.dropJson {p} (h : Path p) : Path (dropJson p) := by
  rw [Reading.dropJson]
  split
  · next hprefix =>
    obtain ⟨p, rfl⟩ := List.isPrefixOf_iff_prefix.1 hprefix
    exact ⟨fun v hv => h.units v (List.mem_append_right _ hv), legible_json.1 h.legible⟩
  · exact h

/-- The lexemes of all other forms are no references. -/
lemma reference_of_reads {w source path} (h : Reads w (.reference source path)) :
    ∃ rest, w = ('$' : CodeUnit) :: rest ∧
      reference rest = .ok ⟨.reference source path, rest.length⟩ := by
  obtain ⟨u, v, rfl, hfirst⟩ := h
  cases first_iff.1 hfirst with
  | digit _ hnum =>
    obtain ⟨k, -, heq⟩ := number_iff.1 hnum
    cases heq
  | point _ hnum =>
    obtain ⟨k, -, heq⟩ := number_iff.1 hnum
    cases heq
  | quote _ hstring =>
    obtain ⟨w, a, value, -, -, heq⟩ := string_iff.1 hstring
    cases heq
  | dollar href => exact ⟨_, rfl, href⟩
  | symbol _ hsymbol =>
    obtain ⟨s, -, -, heq⟩ | ⟨s, -, -, heq⟩ | ⟨m, -, -, heq⟩ := symbol_cases hsymbol <;> cases heq

variable {source : DataSource} {path : Text}

lemma reads_worded (hsource : source ∈ worded)
    (hpath : path = [] ∧ source ≠ .environment ∨ Path path) :
    Reads (source.reference path) (.reference source path) := by
  have labels : ∀ source ∈ worded, source.label = ('$' : CodeUnit) :: word source := by decide
  have hlabel := labels source hsource
  obtain ⟨rfl, henv⟩ | hpath := hpath
  · refine ⟨_, _, hlabel, first_iff.2 (.dollar (reference_iff.2 (.inl ?_)))⟩
    exact ⟨source, hsource, [], (List.append_nil _).symm, nofun, fun h => absurd h henv, rfl⟩
  · have htext : source.reference path =
        ('$' : CodeUnit) :: (word source ++ ('.' : CodeUnit) :: path) := by
      rw [DataSource.reference, List.isEmpty_eq_false_iff.2 hpath.ne_nil, DataSource.pathLabel,
        hlabel, if_neg Bool.false_ne_true, List.append_assoc]
      rfl
    refine ⟨_, _, htext, first_iff.2 (.dollar (reference_iff.2 (.inl ?_)))⟩
    refine ⟨source, hsource, _, rfl, ?_, fun _ => ?_, ?_⟩
    · rintro _ ⟨⟩
      decide
    · rw [hpath.pathRun]
      exact List.cons_ne_nil _ _
    · rw [hpath.path, List.length_append, List.length_cons]
      congr 2
      omega

section Node

variable {id after : Text} {quote : CodeUnit}

/-- A node with what is read as its path. -/
lemma reads_quoted (hquote : quote = '\'' ∨ quote = '"') (hid : id ≠ []) (hmem : quote ∉ id)
    (h : Reading.path (fun p => (.node id, Reading.dropJson p)) (8 + id.length + 1) after =
      .ok ⟨.reference (.node id) path, 8 + id.length + after.length⟩) :
    Reads ("$node(" ++ quote :: (id ++ quote :: ')' :: after)) (.reference (.node id) path) := by
  refine ⟨'$', "node(" ++ quote :: (id ++ quote :: ')' :: after), rfl, ?_⟩
  rw [length_node]
  refine first_iff.2 (.dollar (reference_iff.2 (.inr ⟨_, rfl, ?_, ?_⟩)))
  · rintro _ ⟨⟩
    decide
  · exact node_iff.2 ⟨quote, id, after, hquote, hid, hmem, rfl, h⟩

lemma reads_node (hquote : quote = '\'' ∨ quote = '"') (hid : id ≠ []) (hmem : quote ∉ id)
    (hpath : path = [] ∨ Path path) :
    Reads ("$node(" ++ quote :: (id ++ quote :: ')' ::
      if path.isEmpty then [] else ".json." ++ path)) (.reference (.node id) path) := by
  obtain rfl | hpath := hpath
  · exact reads_quoted hquote hid hmem rfl
  · rw [List.isEmpty_eq_false_iff.2 hpath.ne_nil]
    refine reads_quoted hquote hid hmem (hpath.json.path.trans ?_)
    have hlength : (".json." ++ path).length = ("json." ++ path).length + 1 := rfl
    rw [dropJson_json]
    congr 2
    simp only [Bool.false_eq_true, if_false, hlength]
    omega

end Node

/-- What is read as a reference is the word of a source or a node with a legible path. -/
lemma cases_of_reads {w} (h : Reads w (.reference source path)) :
    source ∈ worded ∧ (path = [] ∧ source ≠ .environment ∨ Path path) ∨
      ∃ (quote : CodeUnit) (id : Text), source = .node id ∧ (quote = '\'' ∨ quote = '"') ∧
        id ≠ [] ∧ quote ∉ id ∧ (path = [] ∨ Path path) := by
  obtain ⟨rest, -, href⟩ := reference_of_reads h
  obtain ⟨source', hsource, after, -, -, henv, hafter⟩ | ⟨after, -, -, hnode⟩ :=
    reference_iff.1 href
  · obtain ⟨p, hp, heq⟩ := path_cases hafter
    cases heq
    exact .inl ⟨hsource, hp.imp (fun h => ⟨h.2, fun hs => henv hs h.1⟩) And.right⟩
  · obtain ⟨quote, id, after, hquote, hid, hmem, -, hafter⟩ := node_iff.1 hnode
    obtain ⟨p, hp, heq⟩ := path_cases hafter
    cases heq
    refine .inr ⟨quote, id, rfl, hquote, hid, hmem, ?_⟩
    obtain ⟨-, rfl⟩ | ⟨-, hp⟩ := hp
    · exact .inl rfl
    · exact .inr hp.dropJson

/-- The spelling of a reference is read as it. -/
theorem reads_spelling {w} (h : Reads w (.reference source path)) :
    Reads (source.spelling path) (.reference source path) := by
  obtain ⟨hsource, hpath⟩ | ⟨quote, id, rfl, hquote, hid, hmem, hpath⟩ := cases_of_reads h
  · have hspelling : source.spelling path = source.reference path := by
      cases source with
      | node id => exact absurd hsource (by simp [worded])
      | _ => rfl
    rw [hspelling]
    exact reads_worded hsource hpath
  · refine reads_node ?_ hid ?_ hpath
    · split
      · exact .inr rfl
      · exact .inl rfl
    · split
      · next hsingle =>
        obtain rfl | rfl := hquote
        · exact absurd hsingle hmem
        · exact hmem
      · assumption

end Reading

end Stencil
