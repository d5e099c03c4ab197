import Mathlib.Data.List.TakeWhile
import Stencil.Proofs.Token.Shape

/-!
# Reading references

A reference is the word of a source, or a node with its identifier in quotes, and a path. Main
statements: `Reading.reference_iff` and `Reading.node_iff` say what is read.
-/

namespace Stencil

namespace Reading

section Path

/-- A path in which a segment follows each point. -/
def Legible (path : Text) : Prop := ∀ segment ∈ Text.split '.' path, segment ≠ []

lemma bareDot?_eq_none {offset segments} :
    bareDot? offset segments = none ↔ ∀ segment ∈ segments, segment ≠ [] := by
  induction segments generalizing offset with
  | nil => simp [bareDot?]
  | cons segment rest ih =>
    rw [bareDot?]
    cases segment with
    | nil => simp
    | cons u segment => simp [ih]

/-- A path is read if it is legible, and only its run of points and segments matters. -/
lemma path_iff {source width rest r} :
    path source width rest = .ok r ↔
      (pathRun rest ≠ [] → Legible ((pathRun rest).drop 1)) ∧
      r = ⟨.reference (source ((pathRun rest).drop 1)).1 (source ((pathRun rest).drop 1)).2,
        width + (pathRun rest).length - 1⟩ := by
  unfold path
  generalize pathRun rest = run
  dsimp only
  cases run with
  | nil =>
    constructor
    · intro h
      cases h
      exact ⟨fun h => absurd rfl h, rfl⟩
    · rintro ⟨-, rfl⟩
      rfl
  | cons u run =>
    simp only [List.isEmpty_cons, Bool.false_eq_true, if_false, List.drop_one, List.tail_cons]
    cases hdot : bareDot? width (Text.split '.' run) with
    | none =>
      constructor
      · intro h
        cases h
        exact ⟨fun _ => bareDot?_eq_none.1 hdot, rfl⟩
      · rintro ⟨-, rfl⟩
        rfl
    | some dot =>
      refine ⟨nofun, fun h => ?_⟩
      rw [bareDot?_eq_none.2 (h.1 (List.cons_ne_nil _ _))] at hdot
      cases hdot

lemma pathRun_congr {w a b} (hab : Tame a b) (h : (pathRun (w ++ a)).length ≤ w.length) :
    pathRun (w ++ b) = pathRun (w ++ a) := by
  have joins : ∀ v : CodeUnit, (v.isNamePart || v == '.') → v.joins := by
    intro v hv
    simp only [CodeUnit.joins, hv, Bool.true_or]
  cases w with
  | cons u w =>
    simp only [List.cons_append, pathRun] at h ⊢
    split
    · next hu =>
      rw [if_pos hu] at h
      rw [takeWhile_congr (p := fun v => v.isNamePart || v == '.') joins hab
        (Nat.le_of_succ_le_succ h)]
    · rfl
  | nil =>
    have ha : pathRun a = [] := List.eq_nil_of_length_eq_zero (Nat.le_zero.1 h)
    rw [List.nil_append, List.nil_append, ha]
    cases b with
    | nil => rfl
    | cons v b =>
      refine if_neg fun hv => ?_
      have hhead := hab v rfl (by rw [hv]; decide)
      cases a with
      | nil => cases hhead
      | cons x a =>
        cases hhead
        rw [pathRun, if_pos hv] at ha
        cases ha

lemma pathRun_shape (t : Text) : ∃ a, t = pathRun t ++ a ∧ ∀ v ∈ pathRun t, v.isPlain := by
  cases t with
  | nil => exact ⟨[], rfl, List.forall_mem_nil _⟩
  | cons u rest =>
    rw [pathRun]
    split
    · next hu =>
      refine ⟨rest.dropWhile fun v => v.isNamePart || v == '.', ?_, ?_⟩
      · rw [List.cons_append, List.takeWhile_append_dropWhile]
      · refine List.forall_mem_cons.2 ⟨by rw [hu]; decide, fun v hv => ?_⟩
        have := List.mem_takeWhile_imp hv
        simp only [CodeUnit.isPlain, this, Bool.true_or]
    · exact ⟨_, rfl, List.forall_mem_nil _⟩

end Path

/-- The longer of two beginnings of a text continues the shorter one. -/
lemma append_split {p x w a : Text} (h : p ++ x = w ++ a) (hle : p.length ≤ w.length) :
    ∃ w', w = p ++ w' ∧ x = w' ++ a := by
  obtain ⟨w', rfl, hx⟩ | ⟨p', rfl, ha⟩ := List.append_eq_append_iff.1 h
  · exact ⟨w', rfl, hx⟩
  · rw [List.length_append] at hle
    obtain rfl : p' = [] := List.eq_nil_of_length_eq_zero (by omega)
    exact ⟨[], by simp, by simpa using ha.symm⟩

lemma takeWhile_exact {p : CodeUnit → Bool} {w a : Text} (hw : ∀ v ∈ w, p v)
    (ha : ∀ v ∈ a.head?, p v = false) : (w ++ a).takeWhile p = w := by
  rw [List.takeWhile_append_of_pos hw]
  cases a with
  | nil => rw [List.takeWhile_nil, List.append_nil]
  | cons v a => rw [List.takeWhile_cons, ha v rfl]; exact List.append_nil w

lemma takeWhile_split (p : CodeUnit → Bool) (t : Text) :
    ∃ a, t = t.takeWhile p ++ a ∧ t.drop (t.takeWhile p).length = a ∧
      ∀ v ∈ a.head?, p v = false := by
  refine ⟨t.dropWhile p, List.takeWhile_append_dropWhile.symm, drop_takeWhile, fun v hv => ?_⟩
  have := List.head?_dropWhile_not p t
  rw [Option.mem_def.1 hv] at this
  simpa using this

/-- The identifier of a node stands in quotes of either kind, which it does not contain. -/
lemma node_iff {rest r} :
    node rest = .ok r ↔ ∃ (quote : CodeUnit) (id after : Text), (quote = '\'' ∨ quote = '"') ∧
      id ≠ [] ∧ quote ∉ id ∧ rest = ('(' : CodeUnit) :: quote :: (id ++ quote :: ')' :: after) ∧
      path (fun p => (.node id, dropJson p)) (8 + id.length + 1) after = .ok r := by
  constructor
  · intro h
    unfold node at h
    match rest, h with
    | u :: quote :: rest, h =>
      dsimp only at h
      split at h
      · next hu =>
        subst hu
        split at h
        · next hquote =>
          obtain ⟨a, hrest, hdrop, ha⟩ := takeWhile_split (· != quote) rest
          rw [hdrop] at h
          match a, h with
          | q :: v :: after, h =>
            dsimp only at h
            split at h
            · next hid =>
              simp only [Bool.and_eq_true, Bool.not_eq_true', List.isEmpty_eq_false_iff,
                beq_iff_eq] at hid
              obtain ⟨hid, rfl⟩ := hid
              obtain rfl : q = quote := by simpa using ha q rfl
              refine ⟨q, _, after, hquote, hid, fun hmem => ?_, by rw [← hrest], h⟩
              simpa using List.mem_takeWhile_imp hmem
            · cases h
          | [q], h => cases h
          | [], h => cases h
        · cases h
      · cases h
    | [u], h =>
      dsimp only at h
      split at h <;> cases h
    | [], h => cases h
  · rintro ⟨quote, id, after, hquote, hid, hmem, rfl, h⟩
    have htake : (id ++ quote :: ')' :: after).takeWhile (· != quote) = id :=
      takeWhile_exact (fun v hv => bne_iff_ne.2 fun heq => hmem (heq ▸ hv)) (by simp)
    have hempty : id.isEmpty = false := List.isEmpty_eq_false_iff.2 hid
    unfold node
    simp only [if_true, if_pos hquote, htake, List.drop_left, hempty, Bool.not_false, Bool.true_and,
      beq_self_eq_true]
    exact h

/-- The sources that are named by a word alone. -/
def worded : List DataSource := [.input, .environment, .system, .execution, .workflow]

/-- The word of a source. -/
def word (source : DataSource) : Text := source.label.drop 1

lemma isNamePart_word : ∀ source ∈ worded, ∀ v ∈ word source, v.isNamePart := by
  have words : ∀ source ∈ worded, (word source).all CodeUnit.isNamePart := by decide
  exact fun source hsource => List.all_eq_true.1 (words source hsource)

/-- The words of sources differ from that of nodes at once. -/
lemma word_head :
    ∀ source ∈ worded, ∃ (v : CodeUnit) (w : Text), word source = v :: w ∧ v ≠ 'n' := by
  simp only [worded, List.forall_mem_cons]
  refine ⟨?_, ?_, ?_, ?_, ?_, nofun⟩ <;> exact ⟨_, _, rfl, by decide⟩

/-- A reference is the word of a source and a path, or a node. -/
lemma reference_iff {rest r} :
    reference rest = .ok r ↔
      (∃ source ∈ worded, ∃ after, rest = word source ++ after ∧
        (∀ v ∈ after.head?, v.isNamePart = false) ∧
        (source = .environment → pathRun after ≠ []) ∧
        path (fun p => (source, p)) ((word source).length + 1) after = .ok r) ∨
      ∃ after, rest = "node" ++ after ∧ (∀ v ∈ after.head?, v.isNamePart = false) ∧
        node after = .ok r := by
  constructor
  · intro h
    obtain ⟨after, hrest, hdrop, hafter⟩ := takeWhile_split CodeUnit.isNamePart rest
    unfold reference at h
    dsimp only at h
    rw [hdrop] at h
    generalize rest.takeWhile CodeUnit.isNamePart = name at h hrest
    subst hrest
    split at h
    · next hname => subst hname; exact .inl ⟨.input, by decide, after, rfl, hafter, nofun, h⟩
    · split at h
      · next hname => subst hname; exact .inr ⟨after, rfl, hafter, h⟩
      · split at h
        · next hname =>
          subst hname
          split at h
          · cases h
          · next hrun =>
            exact .inl ⟨.environment, by decide, after, rfl, hafter, fun _ => hrun, h⟩
        · split at h
          · next hname => subst hname; exact .inl ⟨.system, by decide, after, rfl, hafter, nofun, h⟩
          · split at h
            · next hname =>
              subst hname; exact .inl ⟨.execution, by decide, after, rfl, hafter, nofun, h⟩
            · split at h
              · next hname =>
                subst hname; exact .inl ⟨.workflow, by decide, after, rfl, hafter, nofun, h⟩
              · cases h
  · rintro (⟨source, hsource, after, rfl, hafter, henv, h⟩ | ⟨after, rfl, hafter, h⟩)
    · unfold reference
      rw [takeWhile_exact (isNamePart_word source hsource) hafter]
      dsimp only
      rw [List.drop_left]
      simp only [worded, List.mem_cons, List.not_mem_nil, or_false] at hsource
      obtain rfl | rfl | rfl | rfl | rfl := hsource
      · exact h
      · rw [if_neg (by decide), if_neg (by decide), if_pos (by rfl)]
        split
        · next hrun => exact absurd hrun (henv rfl)
        · exact h
      · exact h
      · exact h
      · exact h
    · have hword : ∀ v ∈ ("node" : Text), v.isNamePart := Text.forall_mem (by decide)
      unfold reference
      rw [takeWhile_exact hword hafter]
      dsimp only
      rw [List.drop_left]
      exact h

lemma length_node {quote : CodeUnit} {id after : Text} :
    ("node(" ++ quote :: (id ++ quote :: ')' :: after) : Text).length =
      8 + id.length + after.length := by
  have hopen : ("node(" : Text).length = 5 := rfl
  simp only [List.length_append, List.length_cons, hopen]
  omega

lemma node_append (t : Text) : ("node" ++ ('(' : CodeUnit) :: t : Text) = "node(" ++ t := rfl

lemma path_congr {source width run a b} (hab : Tame a b) (hrun : pathRun (run ++ a) = run) :
    path source width (run ++ b) = path source width (run ++ a) := by
  unfold path
  rw [pathRun_congr hab (by rw [hrun])]

/-- A path that ends with `w` is what `w` has after the source. -/
lemma path_split {source p after w a r} (h : path source (p.length + 1) after = .ok r)
    (hw : p ++ after = w ++ a) (hr : r.more = w.length) :
    ∃ run, w = p ++ run ∧ after = run ++ a ∧ pathRun (run ++ a) = run := by
  obtain ⟨-, rfl⟩ := path_iff.1 h
  dsimp only at hr
  obtain ⟨run, rfl, rfl⟩ := append_split hw (by omega)
  refine ⟨run, rfl, rfl, ?_⟩
  obtain ⟨c, hc, -⟩ := pathRun_shape (run ++ a)
  rw [List.length_append] at hr
  exact (List.append_inj hc (by omega)).1.symm

lemma head_congr {run a b} (hab : Tame a b)
    (h : ∀ v ∈ (run ++ a : Text).head?, v.isNamePart = false) :
    ∀ v ∈ (run ++ b : Text).head?, v.isNamePart = false := by
  cases run with
  | cons u run => exact h
  | nil =>
    intro v hv
    cases hname : v.isNamePart with
    | false => rfl
    | true => rw [← hname]; exact h v (hab v hv (CodeUnit.joins_of_isNamePart hname))

lemma reference_congr {w a b r} (hab : Tame a b) (h : reference (w ++ a) = .ok r)
    (hr : r.more = w.length) : reference (w ++ b) = .ok r := by
  obtain ⟨source, hsource, after, hrest, hafter, henv, hpath⟩ | ⟨after, hrest, hafter, hnode⟩ :=
    reference_iff.1 h
  · obtain ⟨run, rfl, rfl, hrun⟩ := path_split hpath hrest.symm hr
    refine reference_iff.2 (.inl ⟨source, hsource, run ++ b, List.append_assoc .., ?_, ?_, ?_⟩)
    · exact head_congr hab hafter
    · rwa [pathRun_congr hab (by rw [hrun])]
    · rwa [path_congr hab hrun]
  · obtain ⟨quote, id, after, hquote, hid, hmem, rfl, hpath⟩ := node_iff.1 hnode
    rw [node_append] at hrest
    -- only the path after the closing parenthesis depends on what follows
    have hlen : ("node(" ++ quote :: (id ++ [quote, ')']) : Text).length = 8 + id.length :=
      length_node
    obtain ⟨run, rfl, rfl, hrun⟩ := path_split (p := "node(" ++ quote :: (id ++ [quote, ')']))
      (hlen ▸ hpath) (by rw [hrest]; simp) hr
    refine reference_iff.2 (.inr ⟨('(' : CodeUnit) :: quote :: (id ++ quote :: ')' :: (run ++ b)),
      ?_, hafter, node_iff.2 ⟨quote, id, run ++ b, hquote, hid, hmem, rfl, ?_⟩⟩)
    · rw [node_append]; simp
    · rwa [path_congr hab hrun]

lemma reference_shape {rest r} (h : reference rest = .ok r) :
    ∃ w a, rest = w ++ a ∧ r.more = w.length ∧ Shape ('$' :: w) := by
  obtain ⟨source, hsource, after, rfl, -, -, hpath⟩ | ⟨after, rfl, -, hnode⟩ := reference_iff.1 h
  · obtain ⟨-, rfl⟩ := path_iff.1 hpath
    obtain ⟨a, ha, hplain⟩ := pathRun_shape after
    refine ⟨word source ++ pathRun after, a, ?_, ?_, ?_⟩
    · rw [List.append_assoc, ← ha]
    · rw [List.length_append]; dsimp only; omega
    · have hplain : ∀ v ∈ word source ++ pathRun after, v.isPlain := List.forall_mem_append.2
        ⟨fun v hv => CodeUnit.isPlain_of_isNamePart (isNamePart_word source hsource v hv), hplain⟩
      obtain ⟨v, w, hword, hv⟩ := word_head source hsource
      rw [hword] at hplain ⊢
      exact .dollar hv hplain
  · obtain ⟨quote, id, after, hquote, -, hmem, rfl, hpath⟩ := node_iff.1 hnode
    obtain ⟨-, rfl⟩ := path_iff.1 hpath
    obtain ⟨a, ha, hplain⟩ := pathRun_shape after
    refine ⟨"node(" ++ quote :: (id ++ quote :: ')' :: pathRun after), a, ?_, ?_,
      .node hquote hmem hplain⟩
    · rw [node_append]
      simpa using ha
    · rw [length_node]
      dsimp only
      omega

end Reading

end Stencil
