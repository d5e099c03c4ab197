import Stencil.Proofs.Source.Place
import Stencil.Proofs.Token.Unit
import Stencil.Source.Snippet

/-!
# Rows of snippets

A snippet has two rows: a line of its source, and carets under that line with a label after them. Main
statement: `Snippet.build_rows`. The line of an offset that is not on a break is the one around it, and
the carets begin under the offset.
-/

namespace Stencil

namespace Text

/-- A line of a source: it begins where the source does or a break ends, holds no break, and ends where
a break begins or the source does. -/
structure IsLine (source : Text) (start : Nat) (line : Text) : Prop where
  unbroken : line.Unbroken
  begins : start = 0 ∨ source.breaksAt start
  runs : line <+: source.drop start
  ends : ∀ u ∈ source[start + line.length]?, u = '\n' ∨ u = '\r'

lemma Unbroken.append {s t : Text} (hs : Unbroken s) (ht : Unbroken t) : Unbroken (s ++ t) :=
  List.forall_mem_append.2 ⟨hs, ht⟩

lemma Unbroken.replicate {u : CodeUnit} (hu : u ≠ '\n' ∧ u ≠ '\r') (n : Nat) :
    Unbroken (List.replicate n u) := by
  intro v hv
  rw [List.eq_of_mem_replicate hv]
  exact hu

/-- A line lies inside its source. -/
lemma IsLine.stop_le {source line : Text} {start : Nat} (h : source.IsLine start line) :
    start + line.length ≤ source.length := by
  have hstart : start ≤ source.length := by
    obtain rfl | hbreak := h.begins
    · exact Nat.zero_le _
    · by_contra hlt
      obtain ⟨n, rfl⟩ := Nat.exists_eq_add_of_lt (Nat.not_le.1 hlt)
      rw [breaksAt, List.getElem?_eq_none (Nat.le_add_right _ _)] at hbreak
      cases hbreak
  have hle := h.runs.length_le
  rw [List.length_drop] at hle
  omega

/-! ## Lines of two rows -/

lemma lines_cons {u : CodeUnit} (hu : u ≠ '\n' ∧ u ≠ '\r') (t : Text) :
    lines (u :: t) = t.lines.modifyHead fun x => (u :: x.1, x.2) := by
  have hbreak : ¬ (u = '\n' ∨ u = '\r') := not_or.2 hu
  cases t with
  | nil => exact if_neg hbreak
  | cons v rest =>
    have hpair : ¬ (u = '\r' ∧ v = '\n') := fun h => hu.2 h.1
    rw [lines, if_neg hpair, if_neg hbreak]
    have hne := (lined_lines (v :: rest)).ne_nil
    cases hlines : lines (v :: rest) with
    | nil => exact absurd hlines hne
    | cons => rfl

/-- Units without a break join the first line of what follows them. -/
lemma Unbroken.lines_append {s : Text} (hs : Unbroken s) (t : Text) :
    lines (s ++ t) = t.lines.modifyHead fun x => (s ++ x.1, x.2) := by
  induction s with
  | nil => exact (congrFun List.modifyHead_id t.lines).symm
  | cons u s ih =>
    obtain ⟨hu, hs⟩ := List.forall_mem_cons.1 hs
    rw [List.cons_append, lines_cons hu, ih hs, List.modifyHead_modifyHead]
    rfl

lemma Unbroken.lines_eq {s : Text} (hs : Unbroken s) : s.lines = [(s, 0)] := by
  have h := hs.lines_append []
  rw [List.append_nil] at h
  rw [h, lines, List.modifyHead_cons, List.append_nil]

lemma IsBreak.lines_append {brk rest : Text} (h : IsBreak rest brk) :
    lines (brk ++ rest) = ([], brk.length) :: rest.lines := by
  cases h with
  | pair =>
    change lines ('\r' :: '\n' :: rest) = _
    rw [lines, if_pos ⟨rfl, rfl⟩]
    rfl
  | feed =>
    cases rest with
    | nil => rfl
    | cons v rest =>
      have hpair : ¬ (('\n' : CodeUnit) = '\r' ∧ v = '\n') := fun h => absurd h.1 (by decide)
      change lines ('\n' :: v :: rest) = _
      rw [lines, if_neg hpair, if_pos (.inl rfl)]
      rfl
  | carriage hhead =>
    cases rest with
    | nil => rfl
    | cons v rest =>
      have hpair : ¬ (('\r' : CodeUnit) = '\r' ∧ v = '\n') := fun h => hhead (congrArg some h.2)
      change lines ('\r' :: v :: rest) = _
      rw [lines, if_neg hpair, if_pos (.inr rfl)]
      rfl

/-- A line and the break that ends it come first. -/
lemma Unbroken.lines_break {line brk rest : Text} (hline : Unbroken line) (hbrk : IsBreak rest brk) :
    lines (line ++ (brk ++ rest)) = (line, brk.length) :: rest.lines := by
  rw [hline.lines_append, hbrk.lines_append, List.modifyHead_cons, List.append_nil]

/-- Two rows with a line feed between them are the lines of their text. -/
lemma lines_rows {row under : Text} (hrow : Unbroken row) (hunder : Unbroken under) :
    lines (row ++ "\n" ++ under) = [(row, 1), (under, 0)] := by
  have hbreak : lines (row ++ ("\n" ++ under)) = (row, 1) :: under.lines := hrow.lines_break .feed
  rw [List.append_assoc, hbreak, hunder.lines_eq]

/-! ## How many lines -/

/-- A text has no break exactly if it has one line. -/
lemma unbroken_iff {t : Text} : t.Unbroken ↔ t.lines.length = 1 := by
  refine ⟨fun h => congrArg List.length h.lines_eq, fun hone => ?_⟩
  have hlined := t.lined_lines
  generalize t.lines = lines at hone hlined
  cases hlined with
  | last hline => exact hline
  | cons _ _ hrest => exact absurd (List.eq_nil_of_length_eq_zero (Nat.succ.inj hone)) hrest.ne_nil

lemma IsBreak.append {brk rest t : Text} (h : IsBreak rest brk) (ht : Unbroken t) :
    IsBreak (rest ++ t) brk := by
  cases h with
  | pair => exact .pair
  | feed => exact .feed
  | carriage hhead =>
    refine .carriage fun hfeed => ?_
    cases rest with
    | nil => exact (ht _ (List.mem_of_mem_head? hfeed)).1 rfl
    | cons => exact hhead hfeed

/-- Units without a break before a text or after it do not add lines to it. -/
lemma length_lines_between {s t : Text} (hs : Unbroken s) (ht : Unbroken t) (q : Text) :
    (lines (s ++ (q ++ t))).length = q.lines.length := by
  rw [hs.lines_append, List.length_modifyHead]
  have hlined := q.lined_lines
  generalize q.lines = ls at hlined
  induction hlined with
  | last hline => rw [(hline.append ht).lines_eq]; rfl
  | cons hline hbrk _ ih =>
    rw [List.append_assoc, List.append_assoc, hline.lines_break (hbrk.append ht), List.length_cons, ih,
      List.length_cons]

/-- A line that is followed by the end of the source or by a break ends there. -/
lemma ends_of_isBreak {line brk rest : Text} (hbrk : IsBreak rest brk) :
    ∀ u ∈ (line ++ (brk ++ rest))[line.length]?, u = '\n' ∨ u = '\r' := by
  intro u hu
  rw [List.getElem?_append_right (Nat.le_refl _), Nat.sub_self] at hu
  cases hbrk with
  | pair => cases hu; exact .inr rfl
  | feed => cases hu; exact .inl rfl
  | carriage => cases hu; exact .inr rfl

end Text

namespace Line

/-- The line that is found for an offset is one of the source, and does not end before the offset. -/
lemma isLine_seek {t : Text} {lines : List (Text × Nat)} (h : Text.Lined t lines) (before : Text)
    (hbefore : before.length = 0 ∨ (before ++ t).breaksAt before.length) {offset : Nat}
    (hoffset : offset ≤ (before ++ t).length) (number : Nat) :
    let line := seek offset number before.length lines
    (before ++ t).IsLine line.start line.text ∧ offset ≤ line.start + line.text.length := by
  induction h generalizing before number with
  | @last line hline =>
    rw [List.length_append] at hoffset
    dsimp only [seek]
    refine ⟨⟨hline, hbefore, ?_, ?_⟩, hoffset⟩
    · exact ⟨[], by rw [List.append_nil, List.drop_left]⟩
    · intro u hu
      rw [← List.length_append, List.getElem?_eq_none (Nat.le_refl _)] at hu
      cases hu
  | @cons line brk rest lines hline hbrk hlines ih =>
    rw [seek_cons hlines.ne_nil]
    split
    · next hle =>
      refine ⟨⟨hline, hbefore, ?_, ?_⟩, hle⟩
      · rw [List.drop_left]
        exact List.prefix_append _ _
      · rw [List.getElem?_append_right (Nat.le_add_right _ _), Nat.add_sub_cancel_left]
        exact Text.ends_of_isBreak hbrk
    · have hsource : before ++ (line ++ (brk ++ rest)) = before ++ line ++ brk ++ rest := by
        simp only [List.append_assoc]
      have hlength : before.length + line.length + brk.length = (before ++ line ++ brk).length := by
        simp only [List.length_append]
      rw [hsource] at hoffset ⊢
      rw [hlength]
      apply ih _ (.inr _) hoffset
      have hpos : 0 < brk.length := by cases hbrk <;> exact Nat.succ_pos _
      obtain ⟨n, hn⟩ := Nat.exists_eq_add_of_lt (Nat.add_pos_right line.length hpos)
      rw [Nat.zero_add] at hn
      have hend := (hline.breaks_after (brk ++ rest) brk.length).1.trans hbrk.breaks_end.1
      have hafter := (Text.breaks_append before (line ++ (brk ++ rest)) n).1
      rw [← hn, hend, hsource, ← Nat.add_assoc, hlength] at hafter
      exact hafter

lemma unbroken_seek {t : Text} {lines : List (Text × Nat)} (h : Text.Lined t lines)
    (offset number start : Nat) : (seek offset number start lines).text.Unbroken := by
  induction h generalizing number start with
  | last hline => exact hline
  | cons hline _ hlines ih =>
    rw [seek_cons hlines.ne_nil]
    split
    · exact hline
    · exact ih _ _

end Line

namespace Quantity

lemma max_whole (m n : Int) : (whole m).max (whole n) = whole (Max.max m n) := by
  change (if decide (m < n) = true then whole n else whole m) = _
  split
  · next h => rw [Int.max_eq_right (Int.le_of_lt (of_decide_eq_true h))]
  · next h => rw [Int.max_eq_left (Int.not_lt.1 fun hlt => h (decide_eq_true hlt))]

lemma min_whole (m n : Int) : (whole m).min (whole n) = whole (Min.min m n) := by
  change (if decide (n < m) = true then whole n else whole m) = _
  split
  · next h => rw [Int.min_eq_right (Int.le_of_lt (of_decide_eq_true h))]
  · next h => rw [Int.min_eq_left (Int.not_lt.1 fun hlt => h (decide_eq_true hlt))]

lemma toInt?_whole_max {q : Quantity} {i : Int} (hq : q.toInt? = some i) (n : Int) :
    ((whole n).max q).toInt? = some (Max.max n i) := by
  have hn : (whole n).isNaN = false := rfl
  rw [max, isNaN_of_toInt? hq, hn, if_neg Bool.false_ne_true, if_neg Bool.false_ne_true,
    (lt_whole hq n).2]
  split
  · next h => rw [hq, Int.max_eq_right (Int.le_of_lt (of_decide_eq_true h))]
  · next h =>
    rw [Int.max_eq_left (Int.not_lt.1 fun hlt => h (decide_eq_true hlt))]
    rfl

/-- An integer is repeated as often as it says. -/
lemma times_eq {q : Quantity} {i : Int} (hq : q.toInt? = some i) : q.times = i.toNat := by
  rw [times, truncate?_eq hq, Option.getD_some]

end Quantity

namespace Place

variable (source : Text) {index : Quantity} {i : Int}

/-- The place of an integer index is that of the nearest offset of a unit. -/
lemma line_ofIndex (h : index.toInt? = some i) :
    (ofIndex source index).line = Line.ofOffset source (min i.toNat (source.length - 1)) := by
  change Line.ofOffset source (clamp source index).ceiling = _
  rw [Quantity.ceiling_eq (toInt?_clamp h)]

/-- The line of an integer index is one of the source, and does not end before the nearest offset. -/
lemma isLine_ofIndex (h : index.toInt? = some i) :
    let line := (ofIndex source index).line
    source.IsLine line.start line.text ∧
      min i.toNat (source.length - 1) ≤ line.start + line.text.length := by
  rw [line_ofIndex source h]
  exact Line.isLine_seek source.lined_lines [] (.inl rfl)
    ((Nat.min_le_right _ _).trans (Nat.sub_le _ _)) 1

/-- An offset that is not on a break is in its line, unless the source is empty. -/
lemma within_ofIndex (h : index.toInt? = some i)
    (hunit : ∀ u ∈ source[min i.toNat (source.length - 1)]?, u ≠ '\n' ∧ u ≠ '\r') :
    let line := (ofIndex source index).line
    line.start ≤ min i.toNat (source.length - 1) ∧
      (min i.toNat (source.length - 1) < line.start + line.text.length ∨ source = []) := by
  obtain ⟨hline, hle⟩ := isLine_ofIndex source h
  rw [line_ofIndex source h] at *
  have hlast : min i.toNat (source.length - 1) ≤ source.length - 1 := Nat.min_le_right _ _
  generalize min i.toNat (source.length - 1) = offset at *
  refine ⟨?_, ?_⟩
  · have hfound := Line.found_seek source.lined_lines offset 1 0
    rw [Nat.zero_add] at hfound
    have hwhole : source.splitsBreak offset = false := by
      cases offset with
      | zero => rfl
      | succ k =>
        rw [Text.splitsBreak, Bool.and_eq_false_iff]
        right
        rw [beq_eq_false_iff_ne]
        intro hfeed
        exact (hunit _ hfeed).1 rfl
    have hstart := (hfound.whole hwhole).2
    rw [Nat.zero_add] at hstart
    change (Line.seek offset 1 0 source.lines).start ≤ offset
    rw [hstart]
    exact source.getLastD_breakEnds_le offset
  · rcases source.eq_nil_or_concat with hnil | ⟨_, _, hsource⟩
    · exact .inr hnil
    · have hlt : offset < source.length := by
        have hpos : 0 < source.length := by rw [hsource, List.length_concat]; exact Nat.succ_pos _
        omega
      refine .inl (Nat.lt_of_le_of_ne hle fun heq => ?_)
      have hget := List.getElem?_eq_getElem hlt
      obtain ⟨hfeed, hcarriage⟩ := hunit _ hget
      exact (hline.ends _ (heq ▸ hget)).elim hfeed hcarriage

/-- The column counts from the start of the line. -/
lemma column_ofIndex {source : Text} (hsize : source.length ≤ exactLimit) (h : index.toInt? = some i) :
    (ofIndex source index).column =
      .whole ((min i.toNat (source.length - 1) : Nat) - (ofIndex source index).line.start + 1) := by
  have hstop := (isLine_ofIndex source h).1.stop_le
  have hoffset : min i.toNat (source.length - 1) ≤ source.length - 1 := Nat.min_le_right _ _
  have hlimit : 1 ≤ exactLimit := by decide
  have hindex : (clamp source index).toInt? = some _ := toInt?_clamp h
  have hsub := Quantity.sub_whole (n := (ofIndex source index).line.start) hindex (by omega) (by omega)
  exact Quantity.add_one hsub (by omega)

end Place

namespace Snippet

/-- The row under a line: a margin, carets, and the label unless it is blank. -/
def underline (margin marks : Nat) (label : Text) : Text :=
  let blanks : Text := List.replicate margin ' '
  let carets : Text := List.replicate marks '^'
  let note : Text := if label.trim.isEmpty then [] else " --- " ++ label
  blanks ++ carets ++ note

lemma unbroken_underline {label : Text} (h : label.Unbroken) (margin marks : Nat) :
    (underline margin marks label).Unbroken := by
  have hdash : Text.Unbroken " --- " := Text.forall_mem (by decide)
  have hblank := Text.Unbroken.replicate (u := ' ') (by decide) margin
  have hcaret := Text.Unbroken.replicate (u := '^') (by decide) marks
  apply (hblank.append hcaret).append
  split
  · exact .nil
  · exact hdash.append h

/-- A snippet is a line of its source and the row under it. -/
lemma text_eq (source label : Text) (index length : Quantity) :
    let place := Place.ofIndex source index
    (build source index length label).text = place.line.text ++ "\n" ++
      underline ((caretColumn place).sub (.whole 1)).times (carets place length).times label := by
  simp only [build, underline, List.append_assoc]

/-- A snippet has a line for its source and those of its label, unless that is blank. -/
lemma length_lines_build (source : Text) (index length : Quantity) {label : Text}
    (hlabel : label.trim.isEmpty = false) :
    (build source index length label).text.lines.length = label.lines.length + 1 := by
  have hrow : (Place.ofIndex source index).line.text.Unbroken :=
    Line.unbroken_seek source.lined_lines _ _ _
  have hdash : Text.Unbroken " --- " := Text.forall_mem (by decide)
  have hblank (n : Nat) := Text.Unbroken.replicate (u := ' ') (by decide) n
  have hcaret (n : Nat) := Text.Unbroken.replicate (u := '^') (by decide) n
  have hunder (m n : Nat) : (underline m n label).lines.length = label.lines.length := by
    rw [underline, hlabel, if_neg Bool.false_ne_true]
    have h := Text.length_lines_between (((hblank m).append (hcaret n)).append hdash) .nil label
    rw [List.append_nil] at h
    rw [← List.append_assoc, h]
  have hbreak (under : Text) :
      Text.lines (_ ++ ("\n" ++ under)) = (_, 1) :: under.lines := hrow.lines_break .feed
  rw [text_eq, List.append_assoc, hbreak, List.length_cons, hunder]

/-- How many carets there are under a line of the exact range, from a column of it on. -/
lemma times_carets {place : Place} {length : Quantity} {c n : Int}
    (hsize : place.line.text.length ≤ exactLimit) (hlength : length.toInt? = some n)
    (hcolumn : caretColumn place = .whole c) (hc : 1 ≤ c) (hle : c ≤ max place.line.text.length 1) :
    (carets place length).times = (max 1 (min n (place.line.text.length - c + 1))).toNat := by
  have hlimit : 1 ≤ exactLimit := by decide
  have hleft : ((place.line.text.length : Quantity).sub (.whole c)).add (.whole 1) =
      .whole (place.line.text.length - c + 1) := by
    change (Quantity.ofInt (place.line.text.length - c)).add (.whole 1) = _
    rw [Quantity.ofInt_of_le (by omega)]
    exact Quantity.ofInt_of_le (by omega)
  rw [carets, hcolumn, hleft]
  exact Quantity.times_eq (Quantity.toInt?_whole_max (Quantity.toInt?_min hlength _) 1)

/-- The rows of a snippet. The first caret is at the column of the place, moved into the line. -/
lemma text_build {source : Text} (label : Text) {index length : Quantity} {place : Place} {k n : Int}
    (hplace : Place.ofIndex source index = place) (hsize : place.line.text.length ≤ exactLimit)
    (hcolumn : place.column = .whole k) (hlength : length.toInt? = some n) :
    ∃ margin marks : Nat,
      (build source index length label).text =
        place.line.text ++ "\n" ++ underline margin marks label ∧
      (margin : Int) + 1 = min (max k 1) (max place.line.text.length 1) ∧
      (marks : Int) = max 1 (min n (place.line.text.length - margin)) := by
  have hlimit : 1 ≤ exactLimit := by decide
  obtain ⟨c, hc⟩ : ∃ c, min (max k 1) (max (place.line.text.length : Int) 1) = c := ⟨_, rfl⟩
  have hcaret : caretColumn place = .whole c := by
    rw [caretColumn, hcolumn, Quantity.max_whole, Quantity.max_whole, Quantity.min_whole, hc]
  have hmargin : ((caretColumn place).sub (.whole 1)).times = (c - 1).toNat := by
    rw [hcaret]
    exact Quantity.times_eq (congrArg Quantity.toInt? (Quantity.ofInt_of_le (by omega)))
  refine ⟨(c - 1).toNat, (max 1 (min n (place.line.text.length - c + 1))).toNat, ?_, ?_, ?_⟩
  · rw [text_eq, hplace, hmargin, times_carets hsize hlength hcaret (by omega) (by omega)]
  · omega
  · omega

/-- A snippet of an integer index and length has two rows. The first is a line of the source; the second
is blank up to carets, of which there is at least one and which do not pass the line, and ends with the
label. If the offset, moved into the source, is not on a break, then the line is the one around it, the
first caret is at its column, and there are as many carets as the length says, but no more than units
left on the line and at least one. -/
theorem build_rows {source label : Text} {index length : Quantity} {i n : Int}
    (hsize : source.length ≤ exactLimit) (hindex : index.toInt? = some i)
    (hlength : length.toInt? = some n) (hlabel : label.Unbroken) :
    let snippet := build source index length label
    let offset := min i.toNat (source.length - 1)
    ∃ (start : Nat) (row : Text) (margin marks : Nat),
      snippet.text = row ++ "\n" ++ underline margin marks label ∧
      snippet.text.lines = [(row, 1), (underline margin marks label, 0)] ∧
      source.IsLine start row ∧ 1 ≤ marks ∧ margin + marks ≤ max row.length 1 ∧
      ((∀ u ∈ source[offset]?, u ≠ '\n' ∧ u ≠ '\r') →
        start ≤ offset ∧ (offset < start + row.length ∨ source = []) ∧
        snippet.place.column = (margin + 1 : Nat) ∧
        (marks : Int) = max 1 (min n (start + row.length - offset))) := by
  intro snippet offset
  obtain ⟨hline, -⟩ := Place.isLine_ofIndex source hindex
  have hwithin := Place.within_ofIndex source hindex
  have hcolumn := Place.column_ofIndex hsize hindex
  have hstop := hline.stop_le
  obtain ⟨margin, marks, htext, hmargin, hmarks⟩ :=
    text_build label rfl (by omega) hcolumn hlength
  have hrows := Text.lines_rows hline.unbroken (unbroken_underline hlabel margin marks)
  refine ⟨_, _, margin, marks, htext, htext ▸ hrows, hline, by omega, by omega, ?_⟩
  intro hunit
  obtain ⟨hstart, hreach⟩ := hwithin hunit
  have hsome := hreach.imp_right (congrArg List.length)
  rw [List.length_nil] at hsome
  have hcaret : (margin : Int) = (offset : Int) - (Place.ofIndex source index).line.start := by
    clear hmarks
    omega
  have hleft (start width : Int) : width - (offset - start) = start + width - offset := by omega
  refine ⟨hstart, hreach, hcolumn.trans (congrArg Quantity.whole ?_), ?_⟩
  · rw [← hcaret]
    rfl
  · rw [hmarks, hcaret, hleft]

theorem build_rows_last :
    let source : Text := "ab\r\ncd"
    let index : Quantity := (5 : Nat)
    let snippet := build source index (.whole 9) "here"
    source.length ≤ exactLimit ∧ index.toInt? = some 5 ∧ (Quantity.whole 9).toInt? = some 9 ∧
    Text.Unbroken "here" ∧ snippet.text = "cd\n ^ --- here" ∧
    ∃ (start : Nat) (row : Text) (margin marks : Nat),
      snippet.text.lines = [(row, 1), (underline margin marks "here", 0)] ∧
      source.IsLine start row ∧ start ≤ 5 ∧ 5 < start + row.length ∧
      snippet.place.column = (margin + 1 : Nat) ∧
      (marks : Int) = max 1 (min 9 ((start : Int) + row.length - 5)) := by
  intro source index snippet
  have hsize : source.length ≤ exactLimit := by decide
  have hindex : index.toInt? = some 5 := rfl
  have hlength : (Quantity.whole 9).toInt? = some 9 := rfl
  have hlabel : Text.Unbroken "here" := Text.forall_mem (by decide)
  have htext : snippet.text = "cd\n ^ --- here" := by decide
  obtain ⟨start, row, margin, marks, -, hlines, hline, -, -, hunit⟩ :=
    build_rows hsize hindex hlength hlabel
  obtain ⟨hstart, hstop, hcolumn, hmarks⟩ := hunit (by rintro _ ⟨⟩; decide)
  exact ⟨hsize, hindex, hlength, hlabel, htext, start, row, margin, marks, hlines, hline, hstart,
    hstop.resolve_right (List.cons_ne_nil _ _), hcolumn, hmarks⟩

end Snippet

end Stencil
