import Stencil.Proofs.Number.Whole
import Stencil.Source.Place
import Stencil.SyntaxFault

/-!
# Lines and columns

The place of an offset is counted from the breaks that end at or before it. Main statement:
`Place.ofIndex_integer`. Offsets between the two halves of a pair are the only ones whose line begins
after them.
-/

namespace Stencil

namespace Text

/-- A break ends at the offset: before it stands a line feed, or a carriage return that no line feed
follows. -/
def breaksAt (t : Text) : Nat → Bool
  | 0 => false
  | n + 1 =>
    t[n]? == some ('\n' : CodeUnit) ||
      (t[n]? == some ('\r' : CodeUnit) && t[n + 1]? != some ('\n' : CodeUnit))

/-- The offset is between the two halves of a break. -/
def splitsBreak (t : Text) : Nat → Bool
  | 0 => false
  | n + 1 => t[n]? == some ('\r' : CodeUnit) && t[n + 1]? == some ('\n' : CodeUnit)

/-- The ends of the breaks that end at or before an offset. -/
def breakEnds (t : Text) (offset : Nat) : List Nat := (List.range (offset + 1)).filter t.breaksAt

/-- No unit ends a line. -/
def Unbroken (t : Text) : Prop := ∀ u ∈ t, u ≠ '\n' ∧ u ≠ '\r'

/-- A break that stands before the rest of a source. -/
inductive IsBreak (rest : Text) : Text → Prop where
  | pair : IsBreak rest ['\r', '\n']
  | feed : IsBreak rest ['\n']
  | carriage : rest.head? ≠ some ('\n' : CodeUnit) → IsBreak rest ['\r']

/-- A text is made of its lines and the breaks between them. -/
inductive Lined : Text → List (Text × Nat) → Prop where
  | last {line : Text} : Unbroken line → Lined line [(line, 0)]
  | cons {line brk rest : Text} {lines : List (Text × Nat)} :
    Unbroken line → IsBreak rest brk → Lined rest lines →
    Lined (line ++ (brk ++ rest)) ((line, brk.length) :: lines)

lemma Unbroken.nil : Unbroken [] := nofun

lemma Unbroken.cons {u : CodeUnit} {t : Text} (hu : ¬ (u = '\n' ∨ u = '\r')) (h : Unbroken t) :
    Unbroken (u :: t) :=
  List.forall_mem_cons.2 ⟨not_or.1 hu, h⟩

lemma Lined.ne_nil {t : Text} {lines : List (Text × Nat)} (h : Lined t lines) : lines ≠ [] := by
  cases h with
  | last => exact List.cons_ne_nil _ _
  | cons => exact List.cons_ne_nil _ _

/-- The lines of a text are its lines. -/
lemma lined_lines (t : Text) : Lined t t.lines := by
  fun_induction lines t with
  | case1 => exact .last .nil
  | case2 u h =>
    obtain rfl | rfl := h
    · exact .cons .nil .feed (.last .nil)
    · exact .cons .nil (.carriage (by rintro ⟨⟩)) (.last .nil)
  | case3 u h => exact .last (.cons h .nil)
  | case4 u v rest h ih =>
    obtain ⟨rfl, rfl⟩ := h
    exact .cons .nil .pair ih
  | case5 u v rest hpair h ih =>
    obtain rfl | rfl := h
    · exact .cons .nil .feed ih
    · refine .cons .nil (.carriage ?_) ih
      rintro ⟨⟩
      exact hpair ⟨rfl, rfl⟩
  | case6 u v rest _ _ hnil ih => exact absurd hnil ih.ne_nil
  | case7 u v rest _ h line width more hlines ih =>
    rw [hlines] at ih
    generalize v :: rest = t at ih
    cases ih with
    | last hline => exact .last (.cons h hline)
    | cons hline hbrk hrest => exact .cons (.cons h hline) hbrk hrest

/-! ## Breaks in the parts of a text -/

lemma breakEnds_eq_nil {t : Text} {offset : Nat} (h : ∀ n ≤ offset, t.breaksAt n = false) :
    t.breakEnds offset = [] := by
  apply List.filter_eq_nil_iff.2
  intro n hn
  rw [h n (Nat.le_of_lt_succ (List.mem_range.1 hn))]
  exact Bool.false_ne_true

/-- Behind the first unit of a part, breaks do not depend on what is before the part. -/
lemma breaks_append (s t : Text) (n : Nat) :
    (s ++ t).breaksAt (s.length + (n + 1)) = t.breaksAt (n + 1) ∧
      (s ++ t).splitsBreak (s.length + (n + 1)) = t.splitsBreak (n + 1) := by
  have hunit (k : Nat) : (s ++ t)[s.length + k]? = t[k]? := by
    rw [List.getElem?_append_right (Nat.le_add_right _ _), Nat.add_sub_cancel_left]
  rw [← Nat.add_assoc, breaksAt, breaksAt, splitsBreak, splitsBreak, Nat.add_assoc, hunit, hunit]
  exact ⟨rfl, rfl⟩

/-- Behind a part without the end of a break, the ends are those from there on. -/
lemma breakEnds_append {s t : Text} (h : ∀ k < s.length, (s ++ t).breaksAt k = false) (n : Nat) :
    (s ++ t).breakEnds (s.length + n) =
      ((List.range (n + 1)).filter fun k => (s ++ t).breaksAt (s.length + k)).map (s.length + ·) := by
  have hnone : (List.range s.length).filter (s ++ t).breaksAt = [] := by
    apply List.filter_eq_nil_iff.2
    intro k hk
    rw [h k (List.mem_range.1 hk)]
    exact Bool.false_ne_true
  rw [breakEnds, Nat.add_assoc, List.range_add, List.filter_append, hnone, List.nil_append,
    List.filter_map]
  rfl

namespace Unbroken

variable {s : Text} (hs : Unbroken s)

include hs

/-- No break ends in a line, nor is one split there. -/
lemma breaks_within (t : Text) {n : Nat} (hn : n ≤ s.length) :
    (s ++ t).breaksAt n = false ∧ (s ++ t).splitsBreak n = false := by
  cases n with
  | zero => exact ⟨rfl, rfl⟩
  | succ n =>
    obtain ⟨hfeed, hcarriage⟩ := hs s[n] (List.getElem_mem hn)
    rw [breaksAt, splitsBreak, List.getElem?_append_left hn, List.getElem?_eq_getElem hn]
    simp [hfeed, hcarriage]

lemma breakEnds_within (t : Text) {n : Nat} (hn : n ≤ s.length) : (s ++ t).breakEnds n = [] :=
  breakEnds_eq_nil fun _ hk => (hs.breaks_within t (hk.trans hn)).1

/-- After a line the breaks are those of what follows. -/
lemma breaks_after (t : Text) (n : Nat) :
    (s ++ t).breaksAt (s.length + n) = t.breaksAt n ∧
      (s ++ t).splitsBreak (s.length + n) = t.splitsBreak n := by
  cases n with
  | zero => exact hs.breaks_within t (Nat.le_refl _)
  | succ n => exact breaks_append s t n

lemma breakEnds_after (t : Text) (n : Nat) :
    (s ++ t).breakEnds (s.length + n) = (t.breakEnds n).map (s.length + ·) := by
  rw [breakEnds_append fun k hk => (hs.breaks_within t hk.le).1]
  congr 2
  funext k
  exact (hs.breaks_after t k).1

/-- A line alone has no break. -/
lemma breaks_none (n : Nat) : s.breaksAt n = false ∧ s.splitsBreak n = false := by
  cases n with
  | zero => exact ⟨rfl, rfl⟩
  | succ n =>
    rw [breaksAt, splitsBreak]
    cases hu : s[n]? with
    | none => exact ⟨rfl, rfl⟩
    | some u =>
      obtain ⟨hfeed, hcarriage⟩ := hs u (List.mem_of_getElem? hu)
      simp [hfeed, hcarriage]

lemma breakEnds_none (n : Nat) : s.breakEnds n = [] :=
  breakEnds_eq_nil fun k _ => (hs.breaks_none k).1

end Unbroken

namespace IsBreak

variable {brk rest : Text} (hbrk : IsBreak rest brk)

include hbrk

lemma length_le : brk.length ≤ 2 := by
  cases hbrk with
  | pair => exact Nat.le_refl _
  | feed => exact Nat.le_succ _
  | carriage => exact Nat.le_succ _

/-- Within a break none ends, and an offset there splits it unless it is the first. -/
lemma breaks_within {n : Nat} (hn : n < brk.length) :
    (brk ++ rest).breaksAt n = false ∧ (brk ++ rest).splitsBreak n = decide (0 < n) := by
  cases hbrk with
  | pair =>
    match n, hn with
    | 0, _ => exact ⟨rfl, rfl⟩
    | 1, _ => exact ⟨rfl, rfl⟩
  | feed =>
    obtain rfl := Nat.lt_one_iff.1 hn
    exact ⟨rfl, rfl⟩
  | carriage =>
    obtain rfl := Nat.lt_one_iff.1 hn
    exact ⟨rfl, rfl⟩

lemma breakEnds_within {n : Nat} (hn : n < brk.length) : (brk ++ rest).breakEnds n = [] :=
  breakEnds_eq_nil fun _ hk => (hbrk.breaks_within (Nat.lt_of_le_of_lt hk hn)).1

/-- A break ends after its last unit, and is not split there. -/
lemma breaks_end : (brk ++ rest).breaksAt brk.length = true ∧
    (brk ++ rest).splitsBreak brk.length = false := by
  cases hbrk with
  | pair => exact ⟨rfl, rfl⟩
  | feed => exact ⟨rfl, rfl⟩
  | carriage h =>
    cases rest with
    | nil => exact ⟨rfl, rfl⟩
    | cons v rest =>
      have hv : v ≠ '\n' := fun hv => h (congrArg some hv)
      simp [breaksAt, splitsBreak, hv]

lemma splitsBreak_after (n : Nat) :
    (brk ++ rest).splitsBreak (brk.length + n) = rest.splitsBreak n := by
  cases n with
  | zero => exact hbrk.breaks_end.2
  | succ n => exact (breaks_append brk rest n).2

lemma breakEnds_after (n : Nat) :
    (brk ++ rest).breakEnds (brk.length + n) =
      brk.length :: (rest.breakEnds n).map (brk.length + ·) := by
  let p := fun k => (brk ++ rest).breaksAt (brk.length + k)
  have hfirst (l : List Nat) : (0 :: l).filter p = 0 :: l.filter p :=
    List.filter_cons_of_pos hbrk.breaks_end.1
  have hnone (l : List Nat) : (0 :: l).filter rest.breaksAt = l.filter rest.breaksAt :=
    List.filter_cons_of_neg Bool.false_ne_true
  have hafter : p ∘ Nat.succ = rest.breaksAt ∘ Nat.succ :=
    funext fun k => (breaks_append brk rest k).1
  rw [breakEnds_append fun k hk => (hbrk.breaks_within hk).1, breakEnds, List.range_succ_eq_map,
    hfirst, hnone, List.filter_map, List.filter_map, hafter]
  rfl

end IsBreak

end Text

namespace Line

/-- The line of an offset starts where the last break before it ends. An offset that splits a break is
in the line after it. -/
structure Found (t : Text) (offset number start : Nat) (line : Line) : Prop where
  whole : t.splitsBreak offset = false → line.number = number + (t.breakEnds offset).length ∧
    line.start = start + (t.breakEnds offset).getLastD 0
  split : t.splitsBreak offset = true → line.number = number + (t.breakEnds offset).length + 1 ∧
    line.start = start + offset + 1

lemma seek_cons {offset number start width : Nat} {text : Text} {lines : List (Text × Nat)}
    (h : lines ≠ []) :
    seek offset number start ((text, width) :: lines) =
      if offset ≤ start + text.length then ⟨number, start, text⟩
      else seek offset (number + 1) (start + text.length + width) lines := by
  cases lines with
  | nil => exact absurd rfl h
  | cons => rfl

/-- No line is passed over for an offset before it. -/
lemma seek_before {offset start : Nat} (number : Nat) (lines : List (Text × Nat))
    (h : offset ≤ start) :
    (seek offset number start lines).number = number ∧
      (seek offset number start lines).start = start := by
  cases lines with
  | nil => exact ⟨rfl, rfl⟩
  | cons line lines =>
    cases lines with
    | nil => exact ⟨rfl, rfl⟩
    | cons =>
      rw [seek_cons (List.cons_ne_nil _ _), if_pos (h.trans (Nat.le_add_right _ _))]
      exact ⟨rfl, rfl⟩

lemma getLastD_map_add_add (k m : Nat) (l : List Nat) :
    (l.map ((k + ·) ∘ (m + ·))).getLastD (k + m) = k + m + l.getLastD 0 := by
  rw [List.getLastD_eq_getLast?, List.getLastD_eq_getLast?, List.getLast?_map]
  cases l.getLast? with
  | none => rfl
  | some n => exact (Nat.add_assoc k m n).symm

section

variable {line brk rest : Text} {offset number start : Nat} {l : Line}

/-- In the first line the place is found there. -/
lemma found_first (hline : Text.Unbroken line) (hle : offset ≤ line.length) :
    Found (line ++ (brk ++ rest)) offset number start ⟨number, start, line⟩ := by
  obtain ⟨-, hsplit⟩ := hline.breaks_within (brk ++ rest) hle
  refine ⟨fun _ => ?_, fun h => ?_⟩
  · rw [hline.breakEnds_within _ hle]
    exact ⟨rfl, rfl⟩
  · rw [hsplit] at h
    cases h

/-- Before the end of the first break the place is found in the second line. The offset splits the
break. -/
lemma found_second (hline : Text.Unbroken line) (hbrk : Text.IsBreak rest brk)
    (hlt : line.length < offset) (hend : offset < line.length + brk.length)
    (hnumber : l.number = number + 1) (hstart : l.start = start + line.length + brk.length) :
    Found (line ++ (brk ++ rest)) offset number start l := by
  obtain ⟨k, rfl⟩ := Nat.exists_eq_add_of_le hlt.le
  have hk : k < brk.length := by omega
  -- only a pair has an offset in it
  have hpair := hbrk.length_le
  refine ⟨fun h => ?_, fun _ => ?_⟩
  · rw [(hline.breaks_after _ k).2, (hbrk.breaks_within hk).2, decide_eq_false_iff_not] at h
    omega
  · rw [hline.breakEnds_after, hbrk.breakEnds_within hk, hnumber, hstart]
    exact ⟨rfl, by omega⟩

/-- After the first break the place is that in the rest. -/
lemma Found.after {n : Nat} (hline : Text.Unbroken line) (hbrk : Text.IsBreak rest brk)
    (h : Found rest n (number + 1) (start + line.length + brk.length) l) :
    Found (line ++ (brk ++ rest)) (line.length + (brk.length + n)) number start l := by
  have hsplits := (hline.breaks_after (brk ++ rest) (brk.length + n)).2
  have hends := hline.breakEnds_after (brk ++ rest) (brk.length + n)
  rw [hbrk.splitsBreak_after] at hsplits
  rw [hbrk.breakEnds_after, List.map_cons, List.map_map] at hends
  refine ⟨fun hsplit => ?_, fun hsplit => ?_⟩
  · obtain ⟨hnumber, hstart⟩ := h.whole (hsplits ▸ hsplit)
    rw [hnumber, hstart, hends, List.length_cons, List.length_map, List.getLastD_cons,
      getLastD_map_add_add]
    omega
  · obtain ⟨hnumber, hstart⟩ := h.split (hsplits ▸ hsplit)
    rw [hnumber, hstart, hends, List.length_cons, List.length_map]
    omega

end

/-- The line of an offset is found line by line. -/
lemma found_seek {t : Text} {lines : List (Text × Nat)} (h : Text.Lined t lines)
    (offset number start : Nat) :
    Found t offset number start (seek (start + offset) number start lines) := by
  induction h generalizing offset number start with
  | @last line hline =>
    refine ⟨fun _ => ?_, fun h => ?_⟩
    · rw [hline.breakEnds_none]
      exact ⟨rfl, rfl⟩
    · rw [(hline.breaks_none offset).2] at h
      cases h
  | @cons line brk rest lines hline hbrk hlines ih =>
    rw [seek_cons hlines.ne_nil]
    split
    · next hle => exact found_first hline (Nat.le_of_add_le_add_left hle)
    · next hlt =>
      rcases Nat.lt_or_ge offset (line.length + brk.length) with hend | hge
      · have hbefore : start + offset ≤ start + line.length + brk.length := by omega
        obtain ⟨hnumber, hstart⟩ := seek_before (number + 1) lines hbefore
        exact found_second hline hbrk (by omega) hend hnumber hstart
      · obtain ⟨n, rfl⟩ := Nat.exists_eq_add_of_le hge
        have hoffset : start + (line.length + brk.length + n) =
            start + line.length + brk.length + n := by omega
        rw [hoffset, Nat.add_assoc line.length]
        exact (ih n (number + 1) (start + line.length + brk.length)).after hline hbrk

end Line

namespace Text

/-- The last break that ends at or before an offset does so. -/
lemma getLastD_breakEnds_le (t : Text) (offset : Nat) : (t.breakEnds offset).getLastD 0 ≤ offset := by
  have hmem := List.getLastD_mem_cons (l := t.breakEnds offset) (a := 0)
  obtain h | h := List.mem_cons.1 hmem
  · rw [h]
    exact Nat.zero_le _
  · exact Nat.le_of_lt_succ (List.mem_range.1 (List.mem_filter.1 h).1)

end Text

namespace Category

/-- Malformed syntax or an exceeded limit. -/
def OfSyntax (category : Category) : Prop :=
  (∃ position byteOffset, category = .parse position byteOffset) ∨ category = .limit

lemma OfSyntax.message_eq {category : Category} (h : category.OfSyntax) (detail : Text) :
    category.message detail = detail := by
  obtain ⟨_, _, rfl⟩ | rfl := h <;> rfl

end Category

namespace SyntaxFault

variable (source : Text) (fault : SyntaxFault)

lemma diagnostic_build : ∃ category hint, category.OfSyntax ∧
    fault.diagnostic source = .build category fault.message
      ⟨some source, some fault.index, some fault.length, hint⟩ none := by
  unfold diagnostic
  split
  · exact ⟨.limit, none, .inr rfl, rfl⟩
  · exact ⟨.parse _ _, fault.hint?, .inl ⟨_, _, rfl⟩, rfl⟩

variable {fault}

/-- A fault at an index that is not negative is told with the snippet there. -/
lemma diagnostic_located (h : (Quantity.whole 0).le fault.index) :
    let snippet := Snippet.build source fault.index fault.length fault.message
    ∃ category hint, category.OfSyntax ∧
      fault.diagnostic source = ⟨category, fault.message, some fault.index,
        some snippet.place.line.number, some snippet.place.column, snippet.text, hint, none⟩ := by
  intro snippet
  obtain ⟨category, hint, hcategory, hbuild⟩ := fault.diagnostic_build source
  have husable : Diagnostic.usable (some fault.index) = some fault.index := by
    rw [Diagnostic.usable, Option.filter_some, if_pos h]
  rw [hbuild, Diagnostic.build, hcategory.message_eq]
  dsimp only
  rw [husable]
  exact ⟨_, _, hcategory, rfl⟩

/-- A fault at a negative index is told without a place. -/
lemma diagnostic_unlocated (h : (Quantity.whole 0).le fault.index = false) : ∃ category hint,
    fault.diagnostic source = ⟨category, fault.message, none, none, none, [], hint, none⟩ := by
  obtain ⟨category, hint, hcategory, hbuild⟩ := fault.diagnostic_build source
  have hunusable : Diagnostic.usable (some fault.index) = none := by
    rw [Diagnostic.usable, Option.filter_some, h, if_neg Bool.false_ne_true]
  rw [hbuild, Diagnostic.build, hcategory.message_eq]
  dsimp only
  rw [hunusable]
  exact ⟨_, _, rfl⟩

lemma message_diagnostic (fault : SyntaxFault) : (fault.diagnostic source).message = fault.message := by
  cases h : (Quantity.whole 0).le fault.index with
  | true =>
    obtain ⟨_, _, -, hdiagnostic⟩ := diagnostic_located source h
    rw [hdiagnostic]
  | false =>
    obtain ⟨_, _, hdiagnostic⟩ := diagnostic_unlocated source h
    rw [hdiagnostic]

end SyntaxFault

namespace Place

variable {source : Text} {index : Quantity} {i : Int}

/-- An integer is moved to the nearest offset of a unit. -/
lemma toInt?_clamp (h : index.toInt? = some i) :
    (clamp source index).toInt? = some ((min i.toNat (source.length - 1) : Nat) : Int) := by
  rw [clamp, Quantity.isNaN_of_toInt? h, if_neg Bool.false_ne_true,
    Quantity.toInt?_min (Quantity.toInt?_max h 0)]
  congr 1
  omega

/-- A fault of a source is told with the place of its index. -/
lemma diagnostic_place {fault : SyntaxFault} (h : (Quantity.whole 0).le fault.index) :
    (fault.diagnostic source).line = some (Place.ofIndex source fault.index).line.number ∧
      (fault.diagnostic source).column = some (Place.ofIndex source fault.index).column := by
  obtain ⟨category, hint, -, hdiagnostic⟩ := SyntaxFault.diagnostic_located source h
  rw [hdiagnostic]
  exact ⟨rfl, rfl⟩

/-- The place of an integer index, which is first moved to the nearest unit of the source: the line is
one more than the number of breaks that end at or before that unit, and the column counts from the last
of them. Only between the two halves of a pair it is the line after the pair and the column zero. Faults
of the source are told with these places. -/
theorem ofIndex_integer (hsize : source.length ≤ exactLimit) (h : index.toInt? = some i) :
    let offset := min i.toNat (source.length - 1)
    let ends := source.breakEnds offset
    let place := Place.ofIndex source index
    (source.splitsBreak offset = false → place.line.number = 1 + ends.length ∧
      place.column = (offset - ends.getLastD 0 + 1 : Nat)) ∧
    (source.splitsBreak offset = true → place.line.number = 2 + ends.length ∧
      place.column = (0 : Nat)) ∧
    ∀ fault : SyntaxFault, fault.index = index → 0 ≤ i →
      (fault.diagnostic source).line = some place.line.number ∧
      (fault.diagnostic source).column = some place.column := by
  intro offset ends place
  have hindex : (clamp source index).toInt? = some (offset : Int) := toInt?_clamp h
  have hline : place.line = Line.ofOffset source offset := by
    change Line.ofOffset source (clamp source index).ceiling = _
    rw [Quantity.ceiling_eq hindex]
  have hfound : Line.Found source offset 1 0 place.line := by
    have hseek := Line.found_seek source.lined_lines offset 1 0
    rw [Nat.zero_add] at hseek
    rw [hline]
    exact hseek
  have hlast : ends.getLastD 0 ≤ offset := source.getLastD_breakEnds_le offset
  have hoffset : offset ≤ source.length - 1 := Nat.min_le_right _ _
  have hlimit : 1 ≤ exactLimit := by decide
  have hcolumn (hstart : place.line.start ≤ offset + 1) :
      place.column = .whole (offset - place.line.start + 1) := by
    have hsub := Quantity.sub_whole (n := place.line.start) hindex (by omega) (by omega)
    exact Quantity.add_one hsub (by omega)
  refine ⟨fun hsplit => ?_, fun hsplit => ?_, ?_⟩
  · have hnumber : place.line.number = 1 + ends.length := (hfound.whole hsplit).1
    have hstart : place.line.start = 0 + ends.getLastD 0 := (hfound.whole hsplit).2
    refine ⟨hnumber, ?_⟩
    rw [hcolumn (by omega), hstart]
    congr 1
    omega
  · have hnumber : place.line.number = 1 + ends.length + 1 := (hfound.split hsplit).1
    have hstart : place.line.start = 0 + offset + 1 := (hfound.split hsplit).2
    refine ⟨by omega, ?_⟩
    rw [hcolumn (by omega), hstart]
    congr 1
    omega
  · rintro fault rfl hi
    apply diagnostic_place
    rw [Quantity.le, Quantity.isNaN_of_toInt? h, (Quantity.lt_whole h 0).1,
      decide_eq_false (Int.not_lt.2 hi)]
    rfl

theorem ofIndex_integer_pair :
    let source : Text := "a\r\nb"
    let fault : SyntaxFault := .unclosed 3
    source.length ≤ exactLimit ∧ source.splitsBreak 3 = false ∧ source.splitsBreak 2 = true ∧
    (ofIndex source (3 : Nat)).line.number = 2 ∧ (ofIndex source (3 : Nat)).column = (1 : Nat) ∧
    (ofIndex source (2 : Nat)).line.number = 2 ∧ (ofIndex source (2 : Nat)).column = (0 : Nat) ∧
    (fault.diagnostic source).line = some 2 ∧ (fault.diagnostic source).column = some (1 : Nat) := by
  intro source fault
  have hsize : source.length ≤ exactLimit := by decide
  have hthree : Quantity.toInt? (3 : Nat) = some 3 := rfl
  have htwo : Quantity.toInt? (2 : Nat) = some 2 := rfl
  obtain ⟨hwhole, -, hfault⟩ := ofIndex_integer hsize hthree
  obtain ⟨-, hsplit, -⟩ := ofIndex_integer hsize htwo
  obtain ⟨hline, hcolumn⟩ := hwhole rfl
  obtain ⟨hline', hcolumn'⟩ := hsplit rfl
  obtain ⟨hfaultLine, hfaultColumn⟩ := hfault fault rfl (by decide)
  exact ⟨hsize, rfl, rfl, hline, hcolumn, hline', hcolumn', hfaultLine.trans (congrArg some hline),
    hfaultColumn.trans (congrArg some hcolumn)⟩

/-- Between the halves of a pair no break has ended, yet the line is the second and the column zero. -/
theorem ofIndex_between :
    let place := ofIndex "\r\n" (1 : Nat)
    Text.breakEnds "\r\n" 1 = [] ∧ place.line.number = 2 ∧ place.column = (0 : Nat) :=
  ⟨rfl, rfl, rfl⟩

end Place

end Stencil
