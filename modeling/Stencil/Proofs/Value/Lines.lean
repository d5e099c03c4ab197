import Mathlib.Algebra.Order.BigOperators.Group.List
import Mathlib.Tactic.Lemma
import Stencil.Proofs.Number.Order
import Stencil.Proofs.Text.Lines
import Stencil.Proofs.Value.Layout

/-!
# The lines of a layout

How many lines a layout has is bounded by its limits alone, whatever the size and the depth of the value.
Main statement: `Value.layout_lines`. The bound of a container is that of its items and entries, of which
the limits let few through, with three more lines: two for the brackets and one for what is not shown.
-/

namespace Stencil

lemma Text.IsWord.lineFeeds {t : Text} (h : t.IsWord) : t.lineFeeds = 0 :=
  lineFeeds_eq_zero.2 fun hmem => absurd (h _ hmem) (by decide)

lemma Quantity.lineFeeds_text (q : Quantity) : q.text.lineFeeds = 0 := q.isWord_text.lineFeeds

namespace Layout

/-- How many lines a layout has at most that opens `levels` levels of containers of `width` parts. -/
def lineBound (width : Nat) : Nat → Nat
  | 0 => 1
  | levels + 1 => 3 + width * lineBound width levels

lemma lineBound_pos (width levels : Nat) : 1 ≤ lineBound width levels := by
  cases levels with
  | zero => exact Nat.le_refl 1
  | succ levels =>
    rw [lineBound]
    omega

variable {l : Layout} {depth : Nat}

lemma lineFeeds_string (t : Text) : (l.string t).lineFeeds = 0 := by
  rw [string]
  split <;> exact Text.lineFeeds_quote _

/-- A value that is no container that is opened takes one line. -/
lemma lineFeeds_value_closed {v : Value} (h : v.parts = [] ∨ l.maxDepth.le depth) :
    (l.value depth v).lineFeeds = 0 := by
  have hword {v : Value} {t : Text} (ht : v.plainText? = some t) : (l.value depth v).lineFeeds = 0 := by
    rw [value_plain ht]
    exact (Value.isWord_plainText ht).lineFeeds
  have hcount (n : Nat) : (Text.ofNat n).lineFeeds = 0 := (Text.isWord_ofNat n).lineFeeds
  cases v with
  | string t => exact lineFeeds_string t
  | array items =>
    rw [value]
    split
    · rfl
    · next hne =>
      rw [if_pos (h.resolve_left fun hnil => hne (List.isEmpty_iff.2 hnil)), Text.lineFeeds_append,
        Text.lineFeeds_append, hcount]
      rfl
  | object entries =>
    rw [value]
    split
    · rfl
    · next hne =>
      rw [if_pos (h.resolve_left fun hnil => hne (List.isEmpty_iff.2 (List.map_eq_nil_iff.1 hnil))),
        Text.lineFeeds_append, Text.lineFeeds_append, hcount]
      rfl
  | _ => exact hword rfl

section

variable (hindent : l.indent.lineFeeds = 0)
include hindent

lemma lineFeeds_margin (depth : Nat) : (l.margin depth).lineFeeds = 0 := by
  rw [Text.lineFeeds_eq_zero] at hindent ⊢
  intro h
  obtain ⟨t, ht, h⟩ := List.mem_flatten.1 h
  rw [(List.mem_replicate.1 ht).2] at h
  exact hindent h

lemma lineFeeds_remainder (depth size : Nat) (shown : Quantity) {unit : Text} (hunit : unit.lineFeeds = 0) :
    (l.remainder depth size shown unit).length ≤ 1 ∧
      ∀ t ∈ l.remainder depth size shown unit, t.lineFeeds = 0 := by
  have hmarks : Text.lineFeeds "… " = 0 ∧ Text.lineFeeds " more " = 0 := ⟨rfl, rfl⟩
  rw [remainder]
  split
  · refine ⟨Nat.le_refl 1, fun t ht => ?_⟩
    rw [List.mem_singleton.1 ht]
    simp only [Text.lineFeeds_append, lineFeeds_margin hindent, Quantity.lineFeeds_text, hunit, hmarks]
  · exact ⟨Nat.zero_le 1, List.forall_mem_nil _⟩

/-- A block of some lines of at most `bound` lines each, and perhaps one more. -/
lemma lineFeeds_block {opening closing : Text} {lines more : List Text} {bound width : Nat}
    (hopening : opening.lineFeeds = 0) (hclosing : closing.lineFeeds = 0)
    (hlines : ∀ t ∈ lines, t.lineFeeds + 1 ≤ bound) (hlength : lines.length ≤ width)
    (hmore : ∀ t ∈ more, t.lineFeeds = 0) (hone : more.length ≤ 1) :
    (l.block depth opening closing (lines ++ more)).lineFeeds + 1 ≤ 3 + width * bound := by
  have hsum {ts : List Text} {k : Nat} (h : ∀ t ∈ ts, t.lineFeeds + 1 ≤ k) :
      (ts.map fun t => t.lineFeeds + 1).sum ≤ ts.length * k := by
    have hle := List.sum_le_card_nsmul (ts.map fun t => t.lineFeeds + 1) k (List.forall_mem_map.2 h)
    rw [List.length_map] at hle
    exact hle
  have hlinesSum := Nat.le_trans (hsum hlines) (Nat.mul_le_mul_right bound hlength)
  have hmoreSum := hsum (k := 1) fun t ht => (hmore t ht).symm ▸ Nat.le_refl 1
  have hmark : Text.lineFeeds "\n" = 1 ∧ Text.lineFeeds ",\n" = 1 := ⟨rfl, rfl⟩
  simp only [block, Text.lineFeeds_append, lineFeeds_margin hindent, hopening, hclosing, hmark,
    Text.lineFeeds_join, List.map_append, List.sum_append_nat]
  omega

/-- A container that is opened shows no more parts than its limit lets it. -/
lemma lineFeeds_opened {α : Type} {line : α → Text} {parts : List α} {limit : Quantity} {w bound : Nat}
    {opening closing unit : Text} (hopening : opening.lineFeeds = 0) (hclosing : closing.lineFeeds = 0)
    (hunit : unit.lineFeeds = 0) (hlimit : limit.le w) (hline : ∀ x, (line x).lineFeeds + 1 ≤ bound) :
    (l.block depth opening closing
      ((parts.take (Quantity.ceiling (.min parts.length limit))).map line ++
        l.remainder depth parts.length (.min parts.length limit) unit)).lineFeeds + 1 ≤
      3 + w * bound := by
  obtain ⟨hone, hmore⟩ := lineFeeds_remainder hindent depth parts.length (.min parts.length limit) hunit
  refine lineFeeds_block hindent hopening hclosing ?_ ?_ hmore hone
  · exact List.forall_mem_map.2 fun x _ => hline x
  · rw [List.length_map, List.length_take]
    exact Nat.le_trans (Nat.min_le_left _ _) (Quantity.ceiling_min_le hlimit _)

/-- A value takes no more lines than the levels that are left let it. -/
theorem lineFeeds_value {d w : Nat} (hdepth : l.maxDepth.le d) (hitems : l.maxItems.le w)
    (hentries : l.maxEntries.le w) {levels : Nat} (h : depth + levels = d) (v : Value) :
    (l.value depth v).lineFeeds + 1 ≤ lineBound w levels := by
  have hclosed {depth levels : Nat} {v : Value} (h : v.parts = [] ∨ l.maxDepth.le depth) :
      (l.value depth v).lineFeeds + 1 ≤ lineBound w levels := by
    rw [lineFeeds_value_closed h]
    exact lineBound_pos w levels
  induction levels generalizing depth v with
  | zero =>
    obtain rfl : depth = d := h
    exact hclosed (.inr hdepth)
  | succ levels ih =>
    have hpart (v : Value) : (l.value (depth + 1) v).lineFeeds + 1 ≤ lineBound w levels := ih (by omega) v
    by_cases hopen : v.parts = [] ∨ l.maxDepth.le depth
    · exact hclosed hopen
    · obtain ⟨hparts, hlevel⟩ := not_or.1 hopen
      rw [Bool.not_eq_true] at hlevel
      cases v with
      | array as =>
        have hne : as ≠ [] := hparts
        rw [value_array hne hlevel]
        refine lineFeeds_opened hindent rfl rfl rfl hitems fun v => ?_
        rw [itemLine, Text.lineFeeds_append, lineFeeds_margin hindent, Nat.zero_add]
        exact hpart v
      | object es =>
        have hcolon : Text.lineFeeds ": " = 0 := rfl
        rw [value_object (fun hnil => hparts (by rw [hnil]; rfl)) hlevel]
        refine lineFeeds_opened hindent rfl rfl rfl hentries fun e => ?_
        simp only [entryLine, Text.lineFeeds_append, lineFeeds_margin hindent, Text.lineFeeds_quote,
          hcolon, Nat.zero_add]
        exact hpart e.2
      | _ => exact absurd rfl hparts

end

/-- The second value is shown in the layout of the first, so many levels deep. -/
inductive Shown (l : Layout) (v : Value) : Nat → Value → Prop where
  | self : l.Shown v 0 v
  | item {depth : Nat} {as : List Value} {q : Value} :
    l.Shown v depth (.array as) → l.maxDepth.le depth = false → q ∈ l.items as →
    l.Shown v (depth + 1) q
  | entry {depth : Nat} {es : List (Text × Value)} {e : Text × Value} :
    l.Shown v depth (.object es) → l.maxDepth.le depth = false → e ∈ l.entries es →
    l.Shown v (depth + 1) e.2

lemma infix_block {t opening closing : Text} {lines : List Text} (h : t ∈ lines) :
    t <:+: l.block depth opening closing lines := by
  have hjoin : t <:+: Text.join ",\n" lines := Text.infix_join h
  refine hjoin.trans ⟨opening ++ "\n", "\n" ++ l.margin depth ++ closing, ?_⟩
  simp only [block, List.append_assoc]

/-- What is shown stands in the layout in the form of its depth. -/
lemma Shown.infix_layout {v q : Value} (h : l.Shown v depth q) : l.value depth q <:+: v.layout l := by
  induction h with
  | self => exact List.infix_refl _
  | item h hlevel hq ih =>
    refine List.IsInfix.trans ?_ ih
    rw [value_array (fun hnil => by rw [hnil] at hq; simp [items] at hq) hlevel]
    refine List.IsInfix.trans ?_ (infix_block (List.mem_append_left _ (List.mem_map_of_mem hq)))
    exact (List.suffix_append _ _).isInfix
  | entry h hlevel he ih =>
    refine List.IsInfix.trans ?_ ih
    rw [value_object (fun hnil => by rw [hnil] at he; simp [entries] at he) hlevel]
    refine List.IsInfix.trans ?_ (infix_block (List.mem_append_left _ (List.mem_map_of_mem he)))
    exact (List.suffix_append _ _).isInfix

end Layout

/-- A layout that opens `d` levels of containers at most and shows at most `w` parts of each has no more
lines than the bound, and a value that is shown `d` levels deep or deeper is on one line. -/
theorem Value.layout_lines {l : Layout} {d w : Nat} (hdepth : l.maxDepth.le d) (hitems : l.maxItems.le w)
    (hentries : l.maxEntries.le w) (hindent : ('\n' : CodeUnit) ∉ l.indent) (v : Value) :
    ((v.layout l).split '\n').length ≤ Layout.lineBound w d ∧
      ∀ depth q, l.Shown v depth q →
        l.value depth q <:+: v.layout l ∧ (d ≤ depth → ('\n' : CodeUnit) ∉ l.value depth q) := by
  constructor
  · rw [Text.length_split]
    exact Layout.lineFeeds_value (Text.lineFeeds_eq_zero.2 hindent) hdepth hitems hentries (Nat.zero_add d) v
  · intro depth q hq
    refine ⟨hq.infix_layout, fun hle => Text.lineFeeds_eq_zero.1 ?_⟩
    exact Layout.lineFeeds_value_closed (.inr (Quantity.le_trans hdepth hle))

/-- One level of containers and two items fill the bound: brackets, two lines and the one for the third. -/
theorem Value.layout_lines_three :
    let l : Layout := ⟨.whole 1, .whole 2, .whole 2, .whole 80, "  "⟩
    let v := Value.array [.null, .array [.null], .null]
    ((v.layout l).split '\n').length = Layout.lineBound 2 1 ∧
      ((v.layout l).split '\n').length ≤ Layout.lineBound 2 1 ∧
      ('\n' : CodeUnit) ∉ l.value 1 (.array [.null]) := by
  intro l v
  obtain ⟨hlines, hdeep⟩ := layout_lines (l := l) (d := 1) (w := 2) rfl rfl rfl (by decide) v
  have hshown : l.Shown v 1 (.array [.null]) := .item .self rfl (List.mem_of_getElem? (i := 1) rfl)
  exact ⟨rfl, hlines, (hdeep 1 _ hshown).2 (Nat.le_refl 1)⟩

end Stencil
