import Stencil.Proofs.Template.Segment
import Stencil.Template.Description

/-!
# Reading printed templates

The elements of a template printed one after another: texts with their opening braces escaped, and
expressions in braces. Main statement: `Element.parse_printed` says that every text is the only
element of its escaped form, and that the printed elements of a template are read as these elements
again.
-/

namespace Stencil

namespace Gap

/-- The text with a backslash before each pair of opening braces. Pairs are made from the right, so
the first brace of an odd run stays alone. -/
def escape : Text → Text
  | [] => []
  | u :: rest =>
    if ("\x7b\x7b" : Text).isPrefixOf (u :: escape rest) then ('\\' : CodeUnit) :: u :: escape rest
    else u :: escape rest

lemma escape_pair {u : CodeUnit} {rest : Text} (h : ("\x7b\x7b" : Text) <+: u :: escape rest) :
    escape (u :: rest) = ('\\' : CodeUnit) :: u :: escape rest :=
  if_pos (List.isPrefixOf_iff_prefix.2 h)

lemma escape_unit {u : CodeUnit} {rest : Text} (h : ¬ ("\x7b\x7b" : Text) <+: u :: escape rest) :
    escape (u :: rest) = u :: escape rest :=
  if_neg (mt List.isPrefixOf_iff_prefix.1 h)

lemma escape_ne_nil {u : CodeUnit} {rest : Text} : escape (u :: rest) ≠ [] := by
  rw [escape]
  split <;> exact List.cons_ne_nil _ _

lemma head?_escape {rest : Text} (h : rest.head? ≠ some ('\x7b' : CodeUnit)) :
    (escape rest).head? ≠ some ('\x7b' : CodeUnit) := by
  cases rest with
  | nil => exact h
  | cons u rest =>
    rw [escape]
    split
    · exact fun hu => absurd (Option.some.inj hu) (by decide)
    · exact h

/-- In a run of opening braces each pair is escaped, and what is left over stands in front. -/
lemma escape_run {rest : Text} (h : rest.head? ≠ some ('\x7b' : CodeUnit)) (n : Nat) :
    escape (List.replicate n ('\x7b' : CodeUnit) ++ rest) =
      List.replicate (n % 2) ('\x7b' : CodeUnit) ++
        ((List.replicate (n / 2) ("\\\x7b\x7b" : Text)).flatten ++ escape rest) := by
  induction n with
  | zero => rfl
  | succ n ih =>
    rw [List.replicate_succ, List.cons_append]
    obtain heven | hodd := Nat.mod_two_eq_zero_or_one n
    · have hmod : (n + 1) % 2 = 1 := by omega
      have hdiv : (n + 1) / 2 = n / 2 := by omega
      rw [heven, List.replicate_zero, List.nil_append] at ih
      rw [hmod, hdiv, escape_unit, ih]
      · rfl
      · rw [ih]
        have hhead : ((List.replicate (n / 2) ("\\\x7b\x7b" : Text)).flatten ++ escape rest).head? ≠
            some ('\x7b' : CodeUnit) := by
          cases n / 2 with
          | zero => exact head?_escape h
          | succ k => exact fun hu => absurd (Option.some.inj hu) (by decide)
        rintro ⟨t, ht⟩
        rw [← List.tail_eq_of_cons_eq ht] at hhead
        exact hhead rfl
    · have hmod : (n + 1) % 2 = 0 := by omega
      have hdiv : (n + 1) / 2 = n / 2 + 1 := by omega
      rw [hodd] at ih
      rw [hmod, hdiv, escape_pair, ih]
      · rfl
      · rw [ih]
        exact ⟨_, rfl⟩

namespace Skips

variable {after g value : Text}

/-- One more unit is passed over in front of an escaped text. -/
lemma cons_escape {u : CodeUnit} (h : Skips after (Gap.escape value) value)
    (hlast : value = [] →
      ¬ ("\\\x7b\x7b" : Text) <+: u :: after ∧ ¬ ("\x7b\x7b" : Text) <+: u :: after) :
    Skips after (Gap.escape (u :: value)) (u :: value) := by
  cases value with
  | nil =>
    have hunit : ¬ ("\x7b\x7b" : Text) <+: [u] := not_begins (show 1 < 2 by decide)
    rw [escape_unit hunit]
    exact .unit (hlast rfl).1 (hlast rfl).2 h
  | cons v value =>
    obtain ⟨w, g, hg⟩ := List.exists_cons_of_ne_nil (@escape_ne_nil v value)
    have hfirst := h
    rw [hg] at hfirst
    by_cases hpair : ("\x7b\x7b" : Text) <+: u :: Gap.escape (v :: value)
    · rw [escape_pair hpair]
      rw [hg] at hpair ⊢
      obtain ⟨rfl, rfl⟩ := prefix_open.1 hpair
      obtain ⟨_, _, hne, -⟩ | ⟨value', -, -, hvalue, hrest⟩ := hfirst.uncons
      · exact absurd hne (by decide)
      · rw [hvalue]
        exact .escape hrest
    · rw [escape_unit hpair]
      rw [hg] at hpair
      refine .unit ?_ ?_ h
      · rw [hg]
        exact fun hescape => hfirst.not_open (List.cons_prefix_cons.1 hescape).2
      · rw [hg]
        exact fun h => hpair (prefix_open.2 (prefix_open.1 h))

/-- A text is what its escaped form stands for. -/
lemma of_escape (value : Text) : Skips [] (Gap.escape value) value := by
  induction value with
  | nil => exact .done
  | cons u value ih =>
    exact ih.cons_escape fun _ =>
      ⟨not_begins (show 1 < 3 by decide), not_begins (show 1 < 2 by decide)⟩

/-- A text before opening braces can be escaped there. -/
lemma escape_value {x : Text} (h : Skips ("\x7b\x7b" ++ x) g value) :
    Skips ("\x7b\x7b" ++ x) (Gap.escape value) value := by
  induction h with
  | done => exact .done
  | @escape g value _ ih =>
    cases value with
    | nil => exact .escape .done
    | cons v value =>
      have hbrace := ih.cons_escape (u := '\x7b') nofun
      exact hbrace.cons_escape nofun
  | @unit u g value hescape hopen hg ih =>
    -- the last unit of a text comes right before the braces, as it did
    refine ih.cons_escape ?_
    rintro rfl
    cases hg
    exact ⟨hescape, hopen⟩

end Skips

end Gap

namespace Element

/-- The text that is read as the element. -/
def print : Element → Text
  | .text value => Gap.escape value
  | .expression source _ _ => braced source

lemma print_ofText {value : Text} : (ofText value).flatMap print = Gap.escape value := by
  cases value with
  | nil => rfl
  | cons u value => exact List.append_nil _

/-- The tokens of an expression are the same with one space on both sides of it, at any offset. -/
lemma respell {o t ts n expr} (ht : Spelled o t ts) (hts : Derives n ts (.pipeline expr))
    (o' : Nat) :
    ∃ us expr', Spelled o' (" " ++ (t.trim ++ " ")) us ∧ Derives n us (.pipeline expr') ∧
      expr'.bare = expr.bare ∧ (" " ++ (t.trim ++ " ") : Text).trim = t.trim := by
  have hspace : ∀ v ∈ (" " : Text), v.isSpace := Text.forall_mem (by decide)
  have hblank {gap : Text} (hgap : ∀ v ∈ gap, v.isSpace) : ∀ v ∈ gap, v.isBlank :=
    fun v hv => CodeUnit.isBlank_of_isSpace (hgap v hv)
  obtain ⟨lead, core, trail, rfl, hlead, htrail, hcore, hne, hhead, hlast⟩ := ht.core hts.ne_nil
  rw [Text.trim_core (hblank hlead) (hblank htrail) hne hhead hlast]
  obtain ⟨ts, expr, hzero, hexpr, rfl⟩ := hcore.alone hts
  have hshift : Spelled (o' + (" " : Text).length) core
      (ts.map (Token.move (· + (o' + (" " : Text).length)))) := by
    have h := hzero.shift (k := o' + (" " : Text).length)
    rwa [Nat.zero_add] at h
  refine ⟨_, _, (hshift.trail hspace).pad hspace, hexpr.move, ?_, ?_⟩
  · rw [Expr.shift, Expr.bare_move, Expr.bare_move]
  · exact Text.trim_core (hblank hspace) (hblank hspace) hne hhead hlast

/-- At any offset printed elements are read as themselves. -/
lemma Splits.reprint {o rest els} (h : Splits none o rest els) (o' : Nat) :
    ∃ els', Splits none o' (els.flatMap print) els' ∧ els'.map bare = els.map bare := by
  induction h generalizing o' with
  | @text o g value _ =>
    refine ⟨ofText value, ?_, rfl⟩
    rw [print_ofText]
    exact .text (.of_escape value)
  | @expression o g value t after ts n expr more hg ht hts _ _ ih =>
    obtain ⟨us, expr', hus, hexpr', hbare, htrim⟩ :=
      respell ht hts (o' + (Gap.escape value).length + 2)
    obtain ⟨more', hmore', hmap⟩ := ih (o' + (Gap.escape value).length + 2 +
      (" " ++ (t.trim ++ " ") : Text).length + 2)
    have hwithin : Within (effective none) (1 + n) := within_none
    have hsplits := Splits.expression (hg.escape_value.reopen _) hus hexpr' hwithin hmore'
    have hprint : (ofText value ++ Element.expression t.trim expr
        ⟨o + g.length, o + g.length + 2 + t.length + 2⟩ :: more).flatMap print =
        Gap.escape value ++ ("\x7b\x7b" ++ (" " ++ (t.trim ++ " ") ++
          ("\x7d\x7d" ++ more.flatMap print))) := by
      have hbraced : braced t.trim = "\x7b\x7b" ++ (" " ++ (t.trim ++ " ") ++ "\x7d\x7d") := by
        simp only [braced, List.append_assoc]
        rfl
      rw [List.flatMap_append, print_ofText, List.flatMap_cons, print, hbraced]
      simp only [List.append_assoc]
    have hexpression (p : Span) : (Element.expression (" " ++ (t.trim ++ " ") : Text).trim expr'
        p).bare = .expression t.trim expr.bare ⟨0, 0⟩ := by
      rw [htrim, ← hbare]
      rfl
    refine ⟨_, hprint ▸ hsplits, ?_⟩
    rw [List.map_append, List.map_append, List.map_cons, List.map_cons, hexpression, hmap]
    rfl

/-- Every text is the only element of its escaped form, and the printed elements of a template are
read as these elements, up to the offsets at which they stand. -/
theorem parse_printed :
    (∀ value, parse (Gap.escape value) none none = .ok (if value = [] then [] else [.text value])) ∧
    ∀ source els, parse source none none = .ok els →
      ∃ els', parse (els.flatMap print) none none = .ok els' ∧ els'.map bare = els.map bare := by
  refine ⟨fun value => ?_, fun source els h => ?_⟩
  · have helement : (if value = [] then [] else [Element.text value]) = ofText value := by
      cases value <;> rfl
    rw [helement]
    exact parseFrom_iff.2 (.text (.of_escape value))
  · obtain ⟨els', hsplits, hmap⟩ := (parse_splits h).reprint 0
    exact ⟨els', parseFrom_iff.2 hsplits, hmap⟩

theorem parse_printed_odd :
    parse "\x7b\\\x7b\x7b\x7b\x7b1\x7d\x7d" none none = .ok [.text "\x7b\x7b\x7b",
      .expression "1" (.literal ⟨6, 7⟩ (.integer ⟨1, by decide⟩) "1") ⟨4, 9⟩] ∧
    ∃ els, parse "\x7b\\\x7b\x7b\x7b\x7b 1 \x7d\x7d" none none = .ok els ∧
      els.map bare = [.text "\x7b\x7b\x7b",
        .expression "1" (.literal ⟨0, 0⟩ (.integer ⟨1, by decide⟩) "1") ⟨0, 0⟩] := by
  have hgap : Gap.Skips ("\x7b\x7b" ++ ("1" ++ ("\x7d\x7d" ++ ([] : Text))))
      ('\x7b' :: ("\\\x7b\x7b" ++ ([] : Text))) ('\x7b' :: ("\x7b\x7b" ++ ([] : Text))) :=
    .unit (by decide) (by decide) (.escape .done)
  have hspelled : Spelled 6 "1" [⟨.number "1", "1", ⟨6, 7⟩⟩] := .single ⟨_, _, rfl, rfl⟩ rfl
  have hderives : Derives 0 [⟨.number "1", "1", ⟨6, 7⟩⟩]
      (Level.primary.phrase (.literal ⟨6, 7⟩ (.integer ⟨1, by decide⟩) "1")) := .literal rfl
  have hwithin : Within (effective none) (1 + 0) := within_none
  have hsplits := Splits.expression (o := 0) hgap hspelled hderives.lower_pipeline hwithin
    (.text .done)
  have h : parse "\x7b\\\x7b\x7b\x7b\x7b1\x7d\x7d" none none = .ok [.text "\x7b\x7b\x7b",
      .expression "1" (.literal ⟨6, 7⟩ (.integer ⟨1, by decide⟩) "1") ⟨4, 9⟩] :=
    parseFrom_iff.2 hsplits
  exact ⟨h, parse_printed.2 _ _ h⟩

end Element

end Stencil
