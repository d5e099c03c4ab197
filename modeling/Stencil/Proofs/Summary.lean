import Stencil.Proofs.Grammar.Refusal
import Stencil.Proofs.Number.Order
import Stencil.Proofs.Source.Snippet
import Stencil.Proofs.Template.Fault
import Stencil.Proofs.Value.Plain
import Stencil.Summary

/-!
# The lines of a summary

A message shows at most a token or a unit of its source, and all else in it is on one line. So a summary
has the lines of what is shown, and a snippet has one more. Main statement: `SyntaxFault.summary_lines`.
Line breaks stand only in string literals and in references to nodes, which are the lexemes with quotes.
-/

namespace Stencil

namespace Text

variable {t : Text}

lemma unbroken_of_isPlain (h : ∀ u ∈ t, u.isPlain) : t.Unbroken := fun u hu =>
  ⟨CodeUnit.ne_of_isPlain (h u hu) rfl, CodeUnit.ne_of_isPlain (h u hu) rfl⟩

lemma IsWord.unbroken (h : t.IsWord) : t.Unbroken := by
  intro u hu
  constructor <;> (rintro rfl; exact absurd (h _ hu) (by decide))

end Text

/-! ## Lexemes on one line -/

/-- A lexeme with quotes: a string literal or a reference to a node. -/
def Lexeme.isQuoted : Lexeme → Bool
  | .string _ | .reference (.node _) _ => true
  | _ => false

namespace Reading

variable {u : CodeUnit} {rest : Text} {r : Reading}

lemma isQuoted_of_string (h : string u rest = .ok r) : r.lexeme.isQuoted := by
  obtain ⟨w, a, value, -, -, rfl⟩ := string_iff.1 h
  rfl

lemma isQuoted_of_node (h : reference ("node(" ++ rest) = .ok r) : r.lexeme.isQuoted := by
  obtain ⟨source, hsource, after, hrest, -⟩ | ⟨after, -, -, hnode⟩ := reference_iff.1 h
  · obtain ⟨v, w, hword, hv⟩ := word_head source hsource
    rw [hword] at hrest
    exact absurd (List.head_eq_of_cons_eq hrest).symm hv
  · obtain ⟨_, id, after, -, -, -, -, hpath⟩ := node_iff.1 hnode
    obtain ⟨-, rfl⟩ := path_iff.1 hpath
    rfl

/-- A lexeme without quotes is on one line. -/
lemma unbroken_of_first (h : first u rest = .ok r) (hr : r.lexeme.isQuoted = false) :
    Text.Unbroken (u :: rest.take r.more) := by
  obtain ⟨rfl, rfl, a, rfl⟩ | ⟨-, w, a, rfl, hmore, hshape⟩ := first_shape h
  · exact Text.forall_mem (t := "\x7d\x7d") (by decide)
  · rw [hmore, List.take_left]
    generalize hw : u :: w = lexeme at hshape
    cases hshape with
    | plain _ hplain => exact Text.unbroken_of_isPlain hplain
    | string hquote _ =>
      obtain ⟨rfl, -⟩ := List.cons.inj hw
      rw [first_quote hquote] at h
      rw [isQuoted_of_string h] at hr
      cases hr
    | dollar _ hplain => exact .cons (by decide) (Text.unbroken_of_isPlain hplain)
    | @node quote id w' =>
      have hnode : u :: w = ('$' : CodeUnit) :: ("node(" ++ quote :: (id ++ quote :: ')' :: w')) := hw
      obtain ⟨rfl, rfl⟩ := List.cons.inj hnode
      rw [List.append_assoc, first_dollar] at h
      rw [isQuoted_of_node h] at hr
      cases hr

end Reading

lemma Token.ReadIn.unbroken {source : Text} {t : Token} (h : t.ReadIn source)
    (ht : t.lexeme.isQuoted = false) : t.raw.Unbroken := by
  cases h with
  | ending => exact .nil
  | lexeme _ hfirst => exact Reading.unbroken_of_first hfirst ht

/-! ## Messages -/

namespace Text

variable {s t : Text}

/-- Words on one line, not all of them blank. -/
def IsWording (t : Text) : Prop := t.Unbroken ∧ ∃ u ∈ t, u.isBlank = false

instance (t : Text) : Decidable t.IsWording :=
  decidable_of_iff ((t.all fun u => u ≠ '\n' ∧ u ≠ '\r') ∧ t.any fun u => !u.isBlank) <| by
    simp [IsWording, Unbroken]

lemma IsWording.append (hs : s.IsWording) (ht : t.Unbroken) : (s ++ t).IsWording := by
  obtain ⟨hunbroken, u, hu, hblank⟩ := hs
  exact ⟨hunbroken.append ht, u, List.mem_append_left t hu, hblank⟩

/-- What is not blank stays when a text is trimmed. -/
lemma mem_trim {u : CodeUnit} (hu : u ∈ t) (hblank : u.isBlank = false) : u ∈ t.trim := by
  have hdrop {t : Text} (hu : u ∈ t) : u ∈ t.dropWhile CodeUnit.isBlank := by
    have hsplit : t.takeWhile CodeUnit.isBlank ++ t.dropWhile CodeUnit.isBlank = t :=
      List.takeWhile_append_dropWhile
    rw [← hsplit] at hu
    obtain hu | hu := List.mem_append.1 hu
    · rw [List.mem_takeWhile_imp hu] at hblank
      cases hblank
    · exact hu
  exact List.mem_reverse.2 (hdrop (List.mem_reverse.2 (hdrop hu)))

end Text

namespace SyntaxFault

/-- What a message shows of its source: a unit that begins no token, or a token in the wrong place. -/
def shown : SyntaxFault → Text
  | .lexical (.unexpectedUnit u) _ => [u]
  | .unexpected _ found => if found.lexeme = .eof then [] else found.raw
  | _ => []

/-- A message is wording around what it shows. -/
lemma message_eq (fault : SyntaxFault) : ∃ before after : Text,
    fault.message = before ++ (fault.shown ++ after) ∧ before.IsWording ∧ after.Unbroken := by
  have hfixed {t : Text} (ht : t.IsWording) :
      ∃ before after : Text, t = before ++ ([] ++ after) ∧ before.IsWording ∧ after.Unbroken :=
    ⟨t, [], (List.append_nil t).symm, ht, .nil⟩
  cases fault with
  | lexical fault =>
    cases fault with
    | unexpectedUnit u =>
      exact ⟨"Unexpected character \"", "\"", List.append_assoc _ _ _, by decide,
        Text.forall_mem (by decide)⟩
    | _ => exact hfixed (of_decide_eq_true rfl)
  | unexpected expected found =>
    have hexpected : Text.IsWording (expected.text ++ ", found ") := by
      cases expected with
      | mark m => cases m <;> decide
      | _ => decide
    have hquote : Text.Unbroken "'" := Text.forall_mem (by decide)
    rw [message, shown, Token.found]
    split
    · exact hfixed (hexpected.append (Text.forall_mem (by decide)))
    · refine ⟨_, "'", ?_, hexpected.append hquote, hquote⟩
      simp only [List.append_assoc]
  | _ => exact hfixed (of_decide_eq_true rfl)

/-- A message has the lines of what it shows. -/
lemma length_lines_message (fault : SyntaxFault) :
    fault.message.lines.length = fault.shown.lines.length := by
  obtain ⟨before, after, hmessage, hbefore, hafter⟩ := fault.message_eq
  rw [hmessage, Text.length_lines_between hbefore.1 hafter]

lemma message_visible (fault : SyntaxFault) : fault.message.trim.isEmpty = false := by
  obtain ⟨before, after, hmessage, ⟨-, u, hu, hblank⟩, -⟩ := fault.message_eq
  rw [List.isEmpty_eq_false_iff, hmessage]
  exact List.ne_nil_of_mem (Text.mem_trim (List.mem_append_left _ hu) hblank)

end SyntaxFault

namespace Diagnostic

variable (d : Diagnostic)

lemma unbroken_placeText : d.placeText.Unbroken := by
  have hline : Text.Unbroken " at line " := Text.forall_mem (by decide)
  have hcolumn : Text.Unbroken ", col " := Text.forall_mem (by decide)
  unfold placeText
  split
  · exact ((hline.append (Text.isWord_ofNat _).unbroken).append hcolumn).append
      (Quantity.isWord_text _).unbroken
  · exact .nil

lemma message_locateIn (given : Option Text) : (d.locateIn given).message = d.message := by
  unfold locateIn
  split
  · split <;> rfl
  · rfl

/-- The headline of a summary has the lines of the message, wherever the failure is located. -/
lemma length_lines_summary (given : Option Text) :
    (d.summary given).line.lines.length = d.message.lines.length := by
  have hcode (category : Category) : Text.Unbroken ("[" ++ category.code ++ "] ") := by
    cases category <;> exact Text.forall_mem rfl
  have hline : (d.summary given).line = (d.locateIn given).headline := rfl
  rw [hline, headline, List.append_assoc,
    Text.length_lines_between (hcode _) (unbroken_placeText _), message_locateIn]

end Diagnostic

/-! ## Faults of a source -/

/-- A lexeme that continues no expression is not expected after a literal. -/
lemma Expr.parse_surplus_one {w : Text} {l : Lexeme} (hw : Reads w l) (hl : l.isFinal = false)
    (hcontinues : l.continues 0 = false) :
    parse ("1 " ++ w) none = .error (.unexpected .ending ⟨l, w, ⟨2, 2 + w.length⟩⟩) := by
  have hgap : ∀ u ∈ (" " : Text), u.isSpace := Text.forall_mem (by decide)
  have hone : Reads "1" (.number "1") := ⟨_, _, rfl, rfl⟩
  have hspelled : Spelled 0 ("1" ++ (" " ++ w))
      [⟨.number "1", "1", ⟨0, 1⟩⟩, ⟨l, w, ⟨2, 2 + w.length⟩⟩] :=
    .cons hone rfl (tame_cons rfl) (.pad (o := 1) hgap (.single hw hl))
  have hderives : Derives 0 [⟨.number "1", "1", ⟨0, 1⟩⟩]
      (Level.primary.phrase (.literal ⟨0, 1⟩ (.integer ⟨1, by decide⟩) "1")) := .literal rfl
  exact parse_surplus hspelled.tokens_eof hderives.lower_pipeline hcontinues

namespace SyntaxFault

/-- The fault is an unexpected token of the source that has a line break in its quotes. -/
inductive ShowsBreak (source : Text) : SyntaxFault → Prop where
  | token {expected found} : found.ReadIn source → found.lexeme.isQuoted → ¬ found.raw.Unbroken →
    ShowsBreak source (.unexpected expected found)

/-- The fault is that a negative limit on length is exceeded. Such a fault has no place in the source. -/
inductive Unplaced : SyntaxFault → Prop where
  | tooLong {limit : Quantity} {size : Nat} : limit.lt (.whole 0) → Unplaced (.tooLong limit size)

/-- The faults that parsing a source ends with: those of the source, and that it is longer than allowed. -/
inductive Refuses (source : Text) : SyntaxFault → Prop where
  | raised {fault} : fault.RaisedIn source → Refuses source fault
  | tooLong {most : Quantity} : most.lt source.length → Refuses source (.tooLong most source.length)

variable {source : Text} {fault : SyntaxFault}

/-- A message shows nothing, a unit of the source that is no white space, or a token of the source. -/
lemma RaisedIn.shown_cases (h : fault.RaisedIn source) :
    (fault.shown = [] ∧ ¬ fault.ShowsBreak source) ∨
      (∃ o u rest span, fault = .lexical (.unexpectedUnit u) span ∧ source.drop o = u :: rest ∧
        u.isSpace = false) ∨
      ∃ expected found, fault = .unexpected expected found ∧ found.lexeme ≠ .eof ∧
        found.ReadIn source := by
  cases h with
  | misread h =>
    cases h with
    | @misread o u rest m hdrop hspace hfirst =>
      have hunit := (Reading.first_misreading hfirst).unit_eq
      cases hfault : m.fault with
      | unexpectedUnit v =>
        obtain rfl := hunit v hfault
        exact .inr (.inl ⟨o, v, rest, _, rfl, hdrop, hspace⟩)
      | _ => exact .inl ⟨rfl, nofun⟩
  | @token t _ ht hraises =>
    cases hraises with
    | unexpected expected =>
      by_cases heof : t.lexeme = .eof
      · refine .inl ⟨if_pos heof, ?_⟩
        rintro ⟨-, hquoted, -⟩
        rw [heof] at hquoted
        cases hquoted
      · exact .inr (.inr ⟨expected, t, rfl, heof, ht⟩)
    | _ => exact .inl ⟨rfl, nofun⟩
  | _ => exact .inl ⟨rfl, nofun⟩

lemma RaisedIn.infix_shown (h : fault.RaisedIn source) : fault.shown <:+: source := by
  obtain ⟨hshown, -⟩ | ⟨o, u, rest, span, rfl, hdrop, -⟩ | ⟨expected, found, rfl, hne, hfound⟩ :=
    h.shown_cases
  · rw [hshown]
    exact List.nil_infix
  · have hprefix : [u] <+: source.drop o := ⟨rest, hdrop.symm⟩
    exact hprefix.isInfix.trans (List.drop_suffix _ _).isInfix
  · rw [shown, if_neg hne]
    exact hfound.infix_raw

/-- What is shown of a source has a line break only in quotes. -/
lemma RaisedIn.unbroken_shown (h : fault.RaisedIn source) :
    fault.shown.Unbroken ↔ ¬ fault.ShowsBreak source := by
  obtain ⟨hshown, hno⟩ | ⟨o, u, rest, span, rfl, -, hspace⟩ | ⟨expected, found, rfl, hne, hfound⟩ :=
    h.shown_cases
  · rw [hshown]
    exact iff_of_true .nil hno
  · refine iff_of_true (.cons ?_ .nil) nofun
    rintro (rfl | rfl) <;> cases hspace
  · rw [shown, if_neg hne, iff_not_comm]
    constructor
    · rintro ⟨-, -, hbroken⟩
      exact hbroken
    · intro hbroken
      refine .token hfound ?_ hbroken
      by_contra hquoted
      exact hbroken (hfound.unbroken (Bool.eq_false_of_not_eq_true hquoted))

lemma unplaced_iff {limit : Quantity} {size : Nat} :
    (tooLong limit size).Unplaced ↔ limit.lt (.whole 0) := by
  constructor
  · rintro ⟨h⟩
    exact h
  · exact .tooLong

/-- A fault of a source is no limit on length. -/
lemma RaisedIn.not_unplaced (h : fault.RaisedIn source) : ¬ fault.Unplaced := by
  rintro ⟨⟩
  cases h with
  | misread h => cases h
  | token _ hraises => cases hraises

lemma refuses_of_parse {maxLength maxDepth : Option Quantity}
    (h : Element.parse source maxLength maxDepth = .error fault ∨
      Expr.parse source maxDepth = .error fault) : fault.Refuses source := by
  obtain h | h := h
  · obtain hraised | ⟨most, -, rfl, hlt⟩ := Element.parse_raisedIn h
    · exact .raised hraised
    · exact .tooLong hlt
  · exact .raised (Expr.parse_raisedIn h)

namespace Refuses

variable (h : fault.Refuses source)

include h

lemma infix_shown : fault.shown <:+: source := by
  cases h with
  | raised hraised => exact hraised.infix_shown
  | tooLong => exact List.nil_infix

lemma unbroken_shown : fault.shown.Unbroken ↔ ¬ fault.ShowsBreak source := by
  cases h with
  | raised hraised => exact hraised.unbroken_shown
  | tooLong => exact iff_of_true .nil nofun

/-- A fault has an index that counts unless a negative limit on length is exceeded. -/
lemma index_iff : (Quantity.whole 0).le fault.index ↔ ¬ fault.Unplaced := by
  cases h with
  | raised hraised =>
    obtain ⟨i, -, hindex⟩ := hraised.liesWithin
    refine iff_of_true ?_ hraised.not_unplaced
    rw [hindex]
    exact Quantity.whole_le (Nat.zero_le i)
  | tooLong hlt =>
    obtain ⟨hnan, -⟩ := Quantity.le_whole_iff.1 (Quantity.le_of_lt hlt)
    rw [unplaced_iff, Bool.not_eq_true]
    exact Quantity.whole_le_iff.trans (and_iff_right hnan)

/-- The snippet has one line more than what the message shows, if the fault has a place. -/
lemma lines_snippet : fault.Unplaced ∧ (fault.diagnostic source).snippet = [] ∨
    ¬ fault.Unplaced ∧
      (fault.diagnostic source).snippet.lines.length = fault.shown.lines.length + 1 := by
  by_cases hunplaced : fault.Unplaced
  · have hindex := Bool.eq_false_iff.2 fun hle => h.index_iff.1 hle hunplaced
    obtain ⟨_, _, hdiagnostic⟩ := diagnostic_unlocated source hindex
    exact .inl ⟨hunplaced, congrArg Diagnostic.snippet hdiagnostic⟩
  · obtain ⟨_, _, -, hdiagnostic⟩ := diagnostic_located source (h.index_iff.2 hunplaced)
    refine .inr ⟨hunplaced, ?_⟩
    rw [hdiagnostic, ← fault.length_lines_message]
    exact Snippet.length_lines_build source fault.index fault.length fault.message_visible

end Refuses

/-- The message of a fault that reading a source ends with shows at most a part of the source. The summary
has as many lines as this part, and the snippet has one more, but for a negative limit on length, of which
there is no snippet. The part has one line unless it is a token with a line break in its quotes. So only
then the summary is not on one line, and else the snippet has two lines. -/
theorem summary_lines {maxLength maxDepth : Option Quantity}
    (h : Element.parse source maxLength maxDepth = .error fault ∨
      Expr.parse source maxDepth = .error fault) :
    let d := fault.diagnostic source
    fault.shown <:+: source ∧
    (∀ given, ((Failure.diagnostic d).summary given).line.lines.length = fault.shown.lines.length) ∧
    (fault.Unplaced ∧ d.snippet = [] ∨
      ¬ fault.Unplaced ∧ d.snippet.lines.length = fault.shown.lines.length + 1) ∧
    (∀ given, ((Failure.diagnostic d).summary given).line.Unbroken ↔ ¬ fault.ShowsBreak source) ∧
    (d.snippet.lines.length = 2 ↔ ¬ fault.ShowsBreak source ∧ ¬ fault.Unplaced) := by
  intro d
  have hrefuses := refuses_of_parse h
  have hshown : fault.shown.lines.length = 1 ↔ ¬ fault.ShowsBreak source :=
    Text.unbroken_iff.symm.trans hrefuses.unbroken_shown
  have hsummary (given : Option Text) :
      ((Failure.diagnostic d).summary given).line.lines.length = fault.shown.lines.length := by
    rw [← fault.length_lines_message, ← message_diagnostic source fault]
    exact d.length_lines_summary given
  refine ⟨hrefuses.infix_shown, hsummary, hrefuses.lines_snippet, fun given => ?_, ?_⟩
  · rw [Text.unbroken_iff, hsummary, hshown]
  · rw [← hshown]
    obtain ⟨hunplaced, hnil⟩ | ⟨hplaced, hlength⟩ := hrefuses.lines_snippet
    · rw [hnil]
      exact iff_of_false nofun fun h => h.2 hunplaced
    · rw [hlength]
      constructor
      · exact fun h => ⟨Nat.succ.inj h, hplaced⟩
      · exact fun h => congrArg Nat.succ h.1

/-- A carriage return with its line feed, in the identifier of a node, is one break. A negative limit
leaves no snippet. -/
theorem summary_lines_node :
    let source : Text := "1 $node('a\r\nb')"
    let fault : SyntaxFault :=
      .unexpected .ending ⟨.reference (.node "a\r\nb") [], "$node('a\r\nb')", ⟨2, 15⟩⟩
    let negative : SyntaxFault := .tooLong (.whole (-1)) 1
    Expr.parse source none = .error fault ∧
    ((Failure.diagnostic (fault.diagnostic source)).summary none).line.lines.length = 2 ∧
    (fault.diagnostic source).snippet.lines.length = 3 ∧ fault.ShowsBreak source ∧
    Element.parse "a" (some (.whole (-1))) none = .error negative ∧
    ((Failure.diagnostic (negative.diagnostic "a")).summary none).line.Unbroken ∧
    (negative.diagnostic "a").snippet = [] := by
  intro source fault negative
  have hparse : Expr.parse source none = .error fault :=
    Expr.parse_surplus_one (w := "$node('a\r\nb')") ⟨_, _, rfl, rfl⟩ rfl rfl
  have hnegative : Element.parse "a" (some (.whole (-1))) none = .error negative := rfl
  obtain ⟨-, hlines, hrows, hone, -⟩ := @summary_lines source fault none none (.inr hparse)
  obtain ⟨-, -, hnone, hone', -⟩ :=
    @summary_lines "a" negative (some (.whole (-1))) none (.inl hnegative)
  have htwo : fault.shown.lines.length = 2 := by decide
  have hplaced {expected found} : ¬ Unplaced (.unexpected expected found) := nofun
  have hshows {limit size} : ¬ ShowsBreak "a" (.tooLong limit size) := nofun
  have hbreak : fault.ShowsBreak source := by
    by_contra hno
    have hunbroken := Text.unbroken_iff.1 ((hone none).2 hno)
    rw [hlines, htwo] at hunbroken
    cases hunbroken
  refine ⟨hparse, (hlines none).trans htwo, ?_, hbreak, hnegative, (hone' none).2 hshows, ?_⟩
  · obtain ⟨hunplaced, -⟩ | ⟨-, hthree⟩ := hrows
    · exact absurd hunplaced hplaced
    · exact hthree.trans (congrArg Nat.succ htwo)
  · obtain ⟨-, hnil⟩ | ⟨hplaced, -⟩ := hnone
    · exact hnil
    · exact absurd (.tooLong rfl) hplaced

/-- A string literal in the wrong place takes two lines of the summary, and the snippet has three. -/
theorem summary_two_lines :
    let source : Text := "1 'a\nb'"
    let fault : SyntaxFault := .unexpected .ending ⟨.string "a\nb", "'a\nb'", ⟨2, 7⟩⟩
    let d := fault.diagnostic source
    let line : Text := "[E_PARSE] Expected end of expression, found ''a\nb'' at line 1, col 3"
    Expr.parse source none = .error fault ∧
    ((Failure.diagnostic d).summary none).line = line ∧ ¬ line.Unbroken ∧
    d.snippet = "1 'a\n  ^^ --- Expected end of expression, found ''a\nb''" ∧
    d.snippet.lines.length ≠ 2 := by
  intro source fault d line
  have hparse : Expr.parse source none = .error fault :=
    Expr.parse_surplus_one (w := "'a\nb'") ⟨_, _, rfl, rfl⟩ rfl rfl
  have hsnippet : d.snippet = "1 'a\n  ^^ --- Expected end of expression, found ''a\nb''" := by decide
  have hline : ((Failure.diagnostic d).summary none).line = line := by decide
  have hthree : d.snippet.lines.length = 3 := by
    rw [hsnippet]
    decide
  refine ⟨hparse, hline, ?_, hsnippet, ?_⟩
  · rw [Text.unbroken_iff]
    decide
  · rw [hthree]
    decide

end SyntaxFault

end Stencil
