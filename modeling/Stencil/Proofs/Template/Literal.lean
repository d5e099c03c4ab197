import Stencil.Proofs.Template.Append
import Stencil.Proofs.Template.Segment

/-!
# Texts as string literals

Every text has string literals, in quotes of either kind. Main statement: `Template.render_literal`, a
literal is read as its text, and a template of that one expression renders to it, whatever braces,
quotes or backslashes the text has.
-/

namespace Stencil

/-- The letter that stands for a unit after a backslash. -/
def CodeUnit.letter? (u : CodeUnit) : Option CodeUnit :=
  if u = '\n' then some 'n'
  else if u = '\r' then some 'r'
  else if u = '\t' then some 't'
  else none

/-- How a unit is written between quotes. Quotes of the same kind and backslashes follow a backslash;
line feeds, carriage returns and tabs stand for themselves, or are named by their letters. -/
def CodeUnit.inQuotes (u quote : CodeUnit) (named : Bool) : Text :=
  if u = '\\' ∨ u = quote then ['\\', u]
  else
    match u.letter? with
    | some letter => if named then ['\\', letter] else [u]
    | none => [u]

/-- The string literal of a text. At the places that are given, line feeds, carriage returns and tabs
are named. -/
def Text.literal (quote : CodeUnit) (named : Nat → Bool) (s : Text) : Text :=
  quote :: ((s.mapIdx fun i u => u.inQuotes quote (named i)).flatten ++ [quote])

namespace Reading

variable {quote : CodeUnit}

/-- Quotes and backslashes are no letters of escapes. -/
lemma unescape_self {u : CodeUnit} (hquote : quote = '"' ∨ quote = '\'')
    (hu : u = '\\' ∨ u = quote) : unescape u = u := by
  obtain rfl | rfl := hu
  · rfl
  · obtain rfl | rfl := hquote <;> rfl

lemma unescape_letter {u letter : CodeUnit} (h : u.letter? = some letter) : unescape letter = u := by
  unfold CodeUnit.letter? at h
  split at h
  · next hu => cases h; exact hu.symm
  · split at h
    · next hu => cases h; exact hu.symm
    · split at h
      · next hu => cases h; exact hu.symm
      · cases h

/-- One more unit is read in front of a string body. -/
lemma Body.cons {w value : Text} (hquote : quote = '"' ∨ quote = '\'') (h : Body quote w value)
    (named : Bool) (u : CodeUnit) : Body quote (u.inQuotes quote named ++ w) (u :: value) := by
  have hne : quote ≠ '\\' := by obtain rfl | rfl := hquote <;> decide
  unfold CodeUnit.inQuotes
  split
  · next hu =>
    have hbody : Body quote ('\\' :: u :: w) (unescape u :: value) := .escape hne h
    rwa [unescape_self hquote hu] at hbody
  · next hu =>
    rw [not_or] at hu
    have hplain : Body quote (u :: w) (u :: value) := .unit hu.2 hu.1 h
    split
    · next letter hletter =>
      split
      · have hbody : Body quote ('\\' :: letter :: w) (unescape letter :: value) := .escape hne h
        rwa [unescape_letter hletter] at hbody
      · exact hplain
    · exact hplain

lemma body_literal (hquote : quote = '"' ∨ quote = '\'') (named : Nat → Bool) (s : Text) :
    Body quote ((s.mapIdx fun i u => u.inQuotes quote (named i)).flatten ++ [quote]) s := by
  induction s generalizing named with
  | nil => exact .close
  | cons u s ih =>
    rw [List.mapIdx_cons, List.flatten_cons, List.append_assoc]
    exact (ih fun i => named (i + 1)).cons hquote (named 0) u

/-- The literal of a text is read as the text. -/
lemma reads_literal (hquote : quote = '"' ∨ quote = '\'') (named : Nat → Bool) (s : Text) :
    Reads (s.literal quote named) (.string s) :=
  ⟨quote, _, rfl, first_iff.2 (.quote hquote (string_iff.2
    ⟨_, [], s, (List.append_nil _).symm, body_literal hquote named s, rfl⟩))⟩

end Reading

variable {quote : CodeUnit}

/-- The tokens of a literal alone. -/
lemma tokenize_literal (hquote : quote = '"' ∨ quote = '\'') (named : Nat → Bool) (s : Text) :
    tokenize (s.literal quote named) =
      .ok [⟨.string s, s.literal quote named, ⟨0, (s.literal quote named).length⟩⟩,
        Cursor.ending (s.literal quote named).length] := by
  have hspelled := Spelled.single (o := 0) (Reading.reads_literal hquote named s) rfl
  rw [Nat.zero_add] at hspelled
  exact tokenize_iff.2 hspelled.tokens_eof

/-- No blank stands at the ends of a literal. -/
lemma Text.trim_literal (hquote : quote = '"' ∨ quote = '\'') (named : Nat → Bool) (s : Text) :
    Text.trim (" " ++ s.literal quote named ++ " ") = s.literal quote named := by
  have hspace : ∀ v ∈ (" " : Text), v.isBlank := Text.forall_mem (by decide)
  have hplain : quote.isBlank = false := by obtain rfl | rfl := hquote <;> decide
  rw [List.append_assoc]
  refine Text.trim_core hspace hspace (List.cons_ne_nil _ _) ?_ ?_
  · rintro _ ⟨⟩
    exact hplain
  · rw [literal, ← List.cons_append, List.getLast?_concat]
    rintro _ ⟨⟩
    exact hplain

/-- A literal in braces is read as one expression. -/
lemma Element.parse_literal (hquote : quote = '"' ∨ quote = '\'') (named : Nat → Bool) (s : Text) :
    parse ("\x7b\x7b " ++ s.literal quote named ++ " \x7d\x7d") none none =
      .ok [.expression (s.literal quote named)
        (.literal ⟨3, 3 + (s.literal quote named).length⟩ (.string s) (s.literal quote named))
        ⟨0, (s.literal quote named).length + 6⟩] := by
  have htrim := Text.trim_literal hquote named s
  have hread := Reading.reads_literal hquote named s
  generalize s.literal quote named = w at htrim hread ⊢
  have hspace : ∀ v ∈ (" " : Text), v.isSpace := Text.forall_mem (by decide)
  have hspelled : Spelled 0 (" " ++ w ++ " ") [⟨.string s, w, ⟨1, 1 + w.length⟩⟩] :=
    .trail hspace (.pad hspace (.single hread rfl))
  have hderives : Derives 0 [⟨.string s, w, ⟨1, 1 + w.length⟩⟩]
      (Level.primary.phrase (.literal ⟨1, 1 + w.length⟩ (.string s) w)) := .literal rfl
  have halone : Expr.parse (" " ++ w ++ " ") none =
      .ok (.literal ⟨1, 1 + w.length⟩ (.string s) w) :=
    Expr.parse_spelled_iff.2 ⟨_, 0, hspelled, hderives.lower_pipeline, within_none⟩
  have hbraces := parse_of_parse halone
  have hsource : "\x7b\x7b" ++ (" " ++ w ++ " ") ++ "\x7d\x7d" =
      "\x7b\x7b " ++ w ++ " \x7d\x7d" := by
    have hopen : ("\x7b\x7b " : Text) = "\x7b\x7b" ++ " " := rfl
    have hclose : (" \x7d\x7d" : Text) = " " ++ "\x7d\x7d" := rfl
    simp only [hopen, hclose, List.append_assoc]
  have hlength : (" " ++ w ++ " ").length + 4 = w.length + 6 := by
    have hone : (" " : Text).length = 1 := rfl
    rw [List.length_append, List.length_append, hone]
    omega
  have hstop : 3 + w.length = 1 + w.length + 2 := by omega
  rw [hsource, htrim, hlength] at hbraces
  rw [hstop]
  exact hbraces

/-- A template of one element renders as the element does. -/
lemma Template.renderAll_singleton (scope : Scope) (el : Element) :
    renderAll scope [el] = renderElement scope el := by
  simp only [renderAll, pure_bind, List.append_nil, bind_pure]

/-- Every text can be written as a literal, in quotes of either kind. The literal is one token, with
the text as its value, and the template of the literal in braces renders to the text in every
context. -/
theorem Template.render_literal (hquote : quote = '"' ∨ quote = '\'') (named : Nat → Bool)
    (s : Text) :
    let w := s.literal quote named
    tokenize w = .ok [⟨.string s, w, ⟨0, w.length⟩⟩, Cursor.ending w.length] ∧
    ∀ functions, ∃ t, parse ("\x7b\x7b " ++ w ++ " \x7d\x7d") functions {} = .ok t ∧
      t.elements =
        [.expression w (.literal ⟨3, 3 + w.length⟩ (.string s) w) ⟨0, w.length + 6⟩] ∧
      ∀ c, (t.render c).runFrom {} = (.ok s, ⟨1, []⟩) := by
  intro w
  refine ⟨tokenize_literal hquote named s, fun functions => ?_⟩
  have hparse := parse_of_elements (Element.parse_literal hquote named s) functions
  refine ⟨_, hparse, rfl, fun c => ?_⟩
  rw [render, renderAll_singleton]
  rfl

theorem Template.render_literal_braces :
    let s : Text := "\x7d\x7d '\\\n\x7b\x7b"
    let w : Text := "'\x7d\x7d \\'\\\\\\n\x7b\x7b'"
    s.literal '\'' (fun _ => true) = w ∧
    tokenize w = .ok [⟨.string s, w, ⟨0, 13⟩⟩, Cursor.ending 13] ∧
    ∃ t, parse ("\x7b\x7b " ++ w ++ " \x7d\x7d") .unbound {} = .ok t ∧
      t.elements = [.expression w (.literal ⟨3, 16⟩ (.string s) w) ⟨0, 19⟩] ∧
      ∀ c, (t.render c).runFrom {} = (.ok s, ⟨1, []⟩) := by
  intro s w
  have hliteral : s.literal '\'' (fun _ => true) = w := by decide
  obtain ⟨htokens, hparse⟩ := @render_literal '\'' (.inr rfl) (fun _ => true) s
  rw [hliteral] at htokens hparse
  exact ⟨hliteral, htokens, hparse .unbound⟩

end Stencil
