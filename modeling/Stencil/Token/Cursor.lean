import Stencil.SyntaxFault
import Stencil.Text.Blank

/-!
# Cursors

A cursor stands in a source and gives its tokens one by one. Main statement: a token that is not
final leaves less text than there was (`Cursor.length_next`), so a source has finitely many tokens.
-/

namespace Stencil

/-- A place in a source of `size` units: its offset and the text from there on. -/
structure Cursor where
  size : Nat
  offset : Nat
  rest : Text

/-- The tokens of a source in order, and how they end: with a final token, or with the fault that
keeps the next one from being read. -/
structure Tokens where
  list : List Token
  last : Except SyntaxFault Token

namespace Cursor

/-- The cursor at an offset of a source. -/
def start (source : Text) (offset : Nat) : Cursor := ⟨source.length, offset, source.drop offset⟩

/-- The cursor `n` units further. -/
def advance (c : Cursor) (n : Nat) : Cursor := ⟨c.size, c.offset + n, c.rest.drop n⟩

/-- Passes over the white space between tokens. -/
def skip (c : Cursor) : Cursor := c.advance (c.rest.takeWhile CodeUnit.isSpace).length

/-- The token that begins at the cursor, and where the cursor stands after it. -/
def read (c : Cursor) : Except SyntaxFault Token × Cursor :=
  match c.rest with
  | [] => (.ok ⟨.eof, [], ⟨c.size, c.size⟩⟩, c)
  | u :: rest =>
    match Reading.first u rest with
    | .ok r =>
      (.ok ⟨r.lexeme, u :: rest.take r.more, ⟨c.offset, c.offset + (r.more + 1)⟩⟩,
        c.advance (r.more + 1))
    | .error m => (.error (.lexical m.fault (m.span.shift c.offset)), c.advance m.passed)

/-- The next token and where the cursor stands after it. After a fault the cursor stands where
reading stopped. -/
def next (c : Cursor) : Except SyntaxFault Token × Cursor := c.skip.read

theorem length_read {c c' : Cursor} {t : Token} (h : c.read = (.ok t, c'))
    (ht : t.lexeme.isFinal = false) : c'.rest.length < c.rest.length := by
  unfold read at h
  split at h
  next => simp only [Prod.mk.injEq, Except.ok.injEq] at h; simp [← h.1, Lexeme.isFinal] at ht
  next u rest hrest =>
    split at h
    next r _ =>
      simp only [Prod.mk.injEq] at h
      simp only [← h.2, advance, hrest, List.length_drop, List.length_cons]
      omega
    next => simp at h

theorem length_next {c c' : Cursor} {t : Token} (h : c.next = (.ok t, c'))
    (ht : t.lexeme.isFinal = false) : c'.rest.length < c.rest.length := by
  have := length_read h ht
  simp only [skip, advance, List.length_drop] at this
  omega

/-- The tokens from the cursor on. -/
def tokens (c : Cursor) : Tokens :=
  match _h : c.next with
  | (.error fault, _) => ⟨[], .error fault⟩
  | (.ok t, c') =>
    if _ht : t.lexeme.isFinal then ⟨[], .ok t⟩
    else
      let more := c'.tokens
      ⟨t :: more.list, more.last⟩
termination_by c.rest.length
decreasing_by exact length_next _h (by simpa using _ht)

end Cursor

/-- All tokens of a source, the final one included. -/
def tokenize (source : Text) : Except SyntaxFault (List Token) :=
  let all := (Cursor.start source 0).tokens
  all.last.map fun last => all.list ++ [last]

end Stencil
