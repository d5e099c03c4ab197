import Stencil.Registry.Basic

/-!
# Summaries of failures

A failure on one line, and in detail with its snippet and hint. A failure that has an offset but no
snippet gets one where the source is given.
-/

namespace Stencil

/-- A failure as it is shown. -/
structure Summary where
  line : Text
  detail : Text

/-- Whether a text shows nothing. -/
def Text.isBlank (t : Text) : Bool := t.trim.isEmpty

namespace Diagnostic

/-- The diagnostic with a snippet from the given source, if it has none and an offset is known. -/
def locateIn (d : Diagnostic) (source : Option Text) : Diagnostic :=
  match source, d.index with
  | some source, some index =>
    if d.snippet.isBlank then
      let snippet := Snippet.build source index (.whole 1) d.message
      { d with
        line := some snippet.place.line.number
        column := some snippet.place.column
        snippet := snippet.text }
    else d
  | _, _ => d

/-- Where the failure lies, in words; nothing if that is unknown. -/
def placeText (d : Diagnostic) : Text :=
  match d.line, d.column with
  | some line, some column => " at line " ++ Text.ofNat line ++ ", col " ++ column.text
  | _, _ => []

/-- The code, the message and the place. -/
def headline (d : Diagnostic) : Text := "[" ++ d.category.code ++ "] " ++ d.message ++ d.placeText

/-- The summary of a diagnostic. -/
def summary (d : Diagnostic) (source : Option Text) : Summary :=
  let d := d.locateIn source
  let snippet : Text := if d.snippet.isBlank then [] else "\n\n" ++ d.snippet
  let hint : Text :=
    match d.hint with
    | some hint => if hint.isBlank then [] else "\n\nHint: " ++ hint
    | none => []
  ⟨d.headline, d.headline ++ snippet ++ hint⟩

end Diagnostic

/-- The summary of any failure; one without a diagnostic has only its message. -/
def Failure.summary (failure : Failure) (source : Option Text) : Summary :=
  match failure with
  | .diagnostic d => d.summary source
  | failure =>
    let line : Text := "Error: " ++ failure.message
    ⟨line, line⟩

end Stencil
