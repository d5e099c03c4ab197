import Stencil.Number.Basic
import Stencil.Text.Basic

/-!
# Calendar

Instants as milliseconds since the start of 1970, and their ISO 8601 text in UTC on the Gregorian
calendar.
-/

namespace Stencil

/-- An instant, a hundred million days from the start of 1970 at most. -/
structure Instant where
  milliseconds : Int
  bounded : milliseconds.natAbs ≤ 8640000000000000
deriving DecidableEq

/-- A day of the Gregorian calendar. -/
structure Date where
  year : Int
  month : Nat
  day : Nat
deriving DecidableEq

namespace Date

/-- The date a number of days after the start of 1970. Years are counted from March, so the leap day
ends a year, and 400 years have 146097 days. -/
def ofDays (days : Int) : Date :=
  let shifted := days + 719468
  let era := shifted / 146097
  let ofEra := (shifted % 146097).toNat
  let year := (ofEra - ofEra / 1460 + ofEra / 36524 - ofEra / 146096) / 365
  let ofYear := ofEra - (365 * year + year / 4 - year / 100)
  let shiftedMonth := (5 * ofYear + 2) / 153
  let day := ofYear - (153 * shiftedMonth + 2) / 5 + 1
  let month := if shiftedMonth < 10 then shiftedMonth + 3 else shiftedMonth - 9
  ⟨year + era * 400 + (if month ≤ 2 then 1 else 0), month, day⟩

/-- Four digits of the year, or a sign and six where four do not hold it. -/
def yearText (d : Date) : Text :=
  if 0 ≤ d.year ∧ d.year ≤ 9999 then .padded 4 d.year.natAbs
  else (if d.year < 0 then "-" else "+") ++ Text.padded 6 d.year.natAbs

/-- Year, month and day. -/
def text (d : Date) : Text :=
  d.yearText ++ "-" ++ Text.padded 2 d.month ++ "-" ++ Text.padded 2 d.day

end Date

namespace Instant

/-- The instant of a number of milliseconds, whose fraction is dropped. -/
def ofNumber? (x : Number) : Option Instant := do
  let ms ← x.truncate?
  if h : ms.natAbs ≤ 8640000000000000 then some ⟨ms, h⟩ else none

/-- Milliseconds of a day. -/
def dayLength : Int := 86400000

/-- The day of the instant. -/
def date (t : Instant) : Date := .ofDays (t.milliseconds / dayLength)

/-- Milliseconds since the day began. -/
def ofDay (t : Instant) : Nat := (t.milliseconds % dayLength).toNat

/-- Hours, minutes and seconds of the day. -/
def clockText (t : Instant) : Text :=
  Text.padded 2 (t.ofDay / 3600000) ++ ":" ++ Text.padded 2 (t.ofDay / 60000 % 60) ++ ":" ++
    Text.padded 2 (t.ofDay / 1000 % 60)

/-- Date and time with milliseconds, in UTC. -/
def iso (t : Instant) : Text :=
  t.date.text ++ "T" ++ t.clockText ++ "." ++ Text.padded 3 (t.ofDay % 1000) ++ "Z"

/-- Whole seconds since the start of 1970, rounded down. -/
def seconds (t : Instant) : Whole :=
  ⟨t.milliseconds / 1000, by have := t.bounded; simp only [exactLimit]; omega⟩

end Instant

end Stencil
