import ScriptSemantics.Toml.Text

/-!
# Dates and times of TOML

A date has a day that its month has in its year. A date may be followed by a time, and that by an
offset from universal time; a time may also stand alone. A minute may have a second numbered sixty.
-/
namespace ScriptSemantics.Toml

structure Date where
  year : Nat
  month : Nat
  day : Nat
  deriving DecidableEq, Repr

structure Time where
  hour : Nat
  minute : Nat
  second : Nat
  /-- The digits after the point, if there is one. -/
  fraction : List Char
  deriving DecidableEq, Repr

/-- An offset from universal time in minutes. -/
structure Offset where
  minutes : Int
  deriving DecidableEq, Repr

/-- A date, a time or both, with an offset only where there are both. -/
structure DateTime where
  date : Option Date
  time : Option Time
  offset : Option Offset
  deriving DecidableEq, Repr

/-- The days of a month. Every fourth year is a leap year, of the centuries every fourth. -/
def daysInMonth (year month : Nat) : Nat :=
  if month = 2 then
    if year % 4 = 0 ∧ (year % 100 ≠ 0 ∨ year % 400 = 0) then 29 else 28
  else if month = 4 ∨ month = 6 ∨ month = 9 ∨ month = 11 then 30
  else 31

namespace Scan

/-- A number of exactly so many digits within bounds. -/
def boundedNumber (digits least most : Nat) : Scan Nat := do
  let value := digitsValue 10 (← exactly Char.isDigit digits)
  if least ≤ value ∧ value ≤ most then pure value else failure

def date : Scan Date := do
  let year ← boundedNumber 4 0 9999
  char '-'
  let month ← boundedNumber 2 1 12
  char '-'
  let day ← boundedNumber 2 1 (daysInMonth year month)
  pure ⟨year, month, day⟩

/-- The digits of a second after a point. -/
def secondFraction : Scan (List Char) := do
  char '.'
  run1 Char.isDigit

def time : Scan Time := do
  let hour ← boundedNumber 2 0 23
  char ':'
  let minute ← boundedNumber 2 0 59
  char ':'
  let second ← boundedNumber 2 0 60
  let fraction ← maybe secondFraction
  pure ⟨hour, minute, second, fraction.getD []⟩

/-- Hours and minutes, in minutes. -/
def hoursAndMinutes : Scan Nat := do
  let hours ← boundedNumber 2 0 23
  char ':'
  let minutes ← boundedNumber 2 0 59
  pure (hours * 60 + minutes)

/-- The letter for universal time in either case, or hours and minutes with a sign. -/
def offset : Scan Offset := do
  match ← satisfy fun c => c == 'Z' || c == 'z' || c == '+' || c == '-' with
  | '+' => pure ⟨(← hoursAndMinutes : Nat)⟩
  | '-' => pure ⟨-((← hoursAndMinutes : Nat) : Int)⟩
  | _ => pure ⟨0⟩

/-- A time after a date. -/
def timeAfterDate : Scan (Time × Option Offset) := do
  let _ ← satisfy fun c => c == 'T' || c == 't' || c == ' '
  let time ← time
  let offset ← maybe offset
  pure (time, offset)

def dateTime : Scan DateTime :=
  (do
    let date ← date
    match ← maybe timeAfterDate with
    | some (time, offset) => pure ⟨some date, some time, offset⟩
    | none => pure ⟨some date, none, none⟩)
  <|> (do pure ⟨none, some (← time), none⟩)

end Scan

end ScriptSemantics.Toml
