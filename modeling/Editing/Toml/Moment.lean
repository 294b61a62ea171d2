import Editing.Toml.Number
import Editing.Toml.Reader

/-!
# Dates and times

A date, a time of day, or both, the latter perhaps with an offset from universal time. Only dates
that the calendar has are read.
-/

namespace Editing.Toml

/-- The number of days of a month. -/
def daysIn (year month : Nat) : Nat :=
  if month = 2 then
    if year % 4 = 0 ∧ (year % 100 ≠ 0 ∨ year % 400 = 0) then 29 else 28
  else if month = 4 ∨ month = 6 ∨ month = 9 ∨ month = 11 then 30
  else 31

/-- A number of so many digits. -/
def digits (n : Nat) : Reader Nat := do
  return numberOf 10 0 (← Reader.exactly isDigit n)

/-- A date. -/
def date : Reader Unit := do
  let year ← digits 4
  Reader.expect ['-']
  let month ← digits 2
  Reader.expect ['-']
  let day ← digits 2
  Reader.require (1 ≤ month && month ≤ 12 && 1 ≤ day && day ≤ daysIn year month)

/-- A time of day; the seconds may be missing. -/
def time : Reader Unit := do
  let hour ← digits 2
  Reader.expect [':']
  let minute ← digits 2
  Reader.require (hour ≤ 23 && minute ≤ 59)
  if ← Reader.skip [':'] then
    let second ← digits 2
    Reader.require (second ≤ 60)
    if ← Reader.skip ['.'] then
      let fraction ← Reader.takeWhile isDigit
      Reader.require (!fraction.isEmpty)
    else pure ()
  else pure ()

/-- The offset of a time from universal time, if there is one. -/
def offset : Reader Unit := do
  match ← Reader.peek with
  | none => pure ()
  | some 'Z' => Reader.expect ['Z']
  | some 'z' => Reader.expect ['z']
  | some _ => do
      let sign ← Reader.next
      Reader.require (sign == '+' || sign == '-')
      let hour ← digits 2
      Reader.expect [':']
      let minute ← digits 2
      Reader.require (hour ≤ 23 && minute ≤ 59)

/-- A date with or without a time and its offset. -/
def dateTime : Reader Unit := do
  date
  match ← Reader.peek with
  | none => pure ()
  | some _ => do
      let separator ← Reader.next
      Reader.require (separator == 'T' || separator == 't' || separator == ' ')
      time
      offset

/-- Whether a text is a date, a time, or both. -/
def isMoment (t : Text) : Bool :=
  (Reader.whole dateTime t).isSome || (Reader.whole time t).isSome

end Editing.Toml
