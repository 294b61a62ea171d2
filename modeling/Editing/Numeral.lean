import Editing.Text

/-!
# Decimal numerals

Whole numbers are read from one or more decimal digits, with a plus sign allowed in front and
leading zeros allowed. A numeral is refused at its first character that is no digit, or as soon as
the digits read so far exceed the greatest number allowed.
-/

namespace Editing

/-- Why a text is no numeral, or none in the range asked for. -/
inductive NumeralError where
  | empty
  | invalidDigit
  | tooLarge
  | tooSmall
deriving DecidableEq, Repr

namespace NumeralError

def message : NumeralError → String
  | empty => "cannot parse integer from empty string"
  | invalidDigit => "invalid digit found in string"
  | tooLarge => "number too large to fit in target type"
  | tooSmall => "number too small to fit in target type"

end NumeralError

namespace Numeral

def digit? (c : Char) : Option Nat :=
  if '0' ≤ c ∧ c ≤ '9' then some (c.toNat - '0'.toNat) else none

/-- Reads digits after those that made `n`; `excess` is the cause when the number passes `limit`. -/
def readDigits (limit : Nat) (excess : NumeralError) (n : Nat) : Text → Except NumeralError Nat
  | [] => .ok n
  | c :: cs =>
      match digit? c with
      | none => .error .invalidDigit
      | some d =>
          if limit < 10 * n + d then .error excess else readDigits limit excess (10 * n + d) cs

/-- Reads at least one digit. -/
def readMagnitude (limit : Nat) (excess : NumeralError) (t : Text) : Except NumeralError Nat :=
  if t.isEmpty then .error .invalidDigit else readDigits limit excess 0 t

/-- Reads a natural number up to `limit`. -/
def readNat (limit : Nat) : Text → Except NumeralError Nat
  | [] => .error .empty
  | '+' :: t => readMagnitude limit .tooLarge t
  | t => readMagnitude limit .tooLarge t

/-- Reads an integer from `-(limit + 1)` up to `limit`. -/
def readInt (limit : Nat) : Text → Except NumeralError Int
  | [] => .error .empty
  | '-' :: t => (readMagnitude (limit + 1) .tooSmall t).map fun n => -(n : Int)
  | '+' :: t => (readMagnitude limit .tooLarge t).map fun n => (n : Int)
  | t => (readMagnitude limit .tooLarge t).map fun n => (n : Int)

end Numeral

/-- The greatest position that can be written, in 64 bits without a sign. -/
def maxPosition : Nat := 0xFFFFFFFFFFFFFFFF

/-- The greatest integer that can be the value of a property, in 64 bits with a sign. -/
def maxInteger : Nat := 0x7FFFFFFFFFFFFFFF

end Editing
