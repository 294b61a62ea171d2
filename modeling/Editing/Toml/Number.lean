import Editing.Text

/-!
# Numbers

Underscores may stand between the digits of a number. A word is an integer if it begins like one and
its underscores are where they may be; whether its digits make a number is a second question, put
only where the integer is used.
-/

namespace Editing.Toml

/-- The digit value of a character in a base up to 16. -/
def digitValue (base : Nat) (c : Char) : Option Nat :=
  let value? :=
    if '0' ≤ c ∧ c ≤ '9' then some (c.toNat - '0'.toNat)
    else if 'a' ≤ c ∧ c ≤ 'f' then some (c.toNat - 'a'.toNat + 10)
    else if 'A' ≤ c ∧ c ≤ 'F' then some (c.toNat - 'A'.toNat + 10)
    else none
  value?.filter (· < base)

/-- Whether a character is a digit in a base up to 16. -/
def isDigitIn (base : Nat) (c : Char) : Bool := (digitValue base c).isSome

def isDigit (c : Char) : Bool := isDigitIn 10 c

/-- The number that digits make behind those that made `n`. -/
def numberOf (base n : Nat) : Text → Nat
  | [] => n
  | c :: t => numberOf base (base * n + (digitValue base c).getD 0) t

/-- The number that a text stands for, if there is something in it, all of it digits. -/
def number? (base : Nat) (t : Text) : Option Nat :=
  if !t.isEmpty && t.all (isDigitIn base) then some (numberOf base 0 t) else none

/-- A number with the sign it has. -/
def signed (negative : Bool) (n : Nat) : Int :=
  if negative then -(n : Int) else n

/-- Whether a text has a zero in front of something else. -/
def hasNeedlessZero (t : Text) : Bool := t.head? = some '0' && t ≠ ['0']

/-- Whether a text has a minus in front, and the text behind its sign, if it has one. -/
def splitSign : Text → Bool × Text
  | '-' :: t => (true, t)
  | '+' :: t => (false, t)
  | t => (false, t)

/-! ## Underscores -/

/-- Whether each underscore has a digit before and behind it, in a text behind a digit or not. -/
def underscoresFitBehind (base : Nat) (digit : Bool) : Text → Bool
  | [] => true
  | '_' :: t => digit && t.head?.any (isDigitIn base) && underscoresFitBehind base false t
  | c :: t => underscoresFitBehind base (isDigitIn base c) t

/-- Whether each underscore in a text stands between two digits. -/
def underscoresFit (base : Nat) (t : Text) : Bool := underscoresFitBehind base false t

def withoutUnderscores (t : Text) : Text := t.filter (· != '_')

/-! ## Integers -/

/-- Whether a text, without its sign, begins like a decimal integer: with digits up to its end or an
underscore, without a needless zero in front, and with neither a space nor a part of a float behind
them. -/
def beginsDecimal (t : Text) : Bool :=
  let rest := t.dropWhile isDigit
  !t.isEmpty && (rest.isEmpty || rest.head? = some '_') && !hasNeedlessZero t
    && !rest.any fun c => c == ' ' || c == '.' || c == 'e' || c == 'E'

/-- A decimal integer, perhaps with a sign. The digits next to its underscores may be hexadecimal
ones, but then they make no number. -/
def decimal? (t : Text) : Option (Option Int) :=
  let (negative, body) := splitSign t
  if beginsDecimal body && underscoresFit 16 body then
    some ((number? 10 (withoutUnderscores body)).map (signed negative))
  else none

/-- The digits of an integer in a base that is written in front of them. There may be none, but then
they make no number. -/
def based? (base : Nat) (t : Text) : Option (Option Int) :=
  if underscoresFit base t && (withoutUnderscores t).all (isDigitIn base) then
    some ((number? base (withoutUnderscores t)).map (signed false))
  else none

/-- An integer, and what number it is, if its digits make one. -/
def integer? : Text → Option (Option Int)
  | '0' :: 'x' :: t => based? 16 t
  | '0' :: 'o' :: t => based? 8 t
  | '0' :: 'b' :: t => based? 2 t
  | t => decimal? t

/-! ## Floats -/

/-- The least number that rounds to no finite double. -/
def doubleBound : Nat := Nat.pow 2 1024 - Nat.pow 2 970

/-- Whether `m * 10 ^ e` rounds to a finite double. -/
def isFinite (m : Nat) (e : Int) : Bool :=
  let size : Int := (Nat.toDigits 10 m).length + e
  if m = 0 ∨ size < 300 then true
  else if 320 < size then false
  else if e < 0 then m < doubleBound * Nat.pow 10 e.natAbs
  else m * Nat.pow 10 e.natAbs < doubleBound

/-- The exponent of a float, with its sign. -/
def exponent? (t : Text) : Option Int :=
  let (negative, digits) := splitSign t
  (number? 10 digits).map (signed negative)

/-- Whether a text without underscores and sign is a float, and if so, whether it is finite. -/
def plainFloat? (t : Text) : Option Bool := do
  let lead := t.takeWhile isDigit
  let rest := t.dropWhile isDigit
  let (decimals, rest) ← match rest with
    | '.' :: r =>
        let decimals := r.takeWhile isDigit
        if decimals.isEmpty then none else some (decimals, r.dropWhile isDigit)
    | _ => some ([], rest)
  let exponent ← match rest with
    | 'e' :: r => exponent? r
    | 'E' :: r => exponent? r
    | [] => if decimals.isEmpty then none else some 0
    | _ => none
  let digits ← if lead.isEmpty ∨ hasNeedlessZero lead then none else number? 10 (lead ++ decimals)
  return isFinite digits (exponent - decimals.length)

/-- Whether a text is a float, and if so, whether it is finite or said not to be. -/
def float? (t : Text) : Option Bool :=
  let (_, body) := splitSign t
  if body = "inf".toList ∨ body = "nan".toList then some true
  else if underscoresFit 10 body then plainFloat? (withoutUnderscores body)
  else none

end Editing.Toml
