import Editing.Toml.Item
import Editing.Toml.Moment

/-!
# Words

The values that are written as one word: truth values, numbers, dates and times. Blanks between the
pieces of a word belong to it, such as the space between a date and a time.
-/

namespace Editing.Toml

/-- What a word stands for. -/
def scalar? (t : Text) : Option Item :=
  if t = "true".toList then some (.boolean true)
  else if t = "false".toList then some (.boolean false)
  else
    match integer? t with
    | some n => some (.integer n)
    | none =>
        match float? t with
        | some finite => some (.float finite)
        | none => if isMoment t then some .moment else none

/-- The characters in the pieces of words: all but blanks, the newline, and those that set the parts
of a document apart. -/
def inWord (c : Char) : Bool :=
  !(" \t\r\n#=,[]\x7b\x7d".toList.contains c)

/-- Whether a word goes on behind blanks with a character: not with a quote, which begins a
string. -/
def resumesWord (c : Char) : Bool := inWord c && c != '"' && c != '\''

/-- A word, of no more than `fuel` pieces with blanks between them, and the blanks behind it. -/
def word : Nat → Reader Text
  | 0 => failure
  | fuel + 1 => do
      let piece ← Reader.takeWhile inWord
      let blanks ← Reader.takeWhile isSpace
      if (← Reader.peek).any resumesWord then return piece ++ blanks ++ (← word fuel)
      else return piece

/-- A value that is one word. -/
def scalar (fuel : Nat) : Reader Item := do
  StateT.lift (scalar? (← word fuel))

end Editing.Toml
