import Editing.Text
import Editing.Text.Unprinted

/-!
# Quoted texts

A text between double quotes, on one line. The quote and the backslash are escaped, and a character
that has no printed form of its own is spelled out.
-/

namespace Editing.Text

/-- How one character is written between the quotes. -/
def spell (c : Char) : Text :=
  if c = '"' then ['\\', '"']
  else if c = '\\' then ['\\', '\\']
  else if c = '\n' then ['\\', 'n']
  else if c = '\t' then ['\\', 't']
  else if c = '\r' then ['\\', 'r']
  else if c = '\x00' then ['\\', '0']
  else if isUnprinted c then "\\u\x7b".toList ++ Nat.toDigits 16 c.toNat ++ ['\x7d']
  else [c]

/-- The text in quotes. -/
def quoted (t : Text) : Text :=
  '"' :: t.flatMap spell ++ ['"']

end Editing.Text
