import Editing.Text

/-!
# Readers

A reader takes something off the front of a text, or fails.
-/

namespace Editing.Toml

/-- Whether a character is a blank within a line. -/
def isSpace (c : Char) : Bool := c == ' ' || c == '\t'

/-- What reads something from the front of a text and leaves the rest, or fails. -/
abbrev Reader := StateT Text Option

namespace Reader

/-- The next character, left where it is. -/
def peek : Reader (Option Char) := do
  return (← get).head?

def next : Reader Char := do
  match ← get with
  | c :: t => do
      set t
      return c
  | [] => failure

/-- Whether the text goes on as given. -/
def startsWith (t : Text) : Reader Bool := do
  return t.isPrefixOf (← get)

/-- Skips the given characters if the text goes on with them, and tells whether it does. -/
def skip (t : Text) : Reader Bool := do
  if ← startsWith t then
    modify (·.drop t.length)
    return true
  else return false

/-- Requires the given characters. -/
def expect (t : Text) : Reader Unit := do
  if ← skip t then pure () else failure

/-- Requires a condition. -/
def require (b : Bool) : Reader Unit :=
  if b then pure () else failure

/-- The longest run of characters that pass a test. -/
def takeWhile (p : Char → Bool) : Reader Text := do
  let t ← get
  set (t.dropWhile p)
  return t.takeWhile p

def spaces : Reader Unit := do
  let _ ← takeWhile isSpace
  pure ()

/-- So many characters that pass a test. -/
def exactly (p : Char → Bool) : Nat → Reader Text
  | 0 => pure []
  | n + 1 => do
      let c ← next
      require (p c)
      return c :: (← exactly p n)

/-- Reads a whole text. -/
def whole {α : Type} (reader : Reader α) (t : Text) : Option α :=
  match StateT.run reader t with
  | some (a, []) => some a
  | _ => none

end Reader

/-- Whether a character may stand in comments and strings; control characters may not, but for the
tab. -/
def isPlain (c : Char) : Bool :=
  c == '\t' || (0x20 ≤ c.toNat && c.toNat != 0x7F)

/-- Skips a newline if there is one. -/
def skipNewline : Reader Bool := do
  if ← Reader.skip ['\n'] then return true else Reader.skip ['\r', '\n']

/-- Skips a comment, up to the end of its line, if there is one. -/
def skipComment : Reader Unit := do
  if ← Reader.skip ['#'] then
    let _ ← Reader.takeWhile isPlain
    pure ()
  else pure ()

/-- Skips blanks, comments and newlines, in no more than `fuel` lines. -/
def skipLines : Nat → Reader Unit
  | 0 => failure
  | fuel + 1 => do
      Reader.spaces
      skipComment
      if ← skipNewline then skipLines fuel else pure ()

/-- What may stand behind an expression on its line. -/
def endOfLine : Reader Unit := do
  Reader.spaces
  skipComment
  if ← skipNewline then pure ()
  else Reader.require (← Reader.peek).isNone

end Editing.Toml
