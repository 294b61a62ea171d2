import Editing.Toml.Number
import Editing.Toml.Reader

/-!
# Strings

Strings between double quotes have escapes, and those between single quotes do not. With three
quotes at either end they may hold newlines, and the one right behind the opening quotes is left
out.
-/

namespace Editing.Toml

/-- The character with a code point, given by hexadecimal digits. -/
def codePoint (count : Nat) : Reader Char := do
  let ds ← Reader.exactly (fun c => (digitValue 16 c).isSome) count
  let n := numberOf 16 0 ds
  if n.isValidChar then return Char.ofNat n else failure

/-- What an escape stands for, read behind its backslash. -/
def escape : Reader Char := do
  match ← Reader.next with
  | 'b' => return '\x08'
  | 't' => return '\t'
  | 'n' => return '\n'
  | 'f' => return '\x0c'
  | 'r' => return '\r'
  | 'e' => return '\x1b'
  | '"' => return '"'
  | '\\' => return '\\'
  | 'x' => codePoint 2
  | 'u' => codePoint 4
  | 'U' => codePoint 8
  | _ => failure

/-- The rest of a string on one line, up to its closing quote. -/
def restOfLineString (quote : Char) (escapes : Bool) : Nat → Reader Text
  | 0 => failure
  | fuel + 1 => do
      let c ← Reader.next
      if c = quote then return []
      else if escapes ∧ c = '\\' then
        let e ← escape
        return e :: (← restOfLineString quote escapes fuel)
      else
        Reader.require (isPlain c)
        return c :: (← restOfLineString quote escapes fuel)

/-- The closing quotes of a string of several lines, up to two more of which belong to it. -/
def closing (quote : Char) : Reader (Option Text) := do
  if ← Reader.skip (List.replicate 5 quote) then return some [quote, quote]
  else if ← Reader.skip (List.replicate 4 quote) then return some [quote]
  else if ← Reader.skip (List.replicate 3 quote) then return some []
  else return none

/-- Whether a backslash just read is the last thing on its line; if so, all blanks and newlines
behind it are skipped. -/
def continuation (fuel : Nat) : Reader Bool := do
  let t ← get
  Reader.spaces
  if ← skipNewline then
    blankLines fuel
    return true
  else
    set t
    return false
where
  blankLines : Nat → Reader Unit
    | 0 => failure
    | fuel + 1 => do
        Reader.spaces
        if ← skipNewline then blankLines fuel else pure ()

/-- The rest of a string of several lines, up to its closing quotes. -/
def restOfBlockString (quote : Char) (escapes : Bool) : Nat → Reader Text
  | 0 => failure
  | fuel + 1 => do
      match ← closing quote with
      | some tail => return tail
      | none => do
          if ← skipNewline then return '\n' :: (← restOfBlockString quote escapes fuel)
          else
            let c ← Reader.next
            if escapes ∧ c = '\\' then
              if ← continuation fuel then restOfBlockString quote escapes fuel
              else
                let e ← escape
                return e :: (← restOfBlockString quote escapes fuel)
            else
              Reader.require (isPlain c)
              return c :: (← restOfBlockString quote escapes fuel)

/-- A string on one line of no more than `fuel` characters, read behind its opening quote. -/
def lineString (quote : Char) (fuel : Nat) : Reader String := do
  return String.ofList (← restOfLineString quote (quote == '"') fuel)

/-- A string of no more than `fuel` characters with three quotes at either end, read behind the
opening ones. -/
def blockString (quote : Char) (fuel : Nat) : Reader String := do
  let _ ← skipNewline
  return String.ofList (← restOfBlockString quote (quote == '"') fuel)

/-- A string of no more than `fuel` characters, read behind its first quote. -/
def quoted (quote : Char) (fuel : Nat) : Reader String := do
  if ← Reader.skip [quote, quote] then blockString quote fuel else lineString quote fuel

end Editing.Toml
