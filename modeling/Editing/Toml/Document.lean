import Editing.Toml.Quoted
import Editing.Toml.Scalar
import Editing.Toml.Table

/-!
# Configuration documents

A TOML document is read line by line: entries, and headers that start new tables. The whole document
is refused if any part of it is malformed or contradicts another.
-/

namespace Editing.Toml

/-- Whether a character can stand in a key without quotes. -/
def inBareKey (c : Char) : Bool :=
  isDigit c || ('a' ≤ c && c ≤ 'z') || ('A' ≤ c && c ≤ 'Z') || c == '_' || c == '-'

/-- One part of a key, of no more than `fuel` characters. -/
def simpleKey (fuel : Nat) : Reader String := do
  match ← Reader.peek with
  | some '"' => do
      Reader.expect ['"']
      lineString '"' fuel
  | some '\'' => do
      Reader.expect ['\'']
      lineString '\'' fuel
  | _ => do
      let word ← Reader.takeWhile inBareKey
      Reader.require (!word.isEmpty)
      return String.ofList word

/-- How many parts a key may have. -/
def maxKeyParts : Nat := 80

/-- The parts of a key with dots between them, no more than `count` of them, and the blanks behind
it. -/
def keyParts (fuel : Nat) : Nat → Reader (List String)
  | 0 => failure
  | count + 1 => do
      let key ← simpleKey fuel
      Reader.spaces
      if ← Reader.skip ['.'] then
        Reader.spaces
        return key :: (← keyParts fuel count)
      else return [key]

/-- A key, dotted or not. -/
def dottedKey (fuel : Nat) : Reader (List String) := keyParts fuel maxKeyParts

/-- How deep arrays and tables in braces may be nested. -/
def maxDepth : Nat := 80

mutual

/-- A value, with no more than `depth` levels of brackets and braces. -/
def value (depth : Nat) : Nat → Reader Item
  | 0 => failure
  | fuel + 1 => do
      match ← Reader.peek with
      | some '"' => do
          Reader.expect ['"']
          return .text (← quoted '"' (fuel + 1))
      | some '\'' => do
          Reader.expect ['\'']
          return .text (← quoted '\'' (fuel + 1))
      | some '[' => do
          Reader.expect ['[']
          Reader.require (0 < depth)
          return .array (← arrayItems (depth - 1) fuel)
      | some '\x7b' => do
          Reader.expect ['\x7b']
          Reader.require (0 < depth)
          let items ← bracedItems (depth - 1) fuel
          let entries ← StateT.lift (addEntries [] items)
          return .table .braces entries
      | _ => scalar (fuel + 1)

/-- The items of an array, up to its closing bracket. -/
def arrayItems (depth : Nat) : Nat → Reader (List Item)
  | 0 => failure
  | fuel + 1 => do
      skipLines (fuel + 1)
      if ← Reader.skip [']'] then return []
      else
        let item ← value depth fuel
        skipLines (fuel + 1)
        if ← Reader.skip [','] then return item :: (← arrayItems depth fuel)
        else
          Reader.expect [']']
          return [item]

/-- The entries of a table in braces, up to the closing one. Unlike elsewhere, the parts of an entry
may stand on different lines. -/
def bracedItems (depth : Nat) : Nat → Reader (List (List String × Item))
  | 0 => failure
  | fuel + 1 => do
      skipLines (fuel + 1)
      if ← Reader.skip ['\x7d'] then return []
      else
        let keys ← dottedKey (fuel + 1)
        skipLines (fuel + 1)
        Reader.expect ['=']
        skipLines (fuel + 1)
        let item ← value depth fuel
        skipLines (fuel + 1)
        if ← Reader.skip [','] then return (keys, item) :: (← bracedItems depth fuel)
        else
          Reader.expect ['\x7d']
          return [(keys, item)]

end

/-- A key and its value, on one line as far as the value allows. -/
def entry (fuel : Nat) : Reader (List String × Item) := do
  let keys ← dottedKey fuel
  Reader.expect ['=']
  Reader.spaces
  let item ← value maxDepth fuel
  return (keys, item)

/-- A header, read behind its first bracket. -/
def sectionHeader (fuel : Nat) : Reader (Bool × List String) := do
  let repeated ← Reader.skip ['[']
  Reader.spaces
  let keys ← dottedKey fuel
  Reader.expect (if repeated then [']', ']'] else [']'])
  endOfLine
  return (repeated, keys)

/-- The entries up to the next header or the end. -/
def entriesBelow : Nat → Reader (List (List String × Item))
  | 0 => failure
  | fuel + 1 => do
      skipLines (fuel + 1)
      match ← Reader.peek with
      | none => return []
      | some '[' => return []
      | some _ => do
          let item ← entry fuel
          endOfLine
          return item :: (← entriesBelow fuel)

/-- The sections up to the end. -/
def sections : Nat → Reader (List Section)
  | 0 => failure
  | fuel + 1 => do
      match ← Reader.peek with
      | none => return []
      | some _ => do
          Reader.expect ['[']
          let (repeated, keys) ← sectionHeader (fuel + 1)
          let items ← entriesBelow (fuel + 1)
          return ⟨repeated, keys, items⟩ :: (← sections fuel)

/-- The mark that may stand before a document. -/
def byteOrderMark : Char := '\uFEFF'

/-- The entries of a whole document. -/
def parse (t : Text) : Option Entries := do
  let t := if t.head? = some byteOrderMark then t.drop 1 else t
  let fuel := 2 * t.length + 2
  let (items, parts) ← Reader.whole (do return (← entriesBelow fuel, ← sections fuel)) t
  let root ← addEntries [] items
  parts.foldlM addSection root

end Editing.Toml
