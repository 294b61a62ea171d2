import Editing.Script.Command

/-!
# The written form of commands

How a command is written on a line of a script: its word and its arguments, with one space before
each. Backslashes, newlines and tabs in texts are escaped, and in values spaces too.
-/

namespace Editing

namespace Command

/-- A character of a text to be inserted. -/
def escapeChar (c : Char) : Text :=
  if c = '\\' then ['\\', '\\']
  else if c = '\n' then ['\\', 'n']
  else if c = '\t' then ['\\', 't']
  else [c]

/-- The written form of a text to be inserted. -/
def escape (t : Text) : Text :=
  t.flatMap escapeChar

/-- The written form of a text that is the value of a property. -/
def escapeValue (t : Text) : Text :=
  t.flatMap fun c => if c = ' ' then ['\\', ' '] else escapeChar c

def writePosition (n : Nat) : Text :=
  Nat.toDigits 10 n

def writeValue : Value → Text
  | .nil => "nil".toList
  | .bool true => "true".toList
  | .bool false => "false".toList
  | .int n => if n < 0 then '-' :: writePosition n.natAbs else writePosition n.natAbs
  | .str s => escapeValue s.toList
  | .symbol name => escapeValue name.toList

def word : Command → String
  | root _ => "root"
  | indirect .. => "indirect"
  | switch _ => "switch"
  | kill _ => "kill"
  | insert _ => "insert"
  | goto _ => "goto"
  | delete .. => "delete"
  | erase => "erase"
  | narrow .. => "narrow"
  | widen => "widen"
  | readOnly _ => "read-only"
  | overlay .. => "overlay"
  | put .. => "put"
  | deleteOverlay _ => "delete-overlay"
  | clearOverlays => "clear-overlays"
  | property .. => "property"
  | undo => "undo"
  | truncate => "truncate"
  | reclaim => "reclaim"
  | print => "print"
  | overlays => "overlays"

/-- The written arguments of a command. -/
def arguments : Command → List Text
  | root name => [name.toList]
  | indirect base name => [base.toList, name.toList]
  | switch name => [name.toList]
  | kill name => [name.toList]
  | insert text => [escape text]
  | goto pos => [writePosition pos]
  | delete p q => [writePosition p, writePosition q]
  | narrow p q => [writePosition p, writePosition q]
  | readOnly flag => [(if flag then "true" else "false").toList]
  | overlay name p q => [name.toList, writePosition p, writePosition q]
  | put name key value => [name.toList, key.toList, writeValue value]
  | deleteOverlay name => [name.toList]
  | property start stop key old =>
      [writePosition start, writePosition stop, key.toList, writeValue old]
  | erase | widen | clearOverlays | undo | truncate | reclaim | print | overlays => []

/-- The line that a command is written on. -/
def written (c : Command) : Text :=
  c.word.toList ++ c.arguments.flatMap (' ' :: ·)

end Command

end Editing
