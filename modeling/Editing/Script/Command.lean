import Editing.Error
import Editing.Numeral
import Editing.Text.Blank
import Editing.Value

/-!
# Commands of a script

One line of a script holds one command: a word, and after one space its arguments, which blanks
separate. Lines that are blank or start with `#` hold none. In a text to insert and in the values of
properties a backslash stands before a character meant as such, and `\n` and `\t` stand for a
newline and a tab.
-/

namespace Editing

/-- A command of a script. -/
inductive Command where
  | root (name : String)
  | indirect (base name : String)
  | switch (name : String)
  | kill (name : String)
  | insert (text : Text)
  | goto (pos : Nat)
  | delete (p q : Nat)
  | erase
  | narrow (p q : Nat)
  | widen
  | readOnly (flag : Bool)
  | overlay (name : String) (p q : Nat)
  | put (overlay key : String) (value : Value)
  | deleteOverlay (name : String)
  | clearOverlays
  | property (start stop : Nat) (key : String) (old : Value)
  | undo
  | truncate
  | reclaim
  | print
  | overlays
deriving DecidableEq, Repr

/-- Why a line holds no command. -/
inductive CommandError where
  | unknown (word : String)
  | oneArgument (got : Nat)
  | twoArguments (got : Nat)
  | notPosition (arg : String) (reason : NumeralError)
  | notFlag (arg : String)
  | overlayUsage
  | putUsage
  | propertyUsage
deriving DecidableEq, Repr

namespace CommandError

def failure : CommandError → Failure
  | unknown word => .because ("unknown command `" ++ word ++ "`")
  | oneArgument got => .because ("expected one argument, got " ++ toString got)
  | twoArguments got => .because ("expected two arguments, got " ++ toString got)
  | notPosition arg reason =>
      (Failure.because reason.message).within ("`" ++ arg ++ "` is not a position")
  | notFlag arg => .because ("read-only takes true or false, not `" ++ arg ++ "`")
  | overlayUsage => .because "usage: overlay <name> <start> <end>"
  | putUsage => .because "usage: put <overlay> <key> <value>"
  | propertyUsage => .because "usage: property <begin> <end> <key> <old-value>"

end CommandError

namespace Command

/-- The text that stands for itself and its escapes. -/
def unescape : Text → Text
  | [] => []
  | '\\' :: 'n' :: t => '\n' :: unescape t
  | '\\' :: 't' :: t => '\t' :: unescape t
  | '\\' :: c :: t => c :: unescape t
  | c :: t => c :: unescape t

/-- Reads a value: a reserved word, an integer, or else a text. -/
def readValue (t : Text) : Value :=
  if t = "nil".toList then .nil
  else if t = "true".toList then .bool true
  else if t = "false".toList then .bool false
  else
    match Numeral.readInt maxInteger t with
    | .ok n => .int n
    | .error _ => .str (String.ofList (unescape t))

/-- Words with single spaces between them. -/
def joinWords (ws : List Text) : Text :=
  [' '].intercalate ws

/-- The only argument. -/
def one : List Text → Except CommandError String
  | [arg] => .ok (String.ofList arg)
  | args => .error (.oneArgument args.length)

/-- The two arguments. -/
def two : List Text → Except CommandError (Text × Text)
  | [a, b] => .ok (a, b)
  | args => .error (.twoArguments args.length)

def position (arg : Text) : Except CommandError Nat :=
  match Numeral.readNat maxPosition arg with
  | .ok n => .ok n
  | .error reason => .error (.notPosition (String.ofList arg) reason)

def twoPositions (args : List Text) : Except CommandError (Nat × Nat) := do
  let (a, b) ← two args
  let p ← position a
  let q ← position b
  return (p, q)

/-- The command of a word, given what follows the space behind it. -/
def ofWord (word rest : Text) : Except CommandError Command :=
  let args := Text.words rest
  match String.ofList word with
  | "root" => root <$> one args
  | "indirect" => do
      let (base, name) ← two args
      return .indirect (String.ofList base) (String.ofList name)
  | "switch" => switch <$> one args
  | "kill" => kill <$> one args
  | "insert" => .ok (.insert (unescape rest))
  | "goto" => do
      let arg ← one args
      goto <$> position arg.toList
  | "delete" => do
      let (p, q) ← twoPositions args
      return .delete p q
  | "erase" => .ok .erase
  | "narrow" => do
      let (p, q) ← twoPositions args
      return .narrow p q
  | "widen" => .ok .widen
  | "read-only" => do
      match ← one args with
      | "true" => return .readOnly true
      | "false" => return .readOnly false
      | arg => throw (.notFlag arg)
  | "overlay" =>
      match args with
      | [name, a, b] => do
          let p ← position a
          let q ← position b
          return .overlay (String.ofList name) p q
      | _ => .error .overlayUsage
  | "put" =>
      match args with
      | name :: key :: v :: vs =>
          .ok (.put (String.ofList name) (String.ofList key) (readValue (joinWords (v :: vs))))
      | _ => .error .putUsage
  | "delete-overlay" => deleteOverlay <$> one args
  | "clear-overlays" => .ok .clearOverlays
  | "property" =>
      match args with
      | a :: b :: key :: v :: vs => do
          let p ← position a
          let q ← position b
          return .property p q (String.ofList key) (readValue (joinWords (v :: vs)))
      | _ => .error .propertyUsage
  | "undo" => .ok .undo
  | "truncate" => .ok .truncate
  | "reclaim" => .ok .reclaim
  | "print" => .ok .print
  | "overlays" => .ok .overlays
  | other => .error (.unknown other)

/-- Whether a line holds no command: nothing but blanks, or a comment. -/
def isSkipped (line : Text) : Bool :=
  match line.trimStart with
  | [] => true
  | c :: _ => c == '#'

/-- Reads the command of a line, if it holds one. -/
def parse (line : Text) : Except CommandError (Option Command) :=
  if isSkipped line then .ok none
  else
    let line := line.trimStart
    some <$> ofWord (line.takeWhile (· != ' ')) ((line.dropWhile (· != ' ')).drop 1)

end Command

end Editing
