import Editing.History.Limits
import Editing.Numeral
import Editing.Toml.Document

/-!
# Configuration

The limits of truncation come from the table `undo` of a configuration file. What the file does not
set keeps its default, and a file that is malformed or sets something to the wrong kind of value
sets nothing.
-/

namespace Editing

structure Config where
  limit : Nat
  strongLimit : Nat
  outerLimit : Option Nat
deriving DecidableEq, Repr

/-- A configuration, with the text of the file that set it. -/
structure LoadedConfig where
  config : Config
  source : Option String

namespace Config

def default : Config :=
  ⟨Limits.default.soft, Limits.default.strong, Limits.default.outer⟩

instance : Inhabited Config := ⟨default⟩

/-- A number of units of storage. -/
def amount? : Toml.Item → Option Nat
  | .integer (some n) => if 0 ≤ n ∧ n ≤ maxPosition then some n.toNat else none
  | _ => none

/-- An outer limit: a number of units, or a word for none. -/
def outerLimit? : Toml.Item → Option (Option Nat)
  | .text s => if s = "none" ∨ s = "unlimited" then some none else none
  | item => some <$> amount? item

/-- The settings after one entry of the table. -/
def set (c : Config) (key : String) (item : Toml.Item) : Option Config :=
  match key with
  | "limit" => do return { c with limit := ← amount? item }
  | "strong_limit" => do return { c with strongLimit := ← amount? item }
  | "outer_limit" => do return { c with outerLimit := ← outerLimit? item }
  | _ => if item.fits then some c else none

def setAll (c : Config) (entries : Toml.Entries) : Option Config :=
  entries.foldlM (fun c e => c.set e.1 e.2) c

/-- The settings from values in their order. -/
def setInOrder (c : Config) (items : List Toml.Item) : Option Config :=
  c.setAll (["limit", "strong_limit", "outer_limit"].zip items)

/-- The settings of the value of `undo`: a table, or the values in their order. A date, which has no
settings in it, is let pass. -/
def ofUndo : Toml.Item → Option Config
  | .table _ entries => default.setAll entries
  | .array items => default.setInOrder items
  | .tables .. => none
  | .moment => some default
  | _ => none

/-- The settings of a document. -/
def ofDocument (entries : Toml.Entries) : Option Config :=
  entries.foldlM (fun c e =>
    if e.1 = "undo" then ofUndo e.2 else if e.2.fits then some c else none) default

/-- The configuration in a file with the given text, if there is one. -/
def load (content : Option String) : LoadedConfig :=
  match content with
  | none => ⟨default, none⟩
  | some source =>
      match (Toml.parse source.toList).bind ofDocument with
      | none => ⟨default, none⟩
      | some config => ⟨config, some source⟩

def limits (c : Config) : Except Error Limits :=
  Limits.ofNumbers c.limit c.strongLimit c.outerLimit none

/-- What is done about a group of changes that passes the outer limit while a script is played: all
of the log is discarded. -/
def discardAll : Handler := .act [.clear] true

/-- The limits under which a script is played. -/
def scriptLimits (c : Config) : Except Failure Limits :=
  match Limits.ofNumbers c.limit c.strongLimit c.outerLimit (some discardAll) with
  | .ok limits => .ok limits
  | .error e => .error ((Failure.because e.message).within "invalid [undo] limits")

end Config

end Editing
