import Editing.Toml.Item

/-!
# Building tables

What may be added to a table depends on how it came to be. A key is written once; a table has one
header at most; a dotted key adds only to tables made by dotted keys; nothing is added to a table in
braces; and a table under a header in double brackets goes to the latest of its name.
-/

namespace Editing.Toml

/-- The item at a key. -/
def Entries.get? (es : Entries) (key : String) : Option Item :=
  es.lookup key

/-- The entries with an item at a key, in the place of the one before it or at the end. -/
def Entries.set (key : String) (item : Item) : Entries → Entries
  | [] => [(key, item)]
  | e :: es => if e.1 = key then (key, item) :: es else e :: Entries.set key item es

/-- A change of a table: of how it came to be, and of its entries. -/
abbrev TableChange := Origin → Entries → Option (Origin × Entries)

/-- Makes a change to the table at the end of a path, and makes tables on the way that are
missing. -/
def changeAt (dotted : Bool) (change : TableChange) : List String → TableChange
  | [], origin, es => change origin es
  | key :: path, origin, es => do
      match es.get? key with
      | none =>
          let made := if dotted then Origin.dotted else .implied
          let (o, inner) ← changeAt dotted change path made []
          return (origin, es.set key (.table o inner))
      | some (.table o inner) =>
          if o = .braces ∨ (dotted ∧ o = .header) then none
          else
            let (o, inner) ← changeAt dotted change path o inner
            return (origin, es.set key (.table o inner))
      | some (.tables latest earlier) =>
          let (_, latest) ← changeAt dotted change path .header latest
          return (origin, es.set key (.tables latest earlier))
      | some _ => none

/-- Writes an item at a key that must be new, in a table of the right origin: one made by dotted
keys exactly when the key is the last part of a dotted one. -/
def addNew (dotted : Bool) (key : String) (item : Item) : TableChange := fun origin es =>
  if (origin = .dotted) = (dotted = true) ∧ (es.get? key).isNone then
    some (origin, es.set key item)
  else none

/-- The last of several keys, and those before it. -/
def splitKey (keys : List String) : Option (List String × String) :=
  keys.getLast?.map fun key => (keys.dropLast, key)

/-- Writes an item at a key, dotted or not, into a table. -/
def addEntry (es : Entries) (keys : List String) (item : Item) : Option Entries := do
  let (path, key) ← splitKey keys
  let dotted := !path.isEmpty
  let (_, es) ← changeAt dotted (addNew dotted key item) path .header es
  return es

/-- Writes several items into a table. -/
def addEntries (es : Entries) (items : List (List String × Item)) : Option Entries :=
  items.foldlM (fun es x => addEntry es x.1 x.2) es

/-- Opens a table for its header: it must be new, or have been made on the way to another. -/
def openTable (key : String) (items : List (List String × Item)) : TableChange := fun origin es =>
  match es.get? key with
  | none => do
      let inner ← addEntries [] items
      return (origin, es.set key (.table .header inner))
  | some (.table .implied inner) => do
      let inner ← addEntries inner items
      return (origin, es.set key (.table .header inner))
  | some _ => none

/-- Adds a table to those whose headers stand in double brackets. -/
def appendTable (key : String) (items : List (List String × Item)) : TableChange :=
  fun origin es => do
    let added ← addEntries [] items
    match es.get? key with
    | none => return (origin, es.set key (.tables added []))
    | some (.tables latest earlier) =>
        return (origin, es.set key (.tables added (latest :: earlier)))
    | some _ => none

/-- A header with the entries below it; `repeated` tells of double brackets. -/
structure Section where
  repeated : Bool
  keys : List String
  items : List (List String × Item)

/-- Adds a section to a document. -/
def addSection (root : Entries) (s : Section) : Option Entries := do
  let (path, key) ← splitKey s.keys
  let change := if s.repeated then appendTable key s.items else openTable key s.items
  let (_, root) ← changeAt false change path .header root
  return root

end Editing.Toml
