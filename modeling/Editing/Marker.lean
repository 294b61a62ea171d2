import Editing.History.Record
import Editing.Position
import Editing.Table

/-!
# Markers

Positions in a text that move with its edits. The point and the bounds of every view are markers,
which is what keeps views of one text apart; the others belong to users, and only for those does
an undo log keep what a deletion did to them.
-/

namespace Editing

/-- Whom a marker belongs to. -/
inductive MarkerKind where
  | user
  | view
deriving DecidableEq, Repr

/-- A position in a text that moves with its edits. -/
structure Marker where
  position : Nat
  /-- Whether text inserted at the very position moves the marker. -/
  advances : Bool
  kind : MarkerKind
deriving DecidableEq, Repr

namespace Marker

def afterInsert (m : Marker) (pos length : Nat) : Marker :=
  { m with position := Position.afterInsert m.advances pos length m.position }

def afterDelete (m : Marker) (start stop : Nat) : Marker :=
  { m with position := Position.afterDelete start stop m.position }

/-- What has to be subtracted from the marker's position once a deleted text is back: deletion
leaves an advancing marker to be carried to the end of the text put back, and any other at its
start. -/
def displacement (m : Marker) (start stop : Nat) : Int :=
  (if m.advances then (stop : Int) else start) - m.position

end Marker

/-- The markers of one text. -/
abbrev Markers := Table Marker

namespace Markers

def position? (ms : Markers) (id : MarkerId) : Option Nat :=
  (ms.get? id).map Marker.position

/-- Moves a marker, if there is one with the number. -/
def setPosition (ms : Markers) (id : MarkerId) (pos : Nat) : Markers :=
  ms.modify id fun m => { m with position := pos }

/-- Sets whether a marker advances, if there is one with the number. -/
def setAdvances (ms : Markers) (id : MarkerId) (advances : Bool) : Markers :=
  ms.modify id fun m => { m with advances := advances }

/-- Whether a user's marker lies at the position. -/
def hasUserAt (ms : Markers) (pos : Nat) : Bool :=
  ms.values.any fun m => m.kind == .user && m.position == pos

def afterInsert (ms : Markers) (pos length : Nat) : Markers :=
  ms.map fun m => m.afterInsert pos length

def afterDelete (ms : Markers) (start stop : Nat) : Markers :=
  ms.map fun m => m.afterDelete start stop

/-- What a deletion does to the user's markers from `start` through `stop`, for those that putting
the text back does not restore by itself. -/
def adjustments (ms : Markers) (start stop : Nat) : List MarkerAdjustment :=
  ms.entries.filterMap fun (id, m) =>
    if m.kind = .user ∧ start ≤ m.position ∧ m.position ≤ stop ∧ m.displacement start stop ≠ 0 then
      some ⟨id, m.displacement start stop⟩
    else none

end Markers

end Editing
