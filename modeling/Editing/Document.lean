import Editing.History.Truncation
import Editing.Marker
import Editing.Overlay
import Editing.Path

/-!
# Documents

A text with all that its views share: markers, overlays, the undo log, the ticks that count its
changes, and the file it visits. Every change of the text is one of three, and takes the markers,
the overlays, the log and the ticks along.
-/

namespace Editing

/-- The markers that hold the point of a view and the bounds of its accessible part. -/
structure ViewMarkers where
  point : MarkerId
  low : MarkerId
  high : MarkerId
deriving DecidableEq, Repr

/-- The point of a view and the bounds of its accessible part. -/
structure Extent where
  point : Nat
  low : Nat
  high : Nat
deriving DecidableEq, Repr

/-- A change of a text or of its properties. -/
inductive Change where
  | insert (pos : Nat) (text : Text)
  | delete (start stop : Nat)
  /-- A property over the range is about to change from the value. -/
  | property (start stop : Nat) (key : String) (value : Value)

namespace Change

/-- The error of a change outside a text of the given length. -/
def rangeError (length : Nat) : Change → Option Error
  | insert pos _ => if length < pos then some (.outOfRange pos pos 0 length) else none
  | delete start stop =>
      if stop < start ∨ length < stop then some (.outOfRange start stop 0 length) else none
  | property start stop _ _ =>
      if stop < start ∨ length < stop then some (.outOfRange start stop 0 length) else none

/-- Whether there is nothing to insert or to delete. -/
def isVoid : Change → Bool
  | insert _ text => text.isEmpty
  | delete start stop => start == stop
  | property .. => false

end Change

/-- A text with all that its views share. -/
structure Document where
  text : Text
  markers : Markers
  overlays : Overlays
  log : UndoLog
  /-- Counts the changes. -/
  tick : Nat
  /-- The tick at the last change of the text itself. -/
  charsTick : Nat
  /-- The tick when the text was last declared unmodified. -/
  saveTick : Nat
  file : Option Path
  locked : Bool

namespace Document

def empty : Document := ⟨[], .empty, .empty, .empty, 0, 0, 0, none, false⟩

instance : Inhabited Document := ⟨empty⟩

def length (d : Document) : Nat := d.text.length

/-- Whether a change has been made since the document was last declared unmodified. -/
def isModified (d : Document) : Bool := d.saveTick < d.tick

/-- Adds the markers of a view: only its upper bound takes in what is inserted right there. -/
def addView (d : Document) (ids : ViewMarkers) (x : Extent) : Document :=
  { d with
    markers := ((d.markers.insert ids.point ⟨x.point, false, .view⟩).insert
      ids.low ⟨x.low, false, .view⟩).insert ids.high ⟨x.high, true, .view⟩ }

def removeView (d : Document) (ids : ViewMarkers) : Document :=
  { d with markers := ((d.markers.erase ids.point).erase ids.low).erase ids.high }

/-- The point and the bounds that a view's markers give, in order and within the text. -/
def extent (d : Document) (ids : ViewMarkers) : Extent :=
  let low := min ((Markers.position? d.markers ids.low).getD 0) d.length
  let high := Position.clamp low d.length ((Markers.position? d.markers ids.high).getD d.length)
  ⟨Position.clamp low high ((Markers.position? d.markers ids.point).getD low), low, high⟩

def setPosition (d : Document) (id : MarkerId) (pos : Nat) : Document :=
  { d with markers := Markers.setPosition d.markers id pos }

/-- Moves the bounds of a view, and its point with them. -/
def setExtent (d : Document) (ids : ViewMarkers) (x : Extent) : Document :=
  ((d.setPosition ids.low x.low).setPosition ids.high x.high).setPosition ids.point x.point

/-- Inserts a text: markers and overlays are shifted, the insertion is recorded, and both ticks
are raised. -/
def insert (d : Document) (pos : Nat) (s : Text) : Document :=
  { d with
    text := d.text.insert pos s
    markers := Markers.afterInsert d.markers pos s.length
    overlays := Overlays.afterInsert d.overlays pos s.length
    log := d.log.recordInsert pos s.length
    tick := d.tick + 1
    charsTick := d.tick + 1 }

/-- The record of a deletion; the user's markers that it moves are noted while records are
accepted. -/
def deletionRecord (d : Document) (start stop : Nat) : Record :=
  .delete start (d.text.slice start stop)
    (if d.log.acceptsRecords then Markers.adjustments d.markers start stop else [])

/-- Deletes a range: markers and overlays are shifted, the deletion is recorded, and both ticks
are raised. -/
def delete (d : Document) (start stop : Nat) : Document :=
  { d with
    text := d.text.remove start stop
    markers := Markers.afterDelete d.markers start stop
    overlays := Overlays.afterDelete d.overlays start stop
    log := d.log.record (d.deletionRecord start stop)
    tick := d.tick + 1
    charsTick := d.tick + 1 }

/-- Records what a property was before it changes, and raises the tick of all changes. -/
def noteProperty (d : Document) (start stop : Nat) (key : String) (value : Value) : Document :=
  { d with log := d.log.record (.property start stop key value), tick := d.tick + 1 }

def apply (d : Document) : Change → Document
  | .insert pos text => d.insert pos text
  | .delete start stop => d.delete start stop
  | .property start stop key value => d.noteProperty start stop key value

/-- Takes back what a deletion did to a marker, if the marker is still there. -/
def readjust (d : Document) (a : MarkerAdjustment) : Document :=
  match Markers.position? d.markers a.marker with
  | none => d
  | some pos => d.setPosition a.marker (max 0 (min (d.length : Int) (pos - a.amount))).toNat

/-- The adjustments whose markers still lie where the deletion left them. -/
def readjustable (d : Document) (pos : Nat) (as : List MarkerAdjustment) :
    List MarkerAdjustment :=
  as.filter fun a => Markers.position? d.markers a.marker == some pos

end Document

end Editing
