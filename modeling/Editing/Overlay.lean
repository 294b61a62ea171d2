import Editing.Error
import Editing.Position
import Editing.PropertyList
import Editing.Table

/-!
# Overlays

Ranges of a text that carry properties and move with the edits of the text. Queries answer with
the overlays in the order of their numbers.
-/

namespace Editing

/-- A range of a text with properties. -/
structure Overlay where
  start : Nat
  stop : Nat
  /-- Whether text inserted at the start stays outside. -/
  frontAdvance : Bool
  /-- Whether text inserted at the end comes inside. -/
  rearAdvance : Bool
  properties : PropertyList

namespace Overlay

/-- An overlay between two positions in either order, without properties. -/
def between (p q : Nat) (frontAdvance rearAdvance : Bool) : Overlay :=
  let (start, stop) := Position.ordered p q
  ⟨start, stop, frontAdvance, rearAdvance, .empty⟩

/-- The overlay moved to lie between two positions in either order. -/
def moveTo (o : Overlay) (p q : Nat) : Overlay :=
  let (start, stop) := Position.ordered p q
  { o with start := start, stop := stop }

/-- Whether no character lies inside. -/
def isEmpty (o : Overlay) : Bool :=
  o.start == o.stop

/-- Whether the character after a position lies inside. -/
def covers (o : Overlay) (pos : Nat) : Bool :=
  o.start ≤ pos && pos < o.stop

/-- Whether the overlay shares a character with a region, or is empty and lies at its start,
inside it, or at its end where the accessible text ends. -/
def meets (o : Overlay) (start stop textEnd : Nat) : Bool :=
  (start < o.stop && o.start < stop) ||
    (o.isEmpty && (start == o.stop || (stop == textEnd && o.stop == stop)))

/-- The key of the property that ranks overlays. -/
def priorityKey : String := "priority"

/-- The rank of the overlay among those that cover a character. -/
def priority (o : Overlay) : Int :=
  ((o.properties.get? priorityKey).bind Value.asInt?).getD 0

/-- The overlay after an insertion; its start never passes its end. -/
def afterInsert (o : Overlay) (pos length : Nat) : Overlay :=
  let stop := Position.afterInsert o.rearAdvance pos length o.stop
  { o with
    start := min (Position.afterInsert o.frontAdvance pos length o.start) stop
    stop := stop }

def afterDelete (o : Overlay) (start stop : Nat) : Overlay :=
  { o with
    start := Position.afterDelete start stop o.start
    stop := Position.afterDelete start stop o.stop }

end Overlay

/-- The overlays of one text. -/
abbrev Overlays := Table Overlay

namespace Overlays

/-- The numbers of the overlays that pass a test. -/
def select (os : Overlays) (p : Overlay → Bool) : List OverlayId :=
  (os.entries.filter fun e => p e.2).map Prod.fst

/-- The overlays that meet the region between two positions in either order. -/
def overRegion (os : Overlays) (p q textEnd : Nat) : List OverlayId :=
  let (start, stop) := Position.ordered p q
  os.select fun o => o.meets start stop textEnd

/-- The overlays that cover the character after a position. -/
def atPosition (os : Overlays) (pos : Nat) : List OverlayId :=
  os.select fun o => o.covers pos

def afterInsert (os : Overlays) (pos length : Nat) : Overlays :=
  os.map fun o => o.afterInsert pos length

def afterDelete (os : Overlays) (start stop : Nat) : Overlays :=
  os.map fun o => o.afterDelete start stop

/-- Of values with priorities, the one of the greatest priority, and of equals the last one. -/
def strongest : List (Int × Value) → Option (Int × Value)
  | [] => none
  | c :: cs =>
      match strongest cs with
      | none => some c
      | some d => if d.1 < c.1 then some c else some d

/-- The values that a property has in the overlays over a position, with their priorities. -/
def offers (os : Overlays) (pos : Nat) (key : String) : List (Int × Value) :=
  os.entries.filterMap fun e =>
    if e.2.covers pos then (e.2.properties.get? key).map fun v => (e.2.priority, v) else none

/-- The value of a property at a position, from the overlay of the greatest priority that has it,
and among equals from the latest. -/
def charProperty (os : Overlays) (pos : Nat) (key : String) : Option Value :=
  (strongest (os.offers pos key)).map Prod.snd

end Overlays

end Editing
