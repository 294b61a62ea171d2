import Editing.Error
import Editing.Text
import Editing.Value

/-!
# Change records

What an undo log keeps of a change: enough to take it back, at a cost that truncation charges. The
records of one command are a group, and boundaries lie between groups.
-/

namespace Editing

/-- How far a deletion moved a marker, to be taken back once the deleted text has returned. -/
structure MarkerAdjustment where
  marker : MarkerId
  amount : Int
deriving DecidableEq, Repr

/-- A record of one change. -/
inductive Record where
  /-- So many characters were inserted at the position. -/
  | insert (pos length : Nat)
  /-- The text was deleted from the position, which moved the markers. -/
  | delete (pos : Nat) (text : Text) (markers : List MarkerAdjustment)
  /-- The property had the value over the range before it changed. -/
  | property (start stop : Nat) (key : String) (value : Value)
  /-- The end of a group. -/
  | boundary
deriving DecidableEq, Repr

namespace Record

def isBoundary : Record → Bool
  | boundary => true
  | _ => false

/-- The cost of the link that every record takes. -/
def linkCost : Nat := 16

/-- The cost of what a record holds. -/
def payloadCost : Nat := 16

/-- The cost of a saved text, besides one for each character. -/
def textCost : Nat := 31

/-- The storage that truncation charges for the record. -/
def cost : Record → Nat
  | boundary => linkCost
  | insert .. => linkCost + payloadCost
  | property .. => linkCost + payloadCost
  | delete _ text markers =>
      linkCost + payloadCost + textCost + text.length + markers.length * (linkCost + payloadCost)

def totalCost : List Record → Nat
  | [] => 0
  | r :: rs => r.cost + totalCost rs

/-- The number of groups in a list of records, where `inGroup` tells whether one is under way. -/
def countGroups : Bool → List Record → Nat
  | _, [] => 0
  | inGroup, r :: rs =>
      if r.isBoundary then countGroups false rs
      else if inGroup then countGroups true rs
      else countGroups true rs + 1

@[simp] theorem totalCost_nil : totalCost [] = 0 := rfl

@[simp] theorem totalCost_cons (r : Record) (rs : List Record) :
    totalCost (r :: rs) = r.cost + totalCost rs := rfl

@[simp] theorem totalCost_append (rs ss : List Record) :
    totalCost (rs ++ ss) = totalCost rs + totalCost ss := by
  induction rs with
  | nil => simp
  | cons r rs ih => simp [ih, Nat.add_assoc]

end Record

end Editing
