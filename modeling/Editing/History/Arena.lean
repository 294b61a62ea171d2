import Editing.History.Record

/-!
# The arena of an undo log

Records live in numbered slots, each linked to the next older one. A slot that is given up goes on
a list of free slots and is used again by a later record, so a log that grows and is cut back does
not grow its storage.

All reading goes through one function: `walk` follows the links, and visits at most as many slots
as are in use.
-/

namespace Editing

/-- A record in its slot, with the slot of the record just older. -/
structure Slot where
  record : Record
  older : Option Nat
deriving Repr

/-- Slots, in use or free, and the chain of those in use. -/
structure Arena where
  slots : Array (Option Slot)
  /-- The free slots, the one to be used next first. -/
  free : List Nat
  newest : Option Nat
  /-- The number of slots in use. -/
  used : Nat
deriving Repr

namespace Arena

def empty : Arena := ⟨#[], [], none, 0⟩

instance : Inhabited Arena := ⟨empty⟩

/-- The slot with a number, if it is in use. -/
def slot? (a : Arena) (i : Nat) : Option Slot :=
  (a.slots[i]?).join

/-- Follows the links from a slot, through no more than `fuel` slots. -/
def walk (a : Arena) : Nat → Option Nat → List (Nat × Record)
  | 0, _ => []
  | _ + 1, none => []
  | fuel + 1, some i =>
      match a.slot? i with
      | none => []
      | some s => (i, s.record) :: a.walk fuel s.older

/-- The slots from one on, with their records, newest first. -/
def chainFrom (a : Arena) (start : Option Nat) : List (Nat × Record) :=
  a.walk a.used start

/-- All slots in use, with their records, newest first. -/
def chain (a : Arena) : List (Nat × Record) :=
  a.chainFrom a.newest

def records (a : Arena) : List Record :=
  a.chain.map Prod.snd

def newestRecord? (a : Arena) : Option Record :=
  (a.newest.bind a.slot?).map Slot.record

/-- Puts a record on top, in a free slot if there is one. -/
def push (a : Arena) (r : Record) : Arena :=
  let s : Option Slot := some ⟨r, a.newest⟩
  match a.free with
  | i :: free => ⟨a.slots.setIfInBounds i s, free, some i, a.used + 1⟩
  | [] => ⟨a.slots.push s, [], some a.slots.size, a.used + 1⟩

/-- Frees a slot that is in use, and tells what it held. -/
def release (a : Arena) (i : Nat) : Option (Slot × Arena) :=
  (a.slot? i).map fun s =>
    (s, { a with slots := a.slots.setIfInBounds i none, free := i :: a.free, used := a.used - 1 })

/-- Takes the newest record off, and tells which slot it had. -/
def pop (a : Arena) : Option (Nat × Record × Arena) :=
  a.newest.bind fun i =>
    (a.release i).map fun (s, rest) => (i, s.record, { rest with newest := s.older })

/-- Frees the slots from one on, following the links through no more than `fuel` slots. -/
def releaseFrom (a : Arena) : Nat → Option Nat → List Nat × Arena
  | 0, _ => ([], a)
  | _ + 1, none => ([], a)
  | fuel + 1, some i =>
      match a.release i with
      | none => ([], a)
      | some (s, rest) =>
          let (released, rest) := rest.releaseFrom fuel s.older
          (i :: released, rest)

/-- Cuts the chain behind a slot and frees all older ones. -/
def severAfter (a : Arena) (i : Nat) : List Nat × Arena :=
  match a.slot? i with
  | none => ([], a)
  | some s =>
      { a with slots := a.slots.setIfInBounds i (some { s with older := none }) }.releaseFrom
        a.used s.older

end Arena

end Editing
