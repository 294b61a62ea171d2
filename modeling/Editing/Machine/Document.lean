import Editing.Document
import Editing.Machine.Word

/-!
# Documents in words of the machine

The edits of a document with every sum and every difference of positions taken in words of the
machine: the shifts of markers and overlays, the distances that a deletion notes, the lengths of
merged insertions, and the places that an undo puts markers back to. Such an edit has no result when
a word does not hold one of these numbers.
-/

namespace Editing

/-! ## Tables -/

/-- Replaces the value of every entry that can be replaced. -/
def Table.replaceEntries {α β : Type} (f : α → Option β) :
    List (Nat × α) → Option (List (Nat × β))
  | [] => some []
  | (k, a) :: es => do
      let b ← f a
      let rest ← replaceEntries f es
      return (k, b) :: rest

theorem Table.keys_replaceEntries {α β : Type} {f : α → Option β} {es : List (Nat × α)}
    {es' : List (Nat × β)} (h : replaceEntries f es = some es') :
    es'.map Prod.fst = es.map Prod.fst := by
  induction es generalizing es' with
  | nil =>
      cases h
      rfl
  | cons e es ih =>
      obtain ⟨k, a⟩ := e
      rw [replaceEntries] at h
      obtain ⟨b, -, h⟩ := Option.bind_eq_some_iff.mp h
      obtain ⟨rest, hrest, h⟩ := Option.bind_eq_some_iff.mp h
      cases h
      rw [List.map_cons, List.map_cons, ih hrest]

/-- The table with every value replaced, if all of them can be. -/
def Table.replace? {α β : Type} (t : Table α) (f : α → Option β) : Option (Table β) :=
  match h : replaceEntries f t.entries with
  | none => none
  | some es => some ⟨es, by
      have hkeys := t.keys_ascending
      rwa [keys, ← keys_replaceEntries h, List.pairwise_map] at hkeys⟩

/-! ## Positions, markers and overlays -/

namespace Position

def afterInsert? (advances : Bool) (pos length p : Nat) : Option Nat :=
  if pos < p ∨ (p = pos ∧ advances) then Machine.add p length else some p

/-- Where a position goes when the text of this length from `start` up to `stop` is deleted. -/
def afterDelete? (start stop length p : Nat) : Option Nat :=
  if stop < p then Machine.sub p length else some (if start < p then start else p)

end Position

namespace Marker

def afterInsert? (m : Marker) (pos length : Nat) : Option Marker := do
  let p ← Position.afterInsert? m.advances pos length m.position
  return { m with position := p }

def afterDelete? (m : Marker) (start stop length : Nat) : Option Marker := do
  let p ← Position.afterDelete? start stop length m.position
  return { m with position := p }

/-- What a deletion does to a marker in its range, as a distance with a sign. -/
def displacement? (m : Marker) (start stop : Nat) : Option Int := do
  let anchor ← Machine.signed (if m.advances then stop else start)
  let position ← Machine.signed m.position
  Machine.signedSub anchor position

end Marker

namespace Markers

def afterInsert? (ms : Markers) (pos length : Nat) : Option Markers :=
  ms.replace? fun m => m.afterInsert? pos length

def afterDelete? (ms : Markers) (start stop : Nat) : Option Markers := do
  let length ← Machine.sub stop start
  ms.replace? fun m => m.afterDelete? start stop length

/-- What a deletion does to the user's markers among those given. -/
def adjustmentsOf? (start stop : Nat) : List (MarkerId × Marker) → Option (List MarkerAdjustment)
  | [] => some []
  | (id, m) :: ms =>
      if m.kind = .user ∧ start ≤ m.position ∧ m.position ≤ stop then do
        let amount ← m.displacement? start stop
        let rest ← adjustmentsOf? start stop ms
        return if amount ≠ 0 then ⟨id, amount⟩ :: rest else rest
      else adjustmentsOf? start stop ms

def adjustments? (ms : Markers) (start stop : Nat) : Option (List MarkerAdjustment) :=
  adjustmentsOf? start stop ms.entries

end Markers

namespace Overlay

def afterInsert? (o : Overlay) (pos length : Nat) : Option Overlay := do
  let start ← Position.afterInsert? o.frontAdvance pos length o.start
  let stop ← Position.afterInsert? o.rearAdvance pos length o.stop
  return { o with start := min start stop, stop := stop }

def afterDelete? (o : Overlay) (start stop length : Nat) : Option Overlay := do
  let first ← Position.afterDelete? start stop length o.start
  let last ← Position.afterDelete? start stop length o.stop
  return { o with start := first, stop := last }

end Overlay

namespace Overlays

def afterInsert? (os : Overlays) (pos length : Nat) : Option Overlays :=
  os.replace? fun o => o.afterInsert? pos length

def afterDelete? (os : Overlays) (start stop : Nat) : Option Overlays := do
  let length ← Machine.sub stop start
  os.replace? fun o => o.afterDelete? start stop length

end Overlays

/-! ## Logs and documents -/

/-- Appends an insertion, which the log may refuse before anything is computed. -/
def UndoLog.recordInsert? (l : UndoLog) (pos length : Nat) : Option UndoLog :=
  if l.suspended then some l
  else
    match l.arena.bind Arena.pop with
    | some (i, .insert start n, rest) => do
        let stop ← Machine.add start n
        if stop = pos then do
          let total ← Machine.add n length
          let cursor := if l.cursor = .resume i then .exhausted else l.cursor
          return { l with arena := some rest, cursor := cursor }.record (.insert start total)
        else return l.record (.insert pos length)
    | _ => some (l.record (.insert pos length))

namespace Document

/-- Inserts a text, whose length is by how much it has made the whole text longer. -/
def insert? (d : Document) (pos : Nat) (s : Text) : Option Document := do
  let text := d.text.insert pos s
  let length ← Machine.sub text.length d.length
  let markers ← Markers.afterInsert? d.markers pos length
  let overlays ← Overlays.afterInsert? d.overlays pos length
  let log ← d.log.recordInsert? pos length
  return { d with
    text := text
    markers := markers
    overlays := overlays
    log := log
    tick := d.tick + 1
    charsTick := d.tick + 1 }

def delete? (d : Document) (start stop : Nat) : Option Document := do
  let adjustments ← if d.log.acceptsRecords then Markers.adjustments? d.markers start stop
    else some []
  let markers ← Markers.afterDelete? d.markers start stop
  let overlays ← Overlays.afterDelete? d.overlays start stop
  return { d with
    text := d.text.remove start stop
    markers := markers
    overlays := overlays
    log := d.log.record (.delete start (d.text.slice start stop) adjustments)
    tick := d.tick + 1
    charsTick := d.tick + 1 }

/-- Makes a change. One of a property needs no sum and no difference. -/
def changed? (d : Document) : Change → Option Document
  | .insert pos text => d.insert? pos text
  | .delete start stop => d.delete? start stop
  | .property start stop key value => some (d.noteProperty start stop key value)

/-- Takes back what a deletion did to a marker, if the marker is still there. The difference is
taken as it is where it is exempt. -/
def readjust? (exempt : Marker → MarkerAdjustment → Bool) (d : Document) (a : MarkerAdjustment) :
    Option Document :=
  match d.markers.get? a.marker with
  | none => some d
  | some m => do
      let restored ←
        if exempt m a then some (m.position - a.amount)
        else do
          let position ← Machine.signed m.position
          Machine.signedSub position a.amount
      let length ← Machine.signed d.length
      let pos ← Machine.unsigned (max 0 (min length restored))
      return d.setPosition a.marker pos

def readjustAll? (exempt : Marker → MarkerAdjustment → Bool) :
    List MarkerAdjustment → Document → Option Document
  | [], d => some d
  | a :: as, d => do
      let d ← d.readjust? exempt a
      readjustAll? exempt as d

end Document

/-- Whether a position, taken into the text, starts a line. The first one has none before it. -/
def Text.isLineStart? (t : Text) (pos : Nat) : Option Bool :=
  let pos := min pos t.length
  if pos = 0 then some true
  else do
    let before ← Machine.sub pos 1
    return t[before]? == some '\n'

end Editing
