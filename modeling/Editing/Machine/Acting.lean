import Editing.Machine.Document
import Editing.Session.Operation

/-!
# Operations in words of the machine

The acts that compute positions, with every sum and difference taken in words of the machine. Such
an act has no result at all, not even a failure, when a word does not hold a number; all other acts
are as they are. A length that is too great for a note of a property is the one sum that the act
itself refuses.
-/

namespace Editing

namespace Machine

/-- What changes a session and gives an answer or fails, as far as words hold its numbers. -/
abbrev Act := ExceptT Error (StateT Session Option)

/-- An act that computes no position. -/
def plainly {α : Type} (act : Editing.Act α) : Act α :=
  fun s => some (act.run s)

/-- A number, if a word holds it. -/
def compute {α : Type} (n : Option α) : Act α :=
  fun s => n.map fun a => (.ok a, s)

def attempt {α : Type} (act : Act α) : Act (Except Error α) :=
  ExceptT.mk (Except.ok <$> act.run)

/-- The markers whose distances are taken back in words without exception. -/
def noneExempt : Marker → MarkerAdjustment → Bool :=
  fun _ _ => false

/-- Exempts markers that advance though the deletion has noted a negative amount for them, as it does
for markers that do not advance. -/
def turnedExempt : Marker → MarkerAdjustment → Bool :=
  fun m a => m.advances && decide (a.amount < 0)

def changeDocument (root : ViewId) (f : Document → Option Document) : Act Unit := do
  match (← plainly get).editor.documents.get? root with
  | none => pure ()
  | some d => do
      let c ← compute (f d)
      plainly (Act.changeDocument root fun _ => c)

def changeShown (view : ViewId) (f : Document → Option Document) : Act Unit := do
  let _ ← plainly (Act.ask (·.document view))
  let root ← plainly (Act.ask (·.rootOf view))
  changeDocument root f

def makeChange (view : ViewId) (c : Change) : Act Unit := do
  let d ← plainly (Act.ask (·.document view))
  let root ← plainly (Act.ask (·.rootOf view))
  let isProtected ← plainly (Act.ask (·.isProtected view))
  match c.rangeError d.length with
  | some e => throw e
  | none =>
      if c.isVoid then pure ()
      else if isProtected && !d.log.replaying then throw (.readOnly root)
      else do
        plainly (Act.lockForChange root d)
        plainly (Act.announceChange root d)
        changeDocument root (·.changed? c)

def insertRaw (view : ViewId) (pos : Nat) (text : Text) : Act Nat := do
  makeChange view (.insert pos text)
  return text.length

def deleteRaw (view : ViewId) (start stop : Nat) : Act Text := do
  let d ← plainly (Act.ask (·.document view))
  makeChange view (.delete start stop)
  return d.text.slice start stop

def insertAt (view : ViewId) (pos : Nat) (text : Text) : Act Unit := do
  let _ ← plainly (Act.ask (·.accessibleRange view pos pos))
  makeChange view (.insert pos text)

def insert (view : ViewId) (text : Text) : Act Nat := do
  let v ← plainly (Act.ask (·.view view))
  let point ← plainly (Act.ask (·.point view))
  insertAt view point text
  let stop ← compute (add point text.length)
  plainly (Act.changeShown view (·.setPosition v.markers.point stop))
  return text.length

def deleteRegion (view : ViewId) (p q : Nat) : Act Text := do
  let (start, stop) ← plainly (Act.ask (·.accessibleRange view p q))
  deleteRaw view start stop

def erase (view : ViewId) : Act Unit := do
  plainly (Act.ask (·.refuseReadOnly view))
  plainly (Act.widen view)
  let size ← plainly (Act.ask (·.size view))
  let _ ← deleteRaw view 0 size
  pure ()

def noteProperty (view : ViewId) (pos length : Nat) (key : String) (value : Value) : Act Unit :=
  match add pos length with
  | none => throw (.lengthOverflow length)
  | some stop => makeChange view (.property pos stop key value)

/-- Whether point is at the start of a line or of the accessible part. -/
def atLineStart (view : ViewId) : Act Bool := do
  let x ← plainly (Act.ask (·.extent view))
  let d ← plainly (Act.ask (·.document view))
  if x.point = x.low then return true else compute (d.text.isLineStart? x.point)

section

variable (exempt : Marker → MarkerAdjustment → Bool)

def replay (view root : ViewId) : Record → Act Unit
  | .insert pos length => do
      let stop ← compute (add pos length)
      plainly (Act.ask (·.refuseHidden view pos stop))
      makeChange view (.delete pos stop)
      let _ ← plainly (Act.goto view pos)
      pure ()
  | .delete pos text adjustments => do
      plainly (Act.ask (·.refuseHidden view pos pos))
      let d ← plainly (Act.ask (·.document root))
      insertAt view pos text
      changeShown root
        (Document.readjustAll? exempt (d.readjustable pos adjustments))
      let _ ← plainly (Act.goto view pos)
      pure ()
  | .property start stop key value =>
      plainly (Act.replay view root (.property start stop key value))
  | .boundary => pure ()

def replayAll (view root : ViewId) : List Record → Act Unit
  | [] => pure ()
  | r :: rs => do
      replay exempt view root r
      replayAll view root rs

def undo (view : ViewId) : Act Unit := do
  let root ← plainly (Act.ask (·.rootOf view))
  let d ← plainly (Act.ask (·.document root))
  if !d.log.isEnabled then throw .undoDisabled
  let group ← plainly (Act.takeGroup root)
  plainly (Act.changeLog root UndoLog.beginReplay)
  let outcome ← attempt (replayAll exempt view root group)
  plainly (Act.changeLog root fun l => l.endReplay.boundary)
  match outcome with
  | .ok () => pure ()
  | .error e => do
      plainly (Act.changeLog root (·.rewind d.log.cursor))
      throw e

end

/-- An act whose answer is not shown. -/
def quietly {α : Type} (act : Act α) : Act Reply := do
  let _ ← act
  return .done

end Machine

/-- What an operation does in words of the machine. -/
def Op.inWords (exempt : Marker → MarkerAdjustment → Bool) : Op → Machine.Act Reply
  | insert view added => .number <$> Machine.insert view added
  | deleteRegion view p q => .text <$> Machine.deleteRegion view p q
  | erase view => Machine.quietly (Machine.erase view)
  | insertRaw view pos added => .number <$> Machine.insertRaw view pos added
  | deleteRaw view start stop => .text <$> Machine.deleteRaw view start stop
  | notePropertyRaw view start stop key value =>
      Machine.quietly (Machine.makeChange view (.property start stop key value))
  | noteProperty view pos length key value =>
      Machine.quietly (Machine.noteProperty view pos length key value)
  | atLineStart view => .flag <$> Machine.atLineStart view
  | undo view => Machine.quietly (Machine.undo exempt view)
  | o => Machine.plainly o.act

end Editing
