import Editing.Session.Views

/-!
# Changing texts

Every change of a text goes through one act. The range and the protection of the view are checked
first; the first change of an unmodified document takes the lock of the file it visits; and only
then does anything change. Those around are told of the first change before it is recorded.
-/

namespace Editing.Act

/-- Takes the lock of the file of an unmodified document that is about to change. -/
def lockForChange (root : ViewId) (d : Document) : Act Unit :=
  if d.isModified || d.locked then pure ()
  else
    match d.file with
    | none => pure ()
    | some path => do
        lock root path
        changeDocument root fun d => { d with locked := true }

/-- Announces the first change of an unmodified document, while its log accepts records. -/
def announceChange (root : ViewId) (d : Document) : Act Unit :=
  if d.log.acceptsRecords && !d.isModified then call (.firstChange root) else pure ()

/-- Changes the document of a view. A protected view takes changes only during an undo. -/
def makeChange (view : ViewId) (c : Change) : Act Unit := do
  let d ← ask (·.document view)
  let root ← ask (·.rootOf view)
  let isProtected ← ask (·.isProtected view)
  match c.rangeError d.length with
  | some e => throw e
  | none =>
      if c.isVoid then pure ()
      else if isProtected && !d.log.replaying then throw (.readOnly root)
      else do
        lockForChange root d
        announceChange root d
        changeDocument root (·.apply c)

/-- Inserts a text anywhere in the whole text, and tells how many characters it has. -/
def insertRaw (view : ViewId) (pos : Nat) (text : Text) : Act Nat := do
  makeChange view (.insert pos text)
  return text.length

/-- Deletes a range of the whole text, and gives the deleted text. -/
def deleteRaw (view : ViewId) (start stop : Nat) : Act Text := do
  let d ← ask (·.document view)
  makeChange view (.delete start stop)
  return d.text.slice start stop

/-- Notes what a property is over a range of the whole text before it changes. -/
def notePropertyRaw (view : ViewId) (start stop : Nat) (key : String) (value : Value) : Act Unit :=
  makeChange view (.property start stop key value)

/-- Inserts a text at a position of the accessible part. -/
def insertAt (view : ViewId) (pos : Nat) (text : Text) : Act Unit := do
  let _ ← ask (·.accessibleRange view pos pos)
  makeChange view (.insert pos text)

/-- Inserts a text at point, which moves behind it. -/
def insert (view : ViewId) (text : Text) : Act Nat := do
  let v ← ask (·.view view)
  let point ← ask (·.point view)
  insertAt view point text
  changeShown view (·.setPosition v.markers.point (point + text.length))
  return text.length

/-- Deletes the text between two positions of the accessible part, in either order. -/
def deleteRegion (view : ViewId) (p q : Nat) : Act Text := do
  let (start, stop) ← ask (·.accessibleRange view p q)
  deleteRaw view start stop

/-- Makes the whole text accessible and deletes it. -/
def erase (view : ViewId) : Act Unit := do
  ask (·.refuseReadOnly view)
  widen view
  let size ← ask (·.size view)
  let _ ← deleteRaw view 0 size
  pure ()

/-- Notes what a property is over the characters from a position on before it changes. -/
def noteProperty (view : ViewId) (pos length : Nat) (key : String) (value : Value) : Act Unit :=
  if maxPosition < pos + length then throw (.lengthOverflow length)
  else notePropertyRaw view pos (pos + length) key value

/-! ## Files -/

/-- Declares the text unmodified, and gives the lock of its file back. -/
def setUnmodified (view : ViewId) : Act Unit := do
  let d ← ask (·.document view)
  let root ← ask (·.rootOf view)
  changeDocument root fun d => { d with saveTick := d.tick, locked := false }
  unlockIf d.locked root d.file

/-- Whether two visited files are the same, or both are missing. -/
def sameFile : Option Path → Option Path → Bool
  | some p, some q => p.same q
  | none, none => true
  | _, _ => false

/-- Sets the file that a root visits. A modified document takes the lock of the new file before it
gives back the one of the old. -/
def setVisitedFile (view : ViewId) (file : Option Path) : Act Unit := do
  let v ← ask (·.view view)
  if v.base.isSome then throw (.indirectVisit view)
  let d ← ask (·.document view)
  if sameFile d.file file then pure ()
  else do
    match d.isModified, file with
    | true, some path => lock view path
    | _, _ => pure ()
    changeDocument view fun d => { d with file := file, locked := d.isModified && file.isSome }
    unlockIf d.locked view d.file

def setLockProtocol (protocol : LockProtocol) : Act Unit :=
  modify fun s => { s with locks := some protocol }

def fileLockState (view : ViewId) : Act LockState := do
  let file ← ask (·.visitedFile view)
  let s ← get
  match file, s.locks with
  | some path, some protocol => return protocol.state s.trace path
  | _, _ => return .unlocked

end Editing.Act
