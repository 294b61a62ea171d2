import Editing.Editor
import Editing.Lock

/-!
# Sessions

An editor at work: the editor, the protocol that it asks for locks, and the calls it has made to
its surroundings. An act changes the session and may fail; what it did before it failed stays done.
-/

namespace Editing

/-- An editor in its surroundings. -/
structure Session where
  editor : Editor
  /-- What decides on locks; without it nobody is asked, and every lock is granted. -/
  locks : Option LockProtocol
  /-- The calls made so far, newest first. -/
  trace : List Call

/-- A session with no views and no protocol for locks. -/
def Session.start (limits : Limits) : Session := ⟨.empty limits, none, []⟩

/-- What changes a session and gives an answer or fails. -/
abbrev Act := ExceptT Error (StateM Session)

namespace Act

/-- An answer already found, or its failure. -/
def give {α : Type} : Except Error α → Act α
  | .ok a => pure a
  | .error e => throw e

/-- The answer to a question about the editor. -/
def ask {α : Type} (question : Editor → Except Error α) : Act α := do
  give (question (← get).editor)

/-- The outcome of an act, failure included. -/
def attempt {α : Type} (act : Act α) : Act (Except Error α) :=
  ExceptT.mk (Except.ok <$> act.run)

def change (f : Editor → Editor) : Act Unit :=
  modify fun s => { s with editor := f s.editor }

def changeDocument (root : ViewId) (f : Document → Document) : Act Unit :=
  change fun e => { e with documents := e.documents.modify root f }

/-- Changes the document that a view shows. -/
def changeShown (view : ViewId) (f : Document → Document) : Act Unit := do
  let _ ← ask (·.document view)
  let root ← ask (·.rootOf view)
  changeDocument root f

def changeView (view : ViewId) (f : View → View) : Act Unit := do
  let _ ← ask (·.view view)
  change fun e => { e with views := e.views.modify view f }

def call (c : Call) : Act Unit :=
  modify fun s => { s with trace := c :: s.trace }

/-- Asks for the lock of a file, and fails when it is refused. -/
def lock (root : ViewId) (path : Path) : Act Unit := do
  let s ← get
  match s.locks with
  | none => pure ()
  | some protocol =>
      match protocol.refusal s.trace root path with
      | none => call (.lock root path)
      | some reason => do
          call (.lockRefused root path)
          throw (.lockRefused reason)

def unlock (root : ViewId) (path : Path) : Act Unit := do
  match (← get).locks with
  | none => pure ()
  | some _ => call (.unlock root path)

/-- Gives the lock of a file back if it is held. -/
def unlockIf (held : Bool) (root : ViewId) (file : Option Path) : Act Unit :=
  match held, file with
  | true, some path => unlock root path
  | _, _ => pure ()

end Act

end Editing
