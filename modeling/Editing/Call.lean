import Editing.History.Truncation
import Editing.Path

/-!
# Calls to the surroundings

What a session of editing tells to those around it: the hooks that follow changes, the protocol
that locks files, and the handler of undo logs that grow too large.
-/

namespace Editing

/-- A call to the surroundings. -/
inductive Call where
  /-- An unmodified text is about to be modified for the first time. -/
  | firstChange (root : ViewId)
  /-- The undo of a property change asks for the old value over the range. -/
  | restore (root : ViewId) (start stop : Nat) (key : String) (value : Value)
  | lock (root : ViewId) (path : Path)
  | lockRefused (root : ViewId) (path : Path)
  | unlock (root : ViewId) (path : Path)
  | handler (call : HandlerCall)

end Editing
