import Editing.Session.Operation

/-!
# Reachable sessions

The sessions that operations can lead to, starting without views under any limits and any protocol
for locks. What happens while a view is current is made of operations too: the view is made
current, and afterwards the one that was current before.
-/

namespace Editing

/-- A session before its first operation. -/
def Session.fresh (limits : Limits) (locks : Option LockProtocol) : Session :=
  { Session.start limits with locks := locks }

/-- The session after an operation, whether it succeeds or fails. -/
def Session.after (s : Session) (o : Op) : Session :=
  (o.act.run s).2

/-- The session after several operations. -/
def Session.afterAll (s : Session) (os : List Op) : Session :=
  os.foldl Session.after s

theorem Session.afterAll_concat (os : List Op) (o : Op) (s : Session) :
    s.afterAll (os ++ [o]) = (s.afterAll os).after o := by
  rw [afterAll, List.foldl_append]
  rfl

/-- That operations lead to a session. -/
inductive Session.Reachable : Session → Prop
  | fresh (limits : Limits) (locks : Option LockProtocol) : Reachable (Session.fresh limits locks)
  | after {s : Session} (o : Op) : Reachable s → Reachable (s.after o)

namespace Session.Reachable

theorem afterAll {s : Session} (h : s.Reachable) (os : List Op) : (s.afterAll os).Reachable := by
  induction os generalizing s with
  | nil => exact h
  | cons o os ih => exact ih (h.after o)

end Session.Reachable

end Editing
