import Editing.History.Record

/-!
# Truncation limits

An undo log is cut back when its records cost more than a soft limit. The group that passes the
soft limit is still kept, unless the records up to and with it pass a strong limit too. A newest
group that passes the outer limit, counted with the boundary that closes it, is first shown to a
handler, if there is one.

A handler is a list of actions on the log and the answer that it then gives.
-/

namespace Editing

mutual

inductive LogAction where
  | record (r : Record)
  | recordInsert (pos length : Nat)
  | boundary
  | clear
  | disable
  | enable
  | isEnabled
  | acceptsRecords
  | isEmpty
  | length
  | size
  | groupCount
  | truncate (soft strong : Nat) (outer : Option Nat) (handler : Option Handler)

/-- What is done when a single group passes the outer limit: actions on the log, and whether this
deals with the matter. A handler that puts another log in the place of the one that it is given is
left out. -/
inductive Handler where
  | act (actions : List LogAction) (handled : Bool)

end

/-- The limits of truncation, of which the strong one exceeds the soft one. -/
structure Limits where
  soft : Nat
  strong : Nat
  outer : Option Nat
  handler : Option Handler
  soft_lt_strong : soft < strong

namespace Limits

/-- The limits that hold when none are set. -/
def default : Limits := ⟨80000, 120000, some 12000000, none, by decide⟩

instance : Inhabited Limits := ⟨default⟩

/-- Limits from numbers, refused unless the strong limit exceeds the soft one. -/
def ofNumbers (soft strong : Nat) (outer : Option Nat) (handler : Option Handler) :
    Except Error Limits :=
  if h : soft < strong then .ok ⟨soft, strong, outer, handler, h⟩
  else .error (.limitsOrder soft strong)

def summary (l : Limits) : String :=
  let outer := match l.outer with
    | none => "None"
    | some n => "Some(" ++ toString n ++ ")"
  "UndoLimits \x7b soft_limit: " ++ toString l.soft ++ ", strong_limit: " ++ toString l.strong ++
    ", outer_limit: " ++ outer ++ ", handler: " ++ toString l.handler.isSome ++ " \x7d"

end Limits

end Editing
