import Editing.History.PlainLog

/-!
# What is asked of an undo log

A text asks its undo log for one thing after the other, and notes where the cursor is before it
takes a group, so that it can put the cursor back if the group is not undone after all. The same can
be asked of a plain list.
-/

namespace Editing

inductive LogStep where
  | record (r : Record)
  | recordInsert (pos length : Nat)
  | boundary
  | clear
  | disable
  | enable
  | truncate (limits : Limits)
  /-- The cursor is noted, and the next group is taken. -/
  | nextGroup
  | beginReplay
  | endReplay
  /-- The cursor is put back to where it was noted last. -/
  | rewind

inductive LogAnswer where
  | done
  | accepted (flag : Bool)
  | group (outcome : Except Error (List Record))
  | truncation (outcome : Except Error Truncation) (calls : List HandlerCall)

/-- An undo log, with the cursor that was noted last. -/
structure LogState where
  log : UndoLog
  noted : Cursor

/-- A plain log, with the mark that was noted last. -/
structure PlainState where
  log : PlainLog
  noted : Mark

namespace LogState

def start : LogState := ⟨.empty, .idle⟩

def step (s : LogState) : LogStep → LogAnswer × LogState
  | .record r => (.accepted s.log.acceptsRecords, { s with log := s.log.record r })
  | .recordInsert pos length =>
      (.accepted s.log.acceptsRecords, { s with log := s.log.recordInsert pos length })
  | .boundary => (.done, { s with log := s.log.boundary })
  | .clear => (.done, { s with log := s.log.clear })
  | .disable => (.done, { s with log := s.log.disable })
  | .enable => (.done, { s with log := s.log.enable })
  | .truncate limits =>
      let run := s.log.truncate limits
      (.truncation run.outcome run.calls, { s with log := run.log })
  | .nextGroup =>
      let (outcome, log) := s.log.nextGroup
      (.group outcome, ⟨log, s.log.cursor⟩)
  | .beginReplay => (.done, { s with log := s.log.beginReplay })
  | .endReplay => (.done, { s with log := s.log.endReplay })
  | .rewind => (.done, { s with log := s.log.rewind s.noted })

def run : LogState → List LogStep → List LogAnswer × LogState
  | s, [] => ([], s)
  | s, step :: steps =>
      let (answer, s) := s.step step
      let (answers, s) := s.run steps
      (answer :: answers, s)

end LogState

namespace PlainState

def start : PlainState := ⟨.empty, .idle⟩

def step (s : PlainState) : LogStep → LogAnswer × PlainState
  | .record r => (.accepted s.log.acceptsRecords, { s with log := s.log.record r })
  | .recordInsert pos length =>
      (.accepted s.log.acceptsRecords, { s with log := s.log.recordInsert pos length })
  | .boundary => (.done, { s with log := s.log.boundary })
  | .clear => (.done, { s with log := s.log.clear })
  | .disable => (.done, { s with log := s.log.disable })
  | .enable => (.done, { s with log := s.log.enable })
  | .truncate limits =>
      let ((outcome, calls), log) := s.log.truncate limits
      (.truncation outcome calls, { s with log := log })
  | .nextGroup =>
      let (outcome, log) := s.log.nextGroup
      (.group outcome, ⟨log, s.log.mark⟩)
  | .beginReplay => (.done, { s with log := s.log.beginReplay })
  | .endReplay => (.done, { s with log := s.log.endReplay })
  | .rewind => (.done, { s with log := s.log.rewind s.noted })

def run : PlainState → List LogStep → List LogAnswer × PlainState
  | s, [] => ([], s)
  | s, step :: steps =>
      let (answer, s) := s.step step
      let (answers, s) := s.run steps
      (answer :: answers, s)

end PlainState

namespace LogStep

/-- Whether the step may be taken, when `noted` tells whether the cursor noted last may be put back.
Boundaries are not recorded as changes. -/
def allowed (noted : Bool) : LogStep → Bool
  | record r => !r.isBoundary
  | rewind => noted
  | _ => true

/-- Whether the cursor noted last may be put back after the step: not once records have been cut
off. -/
def notes (noted : Bool) : LogStep → Bool
  | nextGroup => true
  | clear | disable | enable | truncate _ => false
  | _ => noted

/-- Steps that are taken in an order in which texts ask for them. -/
def Orderly : Bool → List LogStep → Prop
  | _, [] => True
  | noted, step :: steps => step.allowed noted = true ∧ Orderly (step.notes noted) steps

instance decidableOrderly : (noted : Bool) → (steps : List LogStep) →
    Decidable (Orderly noted steps)
  | _, [] => isTrue trivial
  | noted, step :: steps =>
      have := decidableOrderly (step.notes noted) steps
      inferInstanceAs (Decidable (_ ∧ _))

end LogStep

end Editing
