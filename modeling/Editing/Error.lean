/-!
# Causes of failure

Every way in which an operation on buffers can fail, with the numbers that its wording shows. A
failure can also be a chain of messages, the outermost context first.
-/

namespace Editing

/-- Views are numbered in the order in which they are created. -/
abbrev ViewId := Nat

/-- Markers are numbered in the order in which they are created, those of views included. -/
abbrev MarkerId := Nat

/-- Overlays are numbered in the order in which they are created. -/
abbrev OverlayId := Nat

/-- A failure told as a chain of messages: the outermost context, then what caused it. -/
structure Failure where
  context : String
  causes : List String
deriving DecidableEq, Repr, Inhabited

namespace Failure

/-- A failure without a further cause. -/
def because (message : String) : Failure := ⟨message, []⟩

/-- The failure seen from one context further out. -/
def within (f : Failure) (context : String) : Failure := ⟨context, f.context :: f.causes⟩

/-- The chain on one line, outermost first. -/
def oneLine (f : Failure) : String :=
  ": ".intercalate (f.context :: f.causes)

/-- The causes below one another, numbered when there are several. -/
def causeLines (f : Failure) : List String :=
  match f.causes with
  | [cause] => ["    " ++ cause]
  | causes => causes.zipIdx.map fun (cause, i) => "    " ++ toString i ++ ": " ++ cause

/-- The chain as a report of several lines. -/
def report (f : Failure) : String :=
  let lead := "Error: " ++ f.context ++ "\n"
  if f.causes.isEmpty then lead
  else lead ++ "\nCaused by:\n" ++ String.join (f.causeLines.map (· ++ "\n"))

end Failure

inductive Error where
  /-- The range does not lie within the bounds given after it. -/
  | outOfRange (start stop low high : Nat)
  | readOnly (view : ViewId)
  | baseKilled (base : ViewId)
  | baseIndirect (base : ViewId)
  | indirectVisit (view : ViewId)
  | lengthOverflow (length : Nat)
  | limitsOrder (soft strong : Nat)
  /-- A change to be undone lies outside the accessible part of the text. -/
  | hiddenChange
  /-- An error raised by the commands run under a view. -/
  | raised (message : String)
  | notMarker (marker : MarkerId)
  | notOverlay (overlay : OverlayId)
  | noLiveView (view : ViewId)
  | undoDisabled
  | noFurtherUndo
  | reentrantTruncation
  | lockRefused (reason : Failure)
deriving DecidableEq, Repr

namespace Error

inductive Kind where
  | invalidArgument
  | wrongType
  | notFound
  | disabled
  | noFurtherUndo
  | reentrant
  | lock
deriving DecidableEq, Repr

def kind : Error → Kind
  | outOfRange .. | readOnly _ | baseKilled _ | baseIndirect _ | indirectVisit _
  | lengthOverflow _ | limitsOrder .. | hiddenChange | raised _ => .invalidArgument
  | notMarker _ | notOverlay _ => .wrongType
  | noLiveView _ => .notFound
  | undoDisabled => .disabled
  | noFurtherUndo => .noFurtherUndo
  | reentrantTruncation => .reentrant
  | lockRefused _ => .lock

/-- How views are named in messages. -/
def viewLabel (view : ViewId) : String := "#" ++ toString view

/-- What is wrong, without the kind of the error. -/
def detail : Error → String
  | outOfRange start stop low high =>
      "args out of range: " ++ toString start ++ ".." ++ toString stop ++ " not within " ++
        toString low ++ ".." ++ toString high
  | readOnly view => "buffer " ++ viewLabel view ++ " is read-only"
  | baseKilled base => "base buffer " ++ viewLabel base ++ " has been killed"
  | baseIndirect base => "base buffer " ++ viewLabel base ++ " is itself indirect"
  | indirectVisit view => "indirect buffer " ++ viewLabel view ++ " cannot visit a file"
  | lengthOverflow length => "length " ++ toString length ++ " overflows"
  | limitsOrder soft strong =>
      "undo strong limit " ++ toString strong ++ " must exceed soft limit " ++ toString soft
  | hiddenChange => "changes to be undone are outside visible portion of buffer"
  | raised message => message
  | notMarker marker => "markerp, marker#" ++ toString marker
  | notOverlay overlay => "overlayp, overlay#" ++ toString overlay
  | noLiveView view => "no live buffer " ++ viewLabel view
  | undoDisabled => "no undo information in this buffer"
  | noFurtherUndo => "no further undo information"
  | reentrantTruncation => "undo log is being truncated; re-entrant truncation rejected"
  | lockRefused reason => reason.oneLine

def message (e : Error) : String :=
  match e.kind with
  | .invalidArgument => "invalid argument: " ++ e.detail
  | .wrongType => "wrong type argument: " ++ e.detail
  | .lock => "file lock failed: " ++ e.detail
  | _ => e.detail

end Error

end Editing
