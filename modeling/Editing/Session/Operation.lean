import Editing.Session.Marking
import Editing.Session.Undoing

/-!
# Operations

Everything that can be asked of a session, as data: an operation is one act, and a step is an
operation or a list of steps to be taken while a view is current. A run takes steps in turn,
whether they succeed or fail.
-/

namespace Editing

/-- An operation on a session. -/
inductive Op where
  | createRoot (name : String)
  | createIndirect (base : ViewId) (name : String)
  | kill (view : ViewId)
  | isLive (view : ViewId)
  | baseOf (view : ViewId)
  | viewList
  | rootList
  | viewNamed (name : String)
  | nameOf (view : ViewId)
  | current
  | setCurrent (view : ViewId)
  | narrow (view : ViewId) (p q : Nat)
  | widen (view : ViewId)
  | isNarrowed (view : ViewId)
  | atStart (view : ViewId)
  | atEnd (view : ViewId)
  | atLineStart (view : ViewId)
  | atLineEnd (view : ViewId)
  | point (view : ViewId)
  | pointMin (view : ViewId)
  | pointMax (view : ViewId)
  | size (view : ViewId)
  | goto (view : ViewId) (pos : Nat)
  | text (view : ViewId)
  | fullText (view : ViewId)
  | substring (view : ViewId) (p q : Nat)
  | charAfter (view : ViewId) (pos : Nat)
  | insert (view : ViewId) (text : Text)
  | deleteRegion (view : ViewId) (p q : Nat)
  | erase (view : ViewId)
  | insertRaw (view : ViewId) (pos : Nat) (text : Text)
  | deleteRaw (view : ViewId) (start stop : Nat)
  | notePropertyRaw (view : ViewId) (start stop : Nat) (key : String) (value : Value)
  | setReadOnly (view : ViewId) (readOnly : Bool)
  | isReadOnly (view : ViewId)
  | setInhibitReadOnly (inhibit : Bool)
  | refuseReadOnly (view : ViewId)
  | isModified (view : ViewId)
  | setUnmodified (view : ViewId)
  | modifiedTick (view : ViewId)
  | charsModifiedTick (view : ViewId)
  | setVisitedFile (view : ViewId) (file : Option Path)
  | visitedFile (view : ViewId)
  | viewVisiting (path : Path)
  | fileLockState (view : ViewId)
  | setLockProtocol (protocol : LockProtocol)
  | makeMarker
  | placeMarker (marker : MarkerId) (view : ViewId) (pos : Nat)
  | detachMarker (marker : MarkerId)
  | copyMarker (marker : MarkerId) (advances : Bool)
  | markerPosition (marker : MarkerId)
  | markerView (marker : MarkerId)
  | markerAdvances (marker : MarkerId)
  | setMarkerAdvances (marker : MarkerId) (advances : Bool)
  | hasMarkerAt (view : ViewId) (pos : Nat)
  | makeOverlay (view : ViewId) (p q : Nat) (frontAdvance rearAdvance : Bool)
  | overlayPut (overlay : OverlayId) (key : String) (value : Value)
  | overlayGet (overlay : OverlayId) (key : String)
  | overlayRemove (overlay : OverlayId) (key : String)
  | overlayProperties (overlay : OverlayId)
  | deleteOverlay (overlay : OverlayId)
  | deleteAllOverlays (view : ViewId)
  | overlaysIn (view : ViewId) (p q : Nat)
  | overlaysAt (view : ViewId) (pos : Nat)
  | overlayList (view : ViewId)
  | overlayStart (overlay : OverlayId)
  | overlayEnd (overlay : OverlayId)
  | overlayRoot (overlay : OverlayId)
  | moveOverlay (overlay : OverlayId) (view : ViewId) (p q : Nat)
  | charProperty (view : ViewId) (pos : Nat) (key : String)
  | closeGroup (view : ViewId)
  | noteProperty (view : ViewId) (pos length : Nat) (key : String) (value : Value)
  | disableUndo (view : ViewId)
  | enableUndo (view : ViewId)
  | clearUndo (view : ViewId)
  | undoEnabled (view : ViewId)
  | undoRecords (view : ViewId)
  | undoSize (view : ViewId)
  | undo (view : ViewId)
  | truncateUndo (view : ViewId)
  | reclaim
  | setLimits (soft strong : Nat) (outer : Option Nat) (handler : Option Handler)
  | setHandler (handler : Option Handler)
  | limits

inductive Reply where
  | done
  | number (n : Nat)
  | optional (n : Option Nat)
  | numbers (ns : List Nat)
  | flag (b : Bool)
  | text (t : Text)
  | character (c : Option Char)
  | file (path : Option Path)
  | property (value : Option Value)
  | properties (p : PropertyList)
  | records (rs : List Record)
  | truncation (t : Truncation)
  | truncations (ts : List (ViewId × Truncation))
  | lockState (state : LockState)
  | limits (l : Limits)

namespace Op

/-- An act whose answer is not shown. -/
def quietly {α : Type} (act : Act α) : Act Reply := do
  let _ ← act
  return .done

def act : Op → Act Reply
  | createRoot name => .number <$> Act.createRoot name
  | createIndirect base name => .number <$> Act.createIndirect base name
  | kill view => quietly (Act.kill view)
  | isLive view => return .flag ((← get).editor.isLive view)
  | baseOf view => .optional <$> Act.ask (·.baseOf view)
  | viewList => return .numbers (← get).editor.viewList
  | rootList => return .numbers (← get).editor.rootList
  | viewNamed name => return .optional ((← get).editor.viewNamed name)
  | nameOf view => return .text (← Act.ask (·.nameOf view)).toList
  | current => return .optional (← get).editor.current
  | setCurrent view => quietly (Act.setCurrent view)
  | narrow view p q => quietly (Act.narrow view p q)
  | widen view => quietly (Act.widen view)
  | isNarrowed view => .flag <$> Act.ask (·.isNarrowed view)
  | atStart view => .flag <$> Act.ask (·.atStart view)
  | atEnd view => .flag <$> Act.ask (·.atEnd view)
  | atLineStart view => .flag <$> Act.ask (·.atLineStart view)
  | atLineEnd view => .flag <$> Act.ask (·.atLineEnd view)
  | point view => .number <$> Act.ask (·.point view)
  | pointMin view => .number <$> Act.ask (·.pointMin view)
  | pointMax view => .number <$> Act.ask (·.pointMax view)
  | size view => .number <$> Act.ask (·.size view)
  | goto view pos => .number <$> Act.goto view pos
  | text view => .text <$> Act.ask (·.text view)
  | fullText view => .text <$> Act.ask (·.fullText view)
  | substring view p q => .text <$> Act.ask (·.substring view p q)
  | charAfter view pos => .character <$> Act.ask (·.charAfter view pos)
  | insert view added => .number <$> Act.insert view added
  | deleteRegion view p q => .text <$> Act.deleteRegion view p q
  | erase view => quietly (Act.erase view)
  | insertRaw view pos added => .number <$> Act.insertRaw view pos added
  | deleteRaw view start stop => .text <$> Act.deleteRaw view start stop
  | notePropertyRaw view start stop key value =>
      quietly (Act.notePropertyRaw view start stop key value)
  | setReadOnly view readOnly => quietly (Act.setReadOnly view readOnly)
  | isReadOnly view => .flag <$> Act.ask (·.isReadOnly view)
  | setInhibitReadOnly inhibit => quietly (Act.setInhibitReadOnly inhibit)
  | refuseReadOnly view => quietly (Act.ask (·.refuseReadOnly view))
  | isModified view => .flag <$> Act.ask (·.isModified view)
  | setUnmodified view => quietly (Act.setUnmodified view)
  | modifiedTick view => .number <$> Act.ask (·.modifiedTick view)
  | charsModifiedTick view => .number <$> Act.ask (·.charsModifiedTick view)
  | setVisitedFile view file => quietly (Act.setVisitedFile view file)
  | visitedFile view => .file <$> Act.ask (·.visitedFile view)
  | viewVisiting path => return .optional ((← get).editor.viewVisiting path)
  | fileLockState view => .lockState <$> Act.fileLockState view
  | setLockProtocol protocol => quietly (Act.setLockProtocol protocol)
  | makeMarker => .number <$> Act.makeMarker
  | placeMarker marker view pos => quietly (Act.placeMarker marker view pos)
  | detachMarker marker => quietly (Act.detachMarker marker)
  | copyMarker marker advances => .number <$> Act.copyMarker marker advances
  | markerPosition marker => .optional <$> Act.ask (·.markerPosition marker)
  | markerView marker => .optional <$> Act.ask (·.markerView marker)
  | markerAdvances marker => .flag <$> Act.ask (·.markerAdvances marker)
  | setMarkerAdvances marker advances => quietly (Act.setMarkerAdvances marker advances)
  | hasMarkerAt view pos => .flag <$> Act.ask (·.hasMarkerAt view pos)
  | makeOverlay view p q front rear => .number <$> Act.makeOverlay view p q front rear
  | overlayPut overlay key value => .property <$> Act.overlayPut overlay key value
  | overlayGet overlay key => .property <$> Act.ask (·.overlayGet overlay key)
  | overlayRemove overlay key => .property <$> Act.overlayRemove overlay key
  | overlayProperties overlay => .properties <$> Act.ask (·.overlayProperties overlay)
  | deleteOverlay overlay => quietly (Act.deleteOverlay overlay)
  | deleteAllOverlays view => quietly (Act.deleteAllOverlays view)
  | overlaysIn view p q => .numbers <$> Act.ask (·.overlaysIn view p q)
  | overlaysAt view pos => .numbers <$> Act.ask (·.overlaysAt view pos)
  | overlayList view => .numbers <$> Act.ask (·.overlayList view)
  | overlayStart overlay => .optional <$> Act.ask (·.overlayStart overlay)
  | overlayEnd overlay => .optional <$> Act.ask (·.overlayEnd overlay)
  | overlayRoot overlay => .optional <$> Act.ask (·.overlayRoot overlay)
  | moveOverlay overlay view p q => quietly (Act.moveOverlay overlay view p q)
  | charProperty view pos key => .property <$> Act.ask (·.charProperty view pos key)
  | closeGroup view => quietly (Act.closeGroup view)
  | noteProperty view pos length key value => quietly (Act.noteProperty view pos length key value)
  | disableUndo view => quietly (Act.disableUndo view)
  | enableUndo view => quietly (Act.enableUndo view)
  | clearUndo view => quietly (Act.clearUndo view)
  | undoEnabled view => .flag <$> Act.ask (·.undoEnabled view)
  | undoRecords view => .records <$> Act.ask (·.undoRecords view)
  | undoSize view => .number <$> Act.ask (·.undoSize view)
  | undo view => quietly (Act.undo view)
  | truncateUndo view => .truncation <$> Act.truncateUndo view
  | reclaim => .truncations <$> Act.reclaim
  | setLimits soft strong outer handler => do
      let limits ← Act.give (Limits.ofNumbers soft strong outer handler)
      quietly (Act.setLimits limits)
  | setHandler handler => quietly (Act.setHandler handler)
  | limits => return .limits (← get).editor.limits

end Op

/-- A step of a run. -/
inductive Step where
  | op (o : Op)
  /-- Takes steps while a view is current, up to the first that fails, and fails with it, or
  otherwise with the message if there is one. -/
  | withCurrent (view : ViewId) (steps : List Step) (failure : Option String)

/-- What comes of a step, and of the steps inside it. -/
inductive Outcome where
  | plain (result : Except Error Reply)
  | nested (inner : List Outcome) (result : Except Error Reply)

namespace Outcome

/-- The answer or failure of the step itself. -/
def result : Outcome → Except Error Reply
  | plain r => r
  | nested _ r => r

end Outcome

mutual

def Step.take : Step → Session → Outcome × Session
  | .op o, s =>
      let (r, s) := o.act.run s
      (.plain r, s)
  | .withCurrent view steps failure, s =>
      let body : Act (List Outcome × Except Error Reply) := fun s =>
        let (inner, stopped, s) := takeUntilFailure steps s
        let result := match stopped, failure with
          | some e, _ => .error e
          | none, some message => .error (.raised message)
          | none, none => .ok (.optional s.editor.current)
        (.ok (inner, result), s)
      match (Act.withCurrent view body).run s with
      | (.ok (inner, r), s) => (.nested inner r, s)
      | (.error e, s) => (.nested [] (.error e), s)

/-- Takes steps up to the first that fails, and tells its error. -/
def takeUntilFailure : List Step → Session → List Outcome × Option Error × Session
  | [], s => ([], none, s)
  | step :: steps, s =>
      let (o, s) := step.take s
      match o.result with
      | .error e => ([o], some e, s)
      | .ok _ =>
          let (os, stopped, s) := takeUntilFailure steps s
          (o :: os, stopped, s)

end

/-- Takes steps in turn, whether they fail or not. -/
def takeAll : List Step → Session → List Outcome × Session
  | [], s => ([], s)
  | step :: steps, s =>
      let (o, s) := step.take s
      let (os, s) := takeAll steps s
      (o :: os, s)

end Editing
