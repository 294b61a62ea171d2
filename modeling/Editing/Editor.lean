import Editing.Document

/-!
# Editors

All live views with the documents they show. A root view shows a document of its own, and an
indirect view shows the document of a root. The editor also knows every user's marker and every
overlay ever made, wherever it is now. The questions that can be asked of an editor change nothing.
-/

namespace Editing

/-- A view of a document, with the root it is indirect to, if any. -/
structure View where
  name : String
  base : Option ViewId
  markers : ViewMarkers
  readOnly : Bool
deriving Repr

/-- Where a user's marker was set: the view, and the root whose document holds it. -/
structure MarkerHome where
  view : ViewId
  root : ViewId
deriving DecidableEq, Repr

/-- A marker made by the user; without a home it points nowhere. -/
structure UserMarker where
  home : Option MarkerHome
  advances : Bool
deriving DecidableEq, Repr

/-- Where an overlay is: in the document of a root, or nowhere. -/
inductive OverlayHome where
  | attached (root : ViewId)
  | detached (overlay : Overlay)

/-- Where overlays are once those given are taken out of their document. -/
def OverlayHome.detachAll (homes : Table OverlayHome) (overlays : Overlays) : Table OverlayHome :=
  overlays.entries.foldl (fun homes x => homes.insert x.1 (.detached x.2)) homes

/-- The views and their documents, and what has been made for them. -/
structure Editor where
  views : Table View
  /-- The documents, by the root that owns them. -/
  documents : Table Document
  nextView : ViewId
  current : Option ViewId
  limits : Limits
  nextMarker : MarkerId
  userMarkers : Table UserMarker
  nextOverlay : OverlayId
  overlayHomes : Table OverlayHome
  inhibitReadOnly : Bool

namespace Editor

def empty (limits : Limits) : Editor :=
  ⟨.empty, .empty, 0, none, limits, 0, .empty, 0, .empty, false⟩

instance : Inhabited Editor := ⟨empty .default⟩

/-! ## Views -/

def isLive (e : Editor) (view : ViewId) : Bool :=
  e.views.contains view

/-- A live view. -/
def view (e : Editor) (view : ViewId) : Except Error View :=
  match e.views.get? view with
  | some v => .ok v
  | none => .error (.noLiveView view)

/-- The root whose document a view shows: itself, unless it is indirect. -/
def rootOf (e : Editor) (view : ViewId) : Except Error ViewId := do
  let v ← e.view view
  return v.base.getD view

def document (e : Editor) (view : ViewId) : Except Error Document := do
  let root ← e.rootOf view
  match e.documents.get? root with
  | some d => return d
  | none => throw (.noLiveView root)

/-- The live views, in the order in which they were created. -/
def viewList (e : Editor) : List ViewId :=
  e.views.keys

/-- The live roots, in the order in which they were created. -/
def rootList (e : Editor) : List ViewId :=
  (e.views.entries.filter fun x => x.2.base.isNone).map Prod.fst

/-- The first view that was created, of those that are live. -/
def firstLive (e : Editor) : Option ViewId :=
  e.viewList.head?

def viewNamed (e : Editor) (name : String) : Option ViewId :=
  (e.views.entries.find? fun x => x.2.name == name).map Prod.fst

def baseOf (e : Editor) (view : ViewId) : Except Error (Option ViewId) := do
  return (← e.view view).base

def nameOf (e : Editor) (view : ViewId) : Except Error String := do
  return (← e.view view).name

/-! ## The accessible part -/

/-- The point of a view and the bounds of its accessible part. -/
def extent (e : Editor) (view : ViewId) : Except Error Extent := do
  let v ← e.view view
  let d ← e.document view
  return d.extent v.markers

/-- Two positions in order, refused unless they lie in the accessible part. -/
def accessibleRange (e : Editor) (view : ViewId) (p q : Nat) : Except Error (Nat × Nat) := do
  let (start, stop) := Position.ordered p q
  let x ← e.extent view
  if start < x.low ∨ x.high < stop then throw (.outOfRange start stop x.low x.high)
  return (start, stop)

def point (e : Editor) (view : ViewId) : Except Error Nat := do
  return (← e.extent view).point

def pointMin (e : Editor) (view : ViewId) : Except Error Nat := do
  return (← e.extent view).low

def pointMax (e : Editor) (view : ViewId) : Except Error Nat := do
  return (← e.extent view).high

/-- The length of the whole text. -/
def size (e : Editor) (view : ViewId) : Except Error Nat := do
  return (← e.document view).length

/-- Whether a part of the text is not accessible. -/
def isNarrowed (e : Editor) (view : ViewId) : Except Error Bool := do
  let x ← e.extent view
  let n ← e.size view
  return x.low != 0 || x.high != n

def atStart (e : Editor) (view : ViewId) : Except Error Bool := do
  let x ← e.extent view
  return x.point == x.low

def atEnd (e : Editor) (view : ViewId) : Except Error Bool := do
  let x ← e.extent view
  return x.point == x.high

/-- Whether point is at the start of a line or of the accessible part. -/
def atLineStart (e : Editor) (view : ViewId) : Except Error Bool := do
  let x ← e.extent view
  let d ← e.document view
  return x.point == x.low || d.text.isLineStart x.point

/-- Whether point is at the end of a line or of the accessible part. -/
def atLineEnd (e : Editor) (view : ViewId) : Except Error Bool := do
  let x ← e.extent view
  let d ← e.document view
  return x.point == x.high || d.text.isLineEnd x.point

/-! ## Texts -/

/-- The accessible part of the text. -/
def text (e : Editor) (view : ViewId) : Except Error Text := do
  let x ← e.extent view
  let d ← e.document view
  return d.text.slice x.low x.high

def fullText (e : Editor) (view : ViewId) : Except Error Text := do
  return (← e.document view).text

/-- The text between two positions of the accessible part, in either order. -/
def substring (e : Editor) (view : ViewId) (p q : Nat) : Except Error Text := do
  let (start, stop) ← e.accessibleRange view p q
  let d ← e.document view
  return d.text.slice start stop

/-- The character after a position of the accessible part. -/
def charAfter (e : Editor) (view : ViewId) (pos : Nat) : Except Error (Option Char) := do
  let x ← e.extent view
  let d ← e.document view
  return if pos < x.low ∨ x.high ≤ pos then none else d.text[pos]?

/-! ## Protection, modification and files -/

def isReadOnly (e : Editor) (view : ViewId) : Except Error Bool := do
  return (← e.view view).readOnly

/-- Whether a view is protected from changes. -/
def isProtected (e : Editor) (view : ViewId) : Except Error Bool := do
  return (← e.view view).readOnly && !e.inhibitReadOnly

/-- Refuses a protected view. -/
def refuseReadOnly (e : Editor) (view : ViewId) : Except Error Unit := do
  if ← e.isProtected view then throw (.readOnly view)

/-- Whether the text was changed since it was last declared unmodified. -/
def isModified (e : Editor) (view : ViewId) : Except Error Bool := do
  return (← e.document view).isModified

def modifiedTick (e : Editor) (view : ViewId) : Except Error Nat := do
  return (← e.document view).tick

def charsModifiedTick (e : Editor) (view : ViewId) : Except Error Nat := do
  return (← e.document view).charsTick

def visitedFile (e : Editor) (view : ViewId) : Except Error (Option Path) := do
  return (← e.document view).file

/-- Whether a root's document visits a file. -/
def visits (e : Editor) (path : Path) (root : ViewId) : Bool :=
  match (e.documents.get? root).bind Document.file with
  | some file => file.same path
  | none => false

/-- The first root whose document visits a file. -/
def viewVisiting (e : Editor) (path : Path) : Option ViewId :=
  e.rootList.find? (e.visits path)

/-! ## Undo logs -/

def undoEnabled (e : Editor) (view : ViewId) : Except Error Bool := do
  return (← e.document view).log.isEnabled

/-- The undo records of a text, newest first. -/
def undoRecords (e : Editor) (view : ViewId) : Except Error (List Record) := do
  return (← e.document view).log.records

def undoSize (e : Editor) (view : ViewId) : Except Error Nat := do
  return (← e.document view).log.size

/-- Refuses a range that is not wholly in the accessible part. -/
def refuseHidden (e : Editor) (view : ViewId) (start stop : Nat) : Except Error Unit := do
  let x ← e.extent view
  if start < x.low ∨ x.high < stop then throw .hiddenChange

/-! ## Markers -/

def userMarker (e : Editor) (marker : MarkerId) : Except Error UserMarker :=
  match e.userMarkers.get? marker with
  | some m => .ok m
  | none => .error (.notMarker marker)

/-- The position of a marker, unless it points nowhere. -/
def markerPosition (e : Editor) (marker : MarkerId) : Except Error (Option Nat) := do
  match (← e.userMarker marker).home with
  | none => return none
  | some home => return Markers.position? (← e.document home.root).markers marker

/-- The view in which a marker was set. -/
def markerView (e : Editor) (marker : MarkerId) : Except Error (Option ViewId) := do
  return (← e.userMarker marker).home.map MarkerHome.view

/-- Whether text inserted at a marker moves it. -/
def markerAdvances (e : Editor) (marker : MarkerId) : Except Error Bool := do
  return (← e.userMarker marker).advances

/-- Whether a user's marker lies at a position, or at the bound of the accessible part that the
position is beyond. -/
def hasMarkerAt (e : Editor) (view : ViewId) (pos : Nat) : Except Error Bool := do
  let x ← e.extent view
  let d ← e.document view
  return Markers.hasUserAt d.markers (Position.clamp x.low x.high pos)

/-! ## Overlays -/

def overlayHome (e : Editor) (overlay : OverlayId) : Except Error OverlayHome :=
  match e.overlayHomes.get? overlay with
  | some home => .ok home
  | none => .error (.notOverlay overlay)

/-- An overlay of a root's document. -/
def attachedOverlay (e : Editor) (root : ViewId) (overlay : OverlayId) : Except Error Overlay := do
  let d ← e.document root
  match d.overlays.get? overlay with
  | some o => return o
  | none => throw (.noLiveView root)

def overlay (e : Editor) (overlay : OverlayId) : Except Error Overlay := do
  match ← e.overlayHome overlay with
  | .detached o => return o
  | .attached root => e.attachedOverlay root overlay

/-- An overlay that lies in a document. -/
def overlayInText (e : Editor) (overlay : OverlayId) : Except Error (Option Overlay) := do
  match ← e.overlayHome overlay with
  | .detached _ => return none
  | .attached root => return some (← e.attachedOverlay root overlay)

def overlayStart (e : Editor) (overlay : OverlayId) : Except Error (Option Nat) := do
  return (← e.overlayInText overlay).map Overlay.start

def overlayEnd (e : Editor) (overlay : OverlayId) : Except Error (Option Nat) := do
  return (← e.overlayInText overlay).map Overlay.stop

/-- The root whose document holds an overlay. -/
def overlayRoot (e : Editor) (overlay : OverlayId) : Except Error (Option ViewId) := do
  match ← e.overlayHome overlay with
  | .detached _ => return none
  | .attached root => return some root

def overlayGet (e : Editor) (overlay : OverlayId) (key : String) :
    Except Error (Option Value) := do
  return (← e.overlay overlay).properties.get? key

def overlayProperties (e : Editor) (overlay : OverlayId) : Except Error PropertyList := do
  return (← e.overlay overlay).properties

/-- The overlays that meet a region, up to the end of the accessible part. -/
def overlaysIn (e : Editor) (view : ViewId) (p q : Nat) : Except Error (List OverlayId) := do
  let textEnd ← e.pointMax view
  let d ← e.document view
  return Overlays.overRegion d.overlays p q textEnd

/-- The overlays that cover the character after a position. -/
def overlaysAt (e : Editor) (view : ViewId) (pos : Nat) : Except Error (List OverlayId) := do
  return Overlays.atPosition (← e.document view).overlays pos

def overlayList (e : Editor) (view : ViewId) : Except Error (List OverlayId) := do
  return (← e.document view).overlays.keys

/-- The value that overlays give to a property of the character after a position. -/
def charProperty (e : Editor) (view : ViewId) (pos : Nat) (key : String) :
    Except Error (Option Value) := do
  return Overlays.charProperty (← e.document view).overlays pos key

end Editor

end Editing
