import Editing.Session

/-!
# Creating, killing and choosing views

A root brings its document, which goes when the root is killed, after the views indirect to it.
The numbers of killed views and their markers are not used again.
-/

namespace Editing

namespace Editor

/-- The names tried for a new view: the name itself, then with a number from 2 on. The number has no
bound here: that a counter of 32 bits would run over, with some two thousand million live views, is
left out. -/
def candidates (name : String) (count : Nat) : List String :=
  name :: (List.range count).map fun n => name ++ "<" ++ toString (n + 2) ++ ">"

/-- The first of the candidates that no live view has. -/
def freeName (e : Editor) (name : String) : String :=
  ((candidates name e.views.size).find? fun c => (e.viewNamed c).isNone).getD name

/-- The markers that the next view gets. -/
def nextMarkers (e : Editor) : ViewMarkers :=
  ⟨e.nextMarker, e.nextMarker + 1, e.nextMarker + 2⟩

/-- Adds a view, with the next numbers for it and its markers. -/
def addView (e : Editor) (name : String) (base : Option ViewId) : Editor :=
  { e with
    views := e.views.insert e.nextView ⟨e.freeName name, base, e.nextMarkers, false⟩
    nextView := e.nextView + 1
    nextMarker := e.nextMarker + 3 }

/-- Adds a root with an empty document, which becomes current if there is no current view. -/
def addRoot (e : Editor) (name : String) : Editor :=
  let document := Document.empty.addView e.nextMarkers ⟨0, 0, 0⟩
  { e.addView name none with
    documents := e.documents.insert e.nextView document
    current := e.current.or (some e.nextView) }

/-- Adds a view indirect to a root, at the place where another view of the document is. -/
def addIndirect (e : Editor) (base : ViewId) (place : ViewMarkers) (name : String) : Editor :=
  { e.addView name (some base) with
    documents := e.documents.modify base fun d => d.addView e.nextMarkers (d.extent place) }

/-- Whether a marker was set in a view or in the document of a root. -/
def setIn (view : ViewId) (m : UserMarker) : Bool :=
  match m.home with
  | none => false
  | some home => home.view == view || home.root == view

/-- The user's markers that were set in a view. -/
def markersSetIn (e : Editor) (view : ViewId) : List MarkerId :=
  (e.userMarkers.filter fun _ m => setIn view m).keys

/-- Removes a view: the markers set in it point nowhere, and if it was current, the first live
view becomes current. -/
def removeView (e : Editor) (view : ViewId) : Editor :=
  let views := e.views.erase view
  { e with
    views := views
    userMarkers := e.userMarkers.map fun m => if setIn view m then { m with home := none } else m
    current := if e.current = some view then views.keys.head? else e.current }

/-- Removes an indirect view, and takes its markers and those set in it out of the document. -/
def removeIndirect (e : Editor) (view root : ViewId) (ids : ViewMarkers) : Editor :=
  let orphans := e.markersSetIn view
  let e := e.removeView view
  { e with
    documents := e.documents.modify root fun d =>
      { d.removeView ids with markers := orphans.foldl Table.erase (d.removeView ids).markers } }

/-- Removes a root with its document. -/
def removeRoot (e : Editor) (root : ViewId) (d : Document) : Editor :=
  let e := e.removeView root
  { e with
    documents := e.documents.erase root
    overlayHomes := OverlayHome.detachAll e.overlayHomes d.overlays }

/-- The views indirect to a root, with their markers. -/
def indirectTo (e : Editor) (root : ViewId) : List (ViewId × ViewMarkers) :=
  (e.views.entries.filter fun x => x.2.base == some root).map fun x => (x.1, x.2.markers)

/-- Removes all views indirect to a root. -/
def removeIndirects (e : Editor) (root : ViewId) : Editor :=
  (e.indirectTo root).foldl (fun e x => e.removeIndirect x.1 root x.2) e

/-- Makes the view current again that was, if it is live; otherwise the current view stays if it
is live, and the first live view becomes current if not. -/
def restoreCurrent (e : Editor) (previous : Option ViewId) : Editor :=
  match previous.filter e.isLive with
  | some view => { e with current := some view }
  | none =>
      match e.current.filter e.isLive with
      | some _ => e
      | none => { e with current := e.firstLive }

end Editor

namespace Act

def createRoot (name : String) : Act ViewId := do
  let view := (← get).editor.nextView
  change (·.addRoot name)
  return view

def createIndirect (base : ViewId) (name : String) : Act ViewId := do
  match (← get).editor.views.get? base with
  | none => throw (.baseKilled base)
  | some v =>
      if v.base.isSome then throw (.baseIndirect base)
      else do
        let _ ← ask (·.document base)
        let view := (← get).editor.nextView
        change (·.addIndirect base v.markers name)
        return view

/-- Kills a view, and with a root the views indirect to it; a lock held for its file is given
back. -/
def kill (view : ViewId) : Act Unit := do
  let v ← ask (·.view view)
  let d ← ask (·.document view)
  match v.base with
  | some root => change (·.removeIndirect view root v.markers)
  | none => do
      change (·.removeIndirects view)
      unlockIf d.locked view d.file
      change (·.removeRoot view d)

def setCurrent (view : ViewId) : Act Unit := do
  let _ ← ask (·.view view)
  change fun e => { e with current := some view }

/-- Acts while a view is current. -/
def withCurrent {α : Type} (view : ViewId) (act : Act α) : Act α := do
  let _ ← ask (·.view view)
  let previous := (← get).editor.current
  change fun e => { e with current := some view }
  let outcome ← attempt act
  change (·.restoreCurrent previous)
  give outcome

/-- Marks a view read-only, or no longer. -/
def setReadOnly (view : ViewId) (readOnly : Bool) : Act Unit :=
  changeView view fun v => { v with readOnly := readOnly }

/-- Sets whether read-only views take changes all the same. -/
def setInhibitReadOnly (inhibit : Bool) : Act Unit :=
  change fun e => { e with inhibitReadOnly := inhibit }

/-! ## The accessible part -/

/-- Makes the text between two positions, in either order, the accessible part; point stays within
it. -/
def narrow (view : ViewId) (p q : Nat) : Act Unit := do
  let v ← ask (·.view view)
  let d ← ask (·.document view)
  let (start, stop) := Position.ordered p q
  if d.length < stop then throw (.outOfRange start stop 0 d.length)
  let point := Position.clamp start stop (d.extent v.markers).point
  changeShown view (·.setExtent v.markers ⟨point, start, stop⟩)

/-- Makes the whole text accessible. -/
def widen (view : ViewId) : Act Unit := do
  let v ← ask (·.view view)
  changeShown view fun d => (d.setPosition v.markers.low 0).setPosition v.markers.high d.length

/-- Moves point to the position of the accessible part that is nearest to the one given. -/
def goto (view : ViewId) (pos : Nat) : Act Nat := do
  let v ← ask (·.view view)
  let x ← ask (·.extent view)
  let pos := Position.clamp x.low x.high pos
  changeShown view (·.setPosition v.markers.point pos)
  return pos

end Act

end Editing
