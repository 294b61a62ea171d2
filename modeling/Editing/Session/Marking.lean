import Editing.Session

/-!
# Placing markers and overlays

Markers and overlays are numbered when they are made and stay known for good, with or without a
place in a document.
-/

namespace Editing.Act

/-! ## Markers -/

/-- Makes a marker that points nowhere. -/
def makeMarker : Act MarkerId := do
  let marker := (← get).editor.nextMarker
  change fun e =>
    { e with
      userMarkers := e.userMarkers.insert marker ⟨none, false⟩
      nextMarker := marker + 1 }
  return marker

def setHome (marker : MarkerId) (home : Option MarkerHome) : Act Unit :=
  change fun e =>
    { e with userMarkers := e.userMarkers.modify marker fun m => { m with home := home } }

/-- Takes a marker out of the document that it is in. -/
def liftMarker (marker : MarkerId) (home : Option MarkerHome) : Act Unit :=
  match home with
  | none => pure ()
  | some home => changeShown home.root fun d => { d with markers := d.markers.erase marker }

/-- Makes a marker point at a position in a view, or at the end of its text. -/
def placeMarker (marker : MarkerId) (view : ViewId) (pos : Nat) : Act Unit := do
  let m ← ask (·.userMarker marker)
  let root ← ask (·.rootOf view)
  let d ← ask (·.document root)
  liftMarker marker m.home
  changeShown root fun shown =>
    { shown with markers := shown.markers.insert marker ⟨min pos d.length, m.advances, .user⟩ }
  setHome marker (some ⟨view, root⟩)

/-- Makes a marker point nowhere. -/
def detachMarker (marker : MarkerId) : Act Unit := do
  let m ← ask (·.userMarker marker)
  liftMarker marker m.home
  setHome marker none

/-- Sets whether text inserted at a marker moves it. -/
def setMarkerAdvances (marker : MarkerId) (advances : Bool) : Act Unit := do
  let m ← ask (·.userMarker marker)
  match m.home with
  | none => pure ()
  | some home =>
      changeShown home.root fun d =>
      { d with markers := Markers.setAdvances d.markers marker advances }
  change fun e =>
    { e with userMarkers := e.userMarkers.modify marker fun m => { m with advances := advances } }

/-- Makes a marker at the place of another one. -/
def copyMarker (source : MarkerId) (advances : Bool) : Act MarkerId := do
  let view ← ask (·.markerView source)
  let pos ← ask (·.markerPosition source)
  let marker ← makeMarker
  setMarkerAdvances marker advances
  match view, pos with
  | some view, some pos => placeMarker marker view pos
  | _, _ => detachMarker marker
  return marker

/-! ## Overlays -/

/-- Makes an overlay between two positions, in either order, or up to the end of the text. -/
def makeOverlay (view : ViewId) (p q : Nat) (frontAdvance rearAdvance : Bool) :
    Act OverlayId := do
  let root ← ask (·.rootOf view)
  let d ← ask (·.document root)
  let overlay := (← get).editor.nextOverlay
  let made := Overlay.between (min p d.length) (min q d.length) frontAdvance rearAdvance
  changeDocument root fun d => { d with overlays := d.overlays.insert overlay made }
  change fun e =>
    { e with
      overlayHomes := e.overlayHomes.insert overlay (.attached root)
      nextOverlay := overlay + 1 }
  return overlay

def setOverlayHome (overlay : OverlayId) (home : OverlayHome) : Act Unit :=
  change fun e => { e with overlayHomes := e.overlayHomes.insert overlay home }

/-- Changes the properties of an overlay, wherever it is. -/
def changeProperties (overlay : OverlayId) (f : PropertyList → PropertyList) : Act Unit := do
  let o ← ask (·.overlay overlay)
  let changed := { o with properties := f o.properties }
  match ← ask (·.overlayHome overlay) with
  | .detached _ => setOverlayHome overlay (.detached changed)
  | .attached root =>
      changeShown root fun d => { d with overlays := d.overlays.insert overlay changed }

/-- Puts a property on an overlay, and gives its old value. -/
def overlayPut (overlay : OverlayId) (key : String) (value : Value) : Act (Option Value) := do
  let old ← ask (·.overlayGet overlay key)
  changeProperties overlay (·.put key value)
  return old

/-- Removes a property from an overlay, and gives its value. -/
def overlayRemove (overlay : OverlayId) (key : String) : Act (Option Value) := do
  let old ← ask (·.overlayGet overlay key)
  changeProperties overlay (·.remove key)
  return old

/-- Takes an overlay out of its text; its properties stay. -/
def deleteOverlay (overlay : OverlayId) : Act Unit := do
  match ← ask (·.overlayHome overlay) with
  | .detached _ => pure ()
  | .attached root => do
      let o ← ask (·.attachedOverlay root overlay)
      changeShown root fun d => { d with overlays := d.overlays.erase overlay }
      setOverlayHome overlay (.detached o)

/-- Takes all overlays out of a text. -/
def deleteAllOverlays (view : ViewId) : Act Unit := do
  let d ← ask (·.document view)
  changeShown view fun d => { d with overlays := .empty }
  change fun e => { e with overlayHomes := OverlayHome.detachAll e.overlayHomes d.overlays }

/-- Takes an overlay from where it is. -/
def liftOverlay (overlay : OverlayId) : OverlayHome → Act Overlay
  | .detached o => pure o
  | .attached root => do
      let o ← ask (·.attachedOverlay root overlay)
      changeShown root fun d => { d with overlays := d.overlays.erase overlay }
      return o

/-- Moves an overlay to lie between two positions of a text, in either order, or up to the end of
the text. -/
def moveOverlay (overlay : OverlayId) (view : ViewId) (p q : Nat) : Act Unit := do
  let target ← ask (·.rootOf view)
  let home ← ask (·.overlayHome overlay)
  let o ← liftOverlay overlay home
  let d ← ask (·.document target)
  let moved := o.moveTo (min p d.length) (min q d.length)
  changeDocument target fun d => { d with overlays := d.overlays.insert overlay moved }
  setOverlayHome overlay (.attached target)

end Editing.Act
