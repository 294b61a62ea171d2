import Editing.Proofs.History.Cutting
import Editing.Proofs.Session.Registry

/-!
# Moves

What an operation can do at once. An operation is a sequence of moves, so what every move preserves
holds in every session that operations lead to. A move names the root whose text or log it touches
or makes, if there is one.
-/

namespace Editing

/-- What can happen to a log other than that a change is recorded or an undo begins or ends. -/
inductive UndoLog.Step (l : UndoLog) : UndoLog → Prop
  | boundary : Step l l.boundary
  | disable : Step l l.disable
  | enable : Step l l.enable
  | clear : Step l l.clear
  | advance : Step l l.boundary.nextGroup.2
  | truncate (limits : Limits) : Step l (l.truncate limits).log

/-- The document apart from its markers. -/
def Document.unmarked (d : Document) : Document := { d with markers := .empty }

/-- The file whose lock has to be taken before the document changes. -/
def Document.wanted (d : Document) : Option Path :=
  if d.isModified || d.locked then none else d.file

namespace Session

/-- The session once a document is ready to be changed. -/
def prepared (s : Session) (root : ViewId) (d : Document) : Session :=
  match d.wanted with
  | none => s
  | some path => (s.granted root path).onDocument root fun d => { d with locked := true }

/-- The session once the first change of an unmodified document has been announced. -/
def announced (s : Session) (root : ViewId) (d : Document) : Session :=
  if d.log.acceptsRecords && !d.isModified then s.called (.firstChange root) else s

def widened (s : Session) (root : ViewId) (v : View) : Session :=
  s.onDocument root fun d => (d.setPosition v.markers.low 0).setPosition v.markers.high d.length

/-- The file whose lock is refused when the document is about to change, and the reason. -/
def refused? (s : Session) (root : ViewId) (d : Document) : Option (Path × Failure) :=
  d.wanted.bind fun path => (s.refusal? root path).map fun reason => (path, reason)

/-- The session after a change. -/
def changed (s : Session) (root : ViewId) (d : Document) (c : Change) : Session :=
  ((s.prepared root d).announced root d).onDocument root (·.apply c)

def lifted (s : Session) (marker : MarkerId) : Option MarkerHome → Session
  | none => s
  | some home => s.onDocument home.root fun d => { d with markers := d.markers.erase marker }

def rehomed (s : Session) (marker : MarkerId) (home : Option MarkerHome) : Session :=
  s.edit fun e =>
    { e with userMarkers := e.userMarkers.modify marker fun m => { m with home := home } }

/-- The session with another insertion type for a marker in the document of its home. -/
def advancing (s : Session) (marker : MarkerId) (advances : Bool) : Option MarkerHome → Session
  | none => s
  | some home => s.onDocument home.root fun d =>
      { d with markers := Markers.setAdvances d.markers marker advances }

def overlaid (s : Session) (overlay : OverlayId) (home : OverlayHome) : Session :=
  s.edit fun e => { e with overlayHomes := e.overlayHomes.insert overlay home }

/-- What an operation can do at once. -/
inductive Move : Option ViewId → Session → Session → Prop
  | setLocks (s : Session) (protocol : LockProtocol) :
      Move none s { s with locks := some protocol }
  | setLimits (s : Session) (limits : Limits) :
      Move none s (s.edit fun e => { e with limits := limits })
  | setInhibit (s : Session) (inhibit : Bool) :
      Move none s (s.edit fun e => { e with inhibitReadOnly := inhibit })
  | setReadOnly {s : Session} {view : ViewId} {v : View} (hv : s.editor.views.get? view = some v)
      (readOnly : Bool) :
      Move none s (s.edit fun e =>
        { e with views := e.views.modify view fun v => { v with readOnly := readOnly } })
  | setCurrent {s : Session} {view : ViewId} {v : View} (hv : s.editor.views.get? view = some v) :
      Move none s (s.edit fun e => { e with current := some view })
  | addRoot (s : Session) (name : String) :
      Move (some s.editor.nextView) s (s.edit (·.addRoot name))
  | addIndirect {s : Session} {base : ViewId} {v : View} (hv : s.editor.views.get? base = some v)
      (hb : v.base = none) (name : String) :
      Move none s (s.edit (·.addIndirect base v.markers name))
  | removeIndirect {s : Session} {view root : ViewId} {v : View}
      (hv : s.editor.views.get? view = some v) (hb : v.base = some root) :
      Move none s (s.edit (·.removeIndirect view root v.markers))
  | removeRoot {s : Session} {root : ViewId} {v : View}
      (hv : s.editor.views.get? root = some v) (hb : v.base = none)
      (halone : ∀ view w, s.editor.views.get? view = some w → w.base ≠ some root)
      {c d : Document} (hd : s.editor.documents.get? root = some c)
      (hc : c.unmarked = d.unmarked) :
      Move none s ((s.unlocked d.locked root d.file).edit (·.removeRoot root d))
  | narrow {s : Session} {view root : ViewId} {v : View} {d : Document}
      (h : s.editor.Shows view v root d) {p q : Nat} (hpq : p ≤ q) (hq : q ≤ d.length) :
      Move none s (s.onDocument root
        (·.setExtent v.markers ⟨Position.clamp p q (d.extent v.markers).point, p, q⟩))
  | widen {s : Session} {view root : ViewId} {v : View} {d : Document}
      (h : s.editor.Shows view v root d) :
      Move none s (s.widened root v)
  | goto {s : Session} {view root : ViewId} {v : View} {d : Document}
      (h : s.editor.Shows view v root d) {pos : Nat} (hlow : (d.extent v.markers).low ≤ pos)
      (hhigh : pos ≤ (d.extent v.markers).high) :
      Move none s (s.onDocument root (·.setPosition v.markers.point pos))
  | change {s : Session} {view root : ViewId} {v : View} {d : Document}
      (h : s.editor.Shows view v root d) {c : Change} (hrange : c.rangeError d.length = none)
      (hvoid : c.isVoid = false) (hgrant : s.refused? root d = none) :
      Move (some root) s (s.changed root d c)
  | refused (s : Session) (root : ViewId) (path : Path) :
      Move none s (s.called (.lockRefused root path))
  | restore (s : Session) (root : ViewId) (start stop : Nat) (key : String) (value : Value) :
      Move none s (s.called (.restore root start stop key value))
  | handler (s : Session) (call : HandlerCall) : Move none s (s.called (.handler call))
  | log {s : Session} {root : ViewId} {d : Document} {l : UndoLog}
      (hd : s.editor.documents.get? root = some d) (hl : d.log.Step l) :
      Move (some root) s (s.onDocument root fun d => { d with log := l })
  | readjust {s : Session} {root : ViewId} {as : List MarkerAdjustment}
      (has : ∀ a ∈ as, ∃ u, s.editor.userMarkers.get? a.marker = some u) :
      Move none s (s.onDocument root fun d => as.foldl Document.readjust d)
  | setUnmodified {s : Session} {view root : ViewId} {v : View} {d : Document}
      (h : s.editor.Shows view v root d) :
      Move none s ((s.onDocument root fun d =>
        { d with saveTick := d.tick, locked := false }).unlocked d.locked root d.file)
  | setFile {s : Session} {root : ViewId} {v : View} {d : Document} {file : Option Path}
      (h : s.editor.Shows root v root d) (hfile : Act.sameFile d.file file = false)
      (hgrant : d.isModified = true → ∀ path, file = some path → s.refusal? root path = none) :
      Move none s (((match d.isModified, file with
          | true, some path => s.granted root path
          | _, _ => s).onDocument root fun d =>
        { d with file := file, locked := d.isModified && file.isSome }).unlocked d.locked root
          d.file)
  | makeMarker (s : Session) :
      Move none s (s.edit fun e =>
        { e with
          userMarkers := e.userMarkers.insert s.editor.nextMarker ⟨none, false⟩
          nextMarker := s.editor.nextMarker + 1 })
  | placeMarker {s : Session} {marker : MarkerId} {u : UserMarker} {view root : ViewId} {v : View}
      {d : Document} (hu : s.editor.userMarkers.get? marker = some u)
      (h : s.editor.Shows view v root d) (pos : Nat) :
      Move none s (((s.lifted marker u.home).onDocument root fun shown =>
        { shown with
          markers := shown.markers.insert marker ⟨min pos d.length, u.advances, .user⟩ }).rehomed
            marker (some ⟨view, root⟩))
  | detachMarker {s : Session} {marker : MarkerId} {u : UserMarker}
      (hu : s.editor.userMarkers.get? marker = some u) :
      Move none s ((s.lifted marker u.home).rehomed marker none)
  | setAdvances {s : Session} {marker : MarkerId} {u : UserMarker}
      (hu : s.editor.userMarkers.get? marker = some u) (advances : Bool) :
      Move none s ((s.advancing marker advances u.home).edit fun e =>
        { e with
          userMarkers := e.userMarkers.modify marker fun m => { m with advances := advances } })
  | makeOverlay {s : Session} {view root : ViewId} {v : View} {d : Document}
      (h : s.editor.Shows view v root d) (p q : Nat) (front rear : Bool) :
      Move none s ((s.onDocument root fun shown =>
        { shown with
          overlays := shown.overlays.insert s.editor.nextOverlay
            (Overlay.between (min p d.length) (min q d.length) front rear) }).edit fun e =>
        { e with
          overlayHomes := e.overlayHomes.insert s.editor.nextOverlay (.attached root)
          nextOverlay := s.editor.nextOverlay + 1 })
  | setDetached {s : Session} {overlay : OverlayId} {o : Overlay}
      (ho : s.editor.overlayHomes.get? overlay = some (.detached o)) (p : PropertyList) :
      Move none s (s.overlaid overlay (.detached { o with properties := p }))
  | setAttached {s : Session} {overlay : OverlayId} {o : Overlay} {home root : ViewId} {v : View}
      {d : Document} (hh : s.editor.overlayHomes.get? overlay = some (.attached home))
      (h : s.editor.Shows home v root d) (ho : d.overlays.get? overlay = some o)
      (p : PropertyList) :
      Move none s (s.onDocument root fun d =>
        { d with overlays := d.overlays.insert overlay { o with properties := p } })
  | deleteOverlay {s : Session} {overlay : OverlayId} {o : Overlay} {home root : ViewId} {v : View}
      {d : Document} (hh : s.editor.overlayHomes.get? overlay = some (.attached home))
      (h : s.editor.Shows home v root d) (ho : d.overlays.get? overlay = some o) :
      Move none s ((s.onDocument root fun d =>
        { d with overlays := d.overlays.erase overlay }).overlaid overlay (.detached o))
  | deleteAllOverlays {s : Session} {view root : ViewId} {v : View} {d : Document}
      (h : s.editor.Shows view v root d) :
      Move none s ((s.onDocument root fun d => { d with overlays := .empty }).edit fun e =>
        { e with overlayHomes := OverlayHome.detachAll e.overlayHomes d.overlays })
  | moveDetached {s : Session} {overlay : OverlayId} {o : Overlay} {view root : ViewId} {v : View}
      {d : Document} (ho : s.editor.overlayHomes.get? overlay = some (.detached o))
      (h : s.editor.Shows view v root d) (p q : Nat) :
      Move none s ((s.onDocument root fun shown =>
        { shown with
          overlays := shown.overlays.insert overlay
            (o.moveTo (min p d.length) (min q d.length)) }).overlaid overlay (.attached root))
  | moveAttached {s : Session} {overlay : OverlayId} {o : Overlay}
      {home old view root : ViewId} {w v : View} {c d : Document}
      (hh : s.editor.overlayHomes.get? overlay = some (.attached home))
      (hold : s.editor.Shows home w old c) (ho : c.overlays.get? overlay = some o)
      (h : s.editor.Shows view v root d) (p q : Nat) :
      Move none s (((s.onDocument old fun d =>
          { d with overlays := d.overlays.erase overlay }).onDocument root fun shown =>
        { shown with
          overlays := shown.overlays.insert overlay
            (o.moveTo (min p d.length) (min q d.length)) }).overlaid overlay (.attached root))

/-- One move after the other, with the roots whose text or log they touch, the last one first. -/
inductive Moves : List ViewId → Session → Session → Prop
  | refl (s : Session) : Moves [] s s
  | step {roots : List ViewId} {mark : Option ViewId} {s t u : Session} :
      Moves roots s t → Move mark t u → Moves (mark.toList ++ roots) s u

namespace Moves

variable {s t u : Session} {roots later : List ViewId} {mark : Option ViewId}

theorem single (h : Move mark s t) : Moves mark.toList s t := by
  have := Moves.step (Moves.refl s) h
  rwa [List.append_nil] at this

theorem trans (h : Moves roots s t) (h' : Moves later t u) : Moves (later ++ roots) s u := by
  induction h' with
  | refl => exact h
  | step _ hm ih =>
      rw [List.append_assoc]
      exact (ih h).step hm

theorem quiet (h : Moves roots s t) (h' : Move none t u) : Moves roots s u := h.step h'

theorem of_quiet (h : Move none s t) : Moves [] s t := single h

theorem of_eq (h : t = s) : Moves [] s t := h ▸ refl s

end Moves

/-- Moves lead from one session to another, and touch no text or log twice. -/
def Leads (s t : Session) : Prop :=
  ∃ roots : List ViewId, roots.Nodup ∧ Moves roots s t

namespace Leads

variable {s t u : Session} {mark : Option ViewId}

theorem of_moves (h : Moves [] s t) : s.Leads t := ⟨[], List.nodup_nil, h⟩

theorem of_move (h : Move mark s t) : s.Leads t := by
  refine ⟨mark.toList, ?_, Moves.single h⟩
  cases mark with
  | none => exact List.nodup_nil
  | some root => exact List.nodup_cons.mpr ⟨List.not_mem_nil, List.nodup_nil⟩

theorem refl (s : Session) : s.Leads s := of_moves (Moves.refl s)

theorem of_eq (h : t = s) : s.Leads t := of_moves (Moves.of_eq h)

theorem quiet_left (h : Moves [] s t) (h' : t.Leads u) : s.Leads u := by
  obtain ⟨roots, hn, hm⟩ := h'
  refine ⟨roots, hn, ?_⟩
  have := h.trans hm
  rwa [List.append_nil] at this

theorem quiet_right (h : s.Leads t) (h' : Moves [] t u) : s.Leads u := by
  obtain ⟨roots, hn, hm⟩ := h
  exact ⟨roots, hn, hm.trans h'⟩

end Leads

end Session

end Editing
