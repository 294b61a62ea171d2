import Editing.Proofs.Session.Moments

/-!
# What acts respect

Operations are told apart by the one effect that they can have besides marking documents, changing
logs and visiting files. A relation between sessions that allows an effect is respected by every
operation that has no other one: it holds between the session before and the session after, whether
the operation succeeds or fails, and at the moments within an undo too.
-/

namespace Editing

/-- The numbers that the next view, marker and overlay will get. -/
def Editor.counters (e : Editor) : ViewId × MarkerId × OverlayId :=
  (e.nextView, e.nextMarker, e.nextOverlay)

/-- What an operation can do besides what any operation may do. -/
inductive Effect where
  | plain
  /-- Changes are applied to a text, or taken back. -/
  | edit
  | visit
  | save
  /-- Overlays or whole documents go, and overlays are placed elsewhere or changed. -/
  | rehouse
  | makeRoot
  | makeIndirect
  | makeMarker
  | makeOverlay

/-- What happens to a document when an operation has the effect. -/
inductive Document.Amends : Effect → Document → Document → Prop
  | mark (d : Document) (ms : Markers) : Amends .plain d { d with markers := ms }
  | relog (d : Document) (l : UndoLog) : Amends .plain d { d with log := l }
  | visit (d : Document) (file : Option Path) (locked : Bool) :
      Amends .plain d { d with file := file, locked := locked }
  | apply (d : Document) (c : Change) : Amends .edit d (d.apply c)
  | save (d : Document) : Amends .save d { d with saveTick := d.tick, locked := false }
  | overlay (d : Document) (os : Overlays) : Amends .rehouse d { d with overlays := os }
  | made (d : Document) (os : Overlays) : Amends .makeOverlay d { d with overlays := os }

/-- Whether an operation with the effect may ask for locks. -/
def Effect.locks : Effect → Bool
  | edit | visit => true
  | _ => false

/-- What those around may be told when an operation has the effect. -/
inductive Call.Under : Effect → Call → Prop
  | firstChange (root : ViewId) : Under .edit (.firstChange root)
  | restore (root : ViewId) (start stop : Nat) (key : String) (value : Value) :
      Under .edit (.restore root start stop key value)
  | lock {a : Effect} (ha : a.locks = true) (root : ViewId) (path : Path) :
      Under a (.lock root path)
  | lockRefused {a : Effect} (ha : a.locks = true) (root : ViewId) (path : Path) :
      Under a (.lockRefused root path)
  | unlock (root : ViewId) (path : Path) : Under .plain (.unlock root path)
  | handler (call : HandlerCall) : Under .plain (.handler call)

namespace Session

/-- A relation that can be followed from one session on to others. -/
class Composes (R : Session → Session → Prop) : Prop where
  refl : ∀ s : Session, R s s
  trans : ∀ {s t u : Session}, R s t → R t u → R s u

/-- A relation that does not depend on more than the documents, the places of overlays, the numbers
given out and the calls made, and holds across what is done to them for an effect that it allows. -/
class Frame (R : Session → Session → Prop) (allows : outParam (Effect → Prop)) : Prop where
  trans : ∀ {s t u : Session}, R s t → R t u → R s u
  besides : ∀ {s t : Session}, t.editor.documents = s.editor.documents →
    t.editor.overlayHomes = s.editor.overlayHomes → t.editor.counters = s.editor.counters →
    t.trace = s.trace → R s t
  plain : allows .plain
  call : ∀ {a : Effect}, allows a → ∀ (s : Session) {c : Call}, c.Under a → R s (s.called c)
  amend : ∀ {a : Effect}, allows a → ∀ (s : Session) (root : ViewId) {f : Document → Document},
    (∀ d, Document.Amends a d (f d)) → R s (s.onDocument root f)
  erase : allows .rehouse → ∀ (s : Session) (root : ViewId),
    R s (s.edit fun e => { e with documents := e.documents.erase root })
  rehouse : allows .rehouse → ∀ (s : Session) (homes : Table OverlayHome),
    R s (s.edit fun e => { e with overlayHomes := homes })
  makeRoot : allows .makeRoot → ∀ (s : Session) (name : String), R s (s.edit (·.addRoot name))
  makeIndirect : allows .makeIndirect →
    ∀ (s : Session) (base : ViewId) (place : ViewMarkers) (name : String),
      R s (s.edit (·.addIndirect base place name))
  makeMarker : allows .makeMarker →
    ∀ (s : Session) (markers : Table UserMarker) (next : MarkerId),
      R s (s.edit fun e => { e with userMarkers := markers, nextMarker := next })
  makeOverlay : allows .makeOverlay →
    ∀ (s : Session) (homes : Table OverlayHome) (next : OverlayId),
      R s (s.edit fun e => { e with overlayHomes := homes, nextOverlay := next })

variable {R : Session → Session → Prop} {allows : Effect → Prop}

theorem Frame.refl [Frame R allows] (s : Session) : R s s := besides rfl rfl rfl rfl

theorem Frame.and {R' : Session → Session → Prop} [h : Frame R allows] [h' : Frame R' allows] :
    Frame (fun s t => R s t ∧ R' s t) allows where
  trans hs ht := ⟨h.trans hs.1 ht.1, h'.trans hs.2 ht.2⟩
  besides hd ho hc ht := ⟨h.besides hd ho hc ht, h'.besides hd ho hc ht⟩
  plain := h.plain
  call ha s _ hc := ⟨h.call ha s hc, h'.call ha s hc⟩
  amend ha s root _ hf := ⟨h.amend ha s root hf, h'.amend ha s root hf⟩
  erase ha s root := ⟨h.erase ha s root, h'.erase ha s root⟩
  rehouse ha s homes := ⟨h.rehouse ha s homes, h'.rehouse ha s homes⟩
  makeRoot ha s name := ⟨h.makeRoot ha s name, h'.makeRoot ha s name⟩
  makeIndirect ha s base place name :=
    ⟨h.makeIndirect ha s base place name, h'.makeIndirect ha s base place name⟩
  makeMarker ha s ms next := ⟨h.makeMarker ha s ms next, h'.makeMarker ha s ms next⟩
  makeOverlay ha s homes next := ⟨h.makeOverlay ha s homes next, h'.makeOverlay ha s homes next⟩

/-- Only calls with the property are made from one session to another. -/
def Tells (P : Call → Prop) (s t : Session) : Prop :=
  ∃ calls : List Call, t.trace = calls.reverse ++ s.trace ∧ ∀ call ∈ calls, P call

namespace Tells

variable {P : Call → Prop} {s t u : Session}

theorem of_trace (h : t.trace = s.trace) : Tells P s t := ⟨[], h, fun _ hcall => by cases hcall⟩

theorem called (s : Session) {c : Call} (hc : P c) : Tells P s (s.called c) :=
  ⟨[c], rfl, fun _ hcall => List.mem_singleton.mp hcall ▸ hc⟩

theorem trans (h : Tells P s t) (h' : Tells P t u) : Tells P s u := by
  obtain ⟨calls, htrace, hcalls⟩ := h
  obtain ⟨later, hlater, hcalls'⟩ := h'
  exact ⟨calls ++ later, by rw [hlater, htrace, List.reverse_append, List.append_assoc],
    List.forall_mem_append.mpr ⟨hcalls, hcalls'⟩⟩

theorem frame (hplain : allows .plain)
    (h : ∀ {a : Effect} {c : Call}, allows a → c.Under a → P c) : Frame (Tells P) allows where
  trans := trans
  besides _ _ _ htrace := of_trace htrace
  plain := hplain
  call ha s _ hc := called s (h ha hc)
  amend _ _ _ _ _ := of_trace rfl
  erase _ _ _ := of_trace rfl
  rehouse _ _ _ := of_trace rfl
  makeRoot _ _ _ := of_trace rfl
  makeIndirect _ _ _ _ _ := of_trace rfl
  makeMarker _ _ _ _ := of_trace rfl
  makeOverlay _ _ _ _ := of_trace rfl

end Tells

instance [Frame R allows] : Composes R where
  refl := Frame.refl
  trans := Frame.trans

end Session

/-- A relation between sessions that concerns their editors alone. -/
def Editor.Within (R : Editor → Editor → Prop) (s t : Session) : Prop := R s.editor t.editor

theorem Document.saveTick_apply (d : Document) (c : Change) :
    (d.apply c).saveTick = d.saveTick := by
  cases c <;> rfl

theorem Document.Amends.readjust (d : Document) (as : List MarkerAdjustment) :
    Amends .plain d (as.foldl Document.readjust d) := by
  have heq : as.foldl Document.readjust d =
      { d with markers := (as.foldl Document.readjust d).markers } :=
    congrArg (fun c => { c with markers := (as.foldl Document.readjust d).markers })
      (d.unmarked_readjustAll as)
  rw [heq]
  exact .mark d _

namespace Act

variable {α β : Type} {R : Session → Session → Prop} {allows : Effect → Prop} {a : Effect}

/-- The relation holds between the sessions before and after the act, whether it fails or not. -/
def Respects (R : Session → Session → Prop) (act : Act α) : Prop :=
  ∀ s : Session, R s (act.run s).2

namespace Respects

/-! ## Parts of acts -/

theorem change {f : Editor → Editor} (hf : ∀ s, R s (s.edit f)) : Respects R (change f) := hf

theorem map (f : α → β) {act : Act α} (h : Respects R act) : Respects R (f <$> act) :=
  fun s => by rw [run_map]; exact h s

theorem quietly {act : Act α} (h : Respects R act) : Respects R (Op.quietly act) :=
  fun s => by rw [run_quietly]; exact h s

theorem attempt {act : Act α} (h : Respects R act) : Respects R (attempt act) := fun s => h s

section

variable [Session.Composes R]

theorem pure (a : α) : Respects R (pure a : Act α) := Session.Composes.refl

theorem throw (e : Error) : Respects R (throw e : Act α) := Session.Composes.refl

theorem get : Respects R (get : Act Session) := Session.Composes.refl

theorem give (r : Except Error α) : Respects R (give r) :=
  fun s => by rw [run_give]; exact Session.Composes.refl s

theorem ask (question : Editor → Except Error α) : Respects R (ask question) :=
  fun s => by rw [run_ask]; exact Session.Composes.refl s

theorem bind {act : Act α} {next : α → Act β} (h : Respects R act)
    (h' : ∀ a, Respects R (next a)) : Respects R (act >>= next) := by
  intro s
  have hfirst := h s
  rw [run_bind]
  rcases hrun : act.run s with ⟨_ | a, t⟩
  · rw [hrun] at hfirst
    exact hfirst
  · rw [hrun] at hfirst
    exact Session.Composes.trans hfirst (h' a t)

theorem guarded {c : Prop} [Decidable c] {e : Error} {act : Act α} (h : Respects R act) :
    Respects R (if c then (MonadExcept.throw e : Act PUnit) >>= fun _ => act else act) := by
  split
  · exact .bind (.throw e) fun _ => h
  · exact h

end

variable [hR : Session.Frame R allows]
include hR

/-- What is done to an editor besides its documents, the places of overlays and the numbers given
out. -/
theorem besides {f : Editor → Editor}
    (hf : ∀ e, (f e).documents = e.documents ∧ (f e).overlayHomes = e.overlayHomes ∧
      (f e).counters = e.counters) :
    Respects R (Act.change f) := by
  refine .change fun s => ?_
  obtain ⟨hdocuments, hhomes, hcounters⟩ := hf s.editor
  exact Session.Frame.besides hdocuments hhomes hcounters rfl

theorem call {c : Call} (ha : allows a) (hc : c.Under a) : Respects R (call c) :=
  fun s => Session.Frame.call ha s hc

theorem lock (ha : allows a) (hlocks : a.locks = true) (root : ViewId) (path : Path) :
    Respects R (lock root path) := by
  refine .bind .get fun s => ?_
  split
  · exact .pure ()
  · split
    · exact .call ha (.lock hlocks _ _)
    · exact .bind (.call ha (.lockRefused hlocks _ _)) fun _ => .throw _

theorem unlockIf (held : Bool) (root : ViewId) (file : Option Path) :
    Respects R (unlockIf held root file) := by
  unfold Act.unlockIf
  split
  · refine .bind .get fun s => ?_
    split
    · exact .pure ()
    · exact .call hR.plain (.unlock _ _)
  · exact .pure ()

/-! ## Views and texts -/

theorem changeDocument {f : Document → Document} (ha : allows a)
    (hf : ∀ d, Document.Amends a d (f d)) (root : ViewId) : Respects R (changeDocument root f) :=
  .change fun s => Session.Frame.amend ha s root hf

theorem changeShown {f : Document → Document} (ha : allows a)
    (hf : ∀ d, Document.Amends a d (f d)) (view : ViewId) : Respects R (changeShown view f) :=
  .bind (.ask _) fun _ => .bind (.ask _) fun root => .changeDocument ha hf root

theorem changeMarkers (view : ViewId) (f : Document → Markers) :
    Respects R (Act.changeShown view fun d => { d with markers := f d }) :=
  .changeShown hR.plain (fun d => .mark d _) view

theorem changeLog (view : ViewId) (f : UndoLog → UndoLog) : Respects R (changeLog view f) :=
  .changeShown hR.plain (fun d => .relog d _) view

theorem changeView (view : ViewId) (f : View → View) : Respects R (changeView view f) :=
  .bind (.ask _) fun _ => .besides fun _ => ⟨rfl, rfl, rfl⟩

theorem removeIndirect (s : Session) (view root : ViewId) (ids : ViewMarkers) :
    R s (s.edit (·.removeIndirect view root ids)) := by
  have hremoved : R s (s.edit (·.removeView view)) := Session.Frame.besides rfl rfl rfl rfl
  exact hR.trans hremoved (hR.amend hR.plain (s.edit (·.removeView view)) root fun d =>
    .mark d ((s.editor.markersSetIn view).foldl Table.erase (d.removeView ids).markers))

theorem removeIndirects (s : Session) (root : ViewId) : R s (s.edit (·.removeIndirects root)) := by
  have hall : ∀ (xs : List (ViewId × ViewMarkers)) (s : Session),
      R s (s.edit fun e => xs.foldl (fun e x => e.removeIndirect x.1 root x.2) e) := by
    intro xs
    induction xs with
    | nil => exact Session.Frame.refl
    | cons x xs ih => exact fun s => Session.Frame.trans (removeIndirect s x.1 root x.2) (ih _)
  exact hall _ s

theorem removeRoot (h : allows .rehouse) (s : Session) (root : ViewId) (d : Document) :
    R s (s.edit (·.removeRoot root d)) := by
  have hremoved : R s (s.edit (·.removeView root)) := Session.Frame.besides rfl rfl rfl rfl
  have herased := hR.trans hremoved (hR.erase h (s.edit (·.removeView root)) root)
  exact hR.trans herased
    (hR.rehouse h _ (OverlayHome.detachAll s.editor.overlayHomes d.overlays))

theorem kill (h : allows .rehouse) (view : ViewId) : Respects R (kill view) := by
  refine .bind (.ask _) fun v => .bind (.ask _) fun d => ?_
  split
  · exact .change fun s => removeIndirect s view _ _
  · exact .bind (.change fun s => removeIndirects s view) fun _ =>
      .bind (.unlockIf _ _ _) fun _ => .change fun s => removeRoot h s view d

theorem setCurrent (view : ViewId) : Respects R (setCurrent view) :=
  .bind (.ask _) fun _ => .besides fun _ => ⟨rfl, rfl, rfl⟩

theorem restoreCurrent (s : Session) (previous : Option ViewId) :
    R s (s.edit (·.restoreCurrent previous)) := by
  rw [Session.edit, Editor.restoreCurrent]
  repeat' split
  all_goals exact Session.Frame.besides rfl rfl rfl rfl

theorem withCurrent {act : Act α} (h : Respects R act) (view : ViewId) :
    Respects R (withCurrent view act) :=
  .bind (.ask _) fun _ => .bind .get fun _ => .bind (.besides fun _ => ⟨rfl, rfl, rfl⟩) fun _ =>
    .bind (.attempt h) fun _ => .bind (.change fun s => restoreCurrent s _) fun _ =>
      .give _

theorem narrow (view : ViewId) (p q : Nat) : Respects R (narrow view p q) :=
  .bind (.ask _) fun _ => .bind (.ask _) fun _ => .guarded (.changeMarkers _ _)

theorem widen (view : ViewId) : Respects R (widen view) :=
  .bind (.ask _) fun _ => .changeMarkers _ _

theorem goto (view : ViewId) (pos : Nat) : Respects R (goto view pos) :=
  .bind (.ask _) fun _ => .bind (.ask _) fun _ => .bind (.changeMarkers _ _)
    fun _ => .pure _

theorem lockForChange (h : allows .edit) (root : ViewId) (d : Document) :
    Respects R (lockForChange root d) := by
  unfold Act.lockForChange
  split
  · exact .pure _
  · split
    · exact .pure _
    · exact .bind (.lock h rfl _ _) fun _ =>
        .changeDocument hR.plain (fun d => .visit d _ _) _

theorem announceChange (h : allows .edit) (root : ViewId) (d : Document) :
    Respects R (announceChange root d) := by
  unfold Act.announceChange
  split
  · exact .call h (.firstChange _)
  · exact .pure _

theorem makeChange (h : allows .edit) (view : ViewId) (c : Change) :
    Respects R (makeChange view c) := by
  refine .bind (.ask _) fun d => .bind (.ask _) fun root => .bind (.ask _) fun isProtected => ?_
  split
  · exact .throw _
  · split
    · exact .pure _
    · split
      · exact .throw _
      · exact .bind (.lockForChange h _ _) fun _ => .bind (.announceChange h _ _) fun _ =>
          .changeDocument h (fun d => .apply d c) _

theorem insertRaw (h : allows .edit) (view : ViewId) (pos : Nat) (text : Text) :
    Respects R (insertRaw view pos text) :=
  .bind (.makeChange h _ _) fun _ => .pure _

theorem deleteRaw (h : allows .edit) (view : ViewId) (start stop : Nat) :
    Respects R (deleteRaw view start stop) :=
  .bind (.ask _) fun _ => .bind (.makeChange h _ _) fun _ => .pure _

theorem insertAt (h : allows .edit) (view : ViewId) (pos : Nat) (text : Text) :
    Respects R (insertAt view pos text) :=
  .bind (.ask _) fun _ => .makeChange h _ _

theorem insert (h : allows .edit) (view : ViewId) (text : Text) : Respects R (insert view text) :=
  .bind (.ask _) fun _ => .bind (.ask _) fun _ => .bind (.insertAt h _ _ _) fun _ =>
    .bind (.changeMarkers _ _) fun _ => .pure _

theorem deleteRegion (h : allows .edit) (view : ViewId) (p q : Nat) :
    Respects R (deleteRegion view p q) :=
  .bind (.ask _) fun _ => .deleteRaw h _ _ _

theorem erase (h : allows .edit) (view : ViewId) : Respects R (erase view) :=
  .bind (.ask _) fun _ => .bind (.widen _) fun _ => .bind (.ask _) fun _ =>
    .bind (.deleteRaw h _ _ _) fun _ => .pure _

theorem noteProperty (h : allows .edit) (view : ViewId) (pos length : Nat) (key : String)
    (value : Value) : Respects R (noteProperty view pos length key value) := by
  unfold Act.noteProperty
  split
  · exact .throw _
  · exact .makeChange h _ _

theorem setUnmodified (h : allows .save) (view : ViewId) : Respects R (setUnmodified view) :=
  .bind (.ask _) fun _ => .bind (.ask _) fun _ => .bind (.changeDocument h (fun d => .save d) _)
    fun _ => .unlockIf _ _ _

theorem setVisitedFile (h : allows .visit) (view : ViewId) (file : Option Path) :
    Respects R (setVisitedFile view file) := by
  refine .bind (.ask _) fun v => .guarded (.bind (.ask _) fun d => ?_)
  split
  · exact .pure _
  · dsimp only
    split
    · exact .bind (.lock h rfl _ _) fun _ =>
        .bind (.changeDocument hR.plain (fun d => .visit d _ _) _) fun _ => .unlockIf _ _ _
    · exact .bind (.changeDocument hR.plain (fun d => .visit d _ _) _) fun _ => .unlockIf _ _ _

theorem fileLockState (view : ViewId) : Respects R (fileLockState view) := by
  refine .bind (.ask _) fun file => .bind .get fun s => ?_
  split
  · exact .pure _
  · exact .pure _

/-! ## Markers and overlays -/

theorem liftMarker (marker : MarkerId) (home : Option MarkerHome) :
    Respects R (liftMarker marker home) := by
  cases home with
  | none => exact .pure _
  | some home => exact .changeMarkers _ _

theorem setHome (marker : MarkerId) (home : Option MarkerHome) :
    Respects R (setHome marker home) := .besides fun _ => ⟨rfl, rfl, rfl⟩

theorem placeMarker (marker : MarkerId) (view : ViewId) (pos : Nat) :
    Respects R (placeMarker marker view pos) :=
  .bind (.ask _) fun _ => .bind (.ask _) fun _ => .bind (.ask _) fun _ =>
    .bind (.liftMarker _ _) fun _ => .bind (.changeMarkers _ _) fun _ => .setHome _ _

theorem detachMarker (marker : MarkerId) : Respects R (detachMarker marker) :=
  .bind (.ask _) fun _ => .bind (.liftMarker _ _) fun _ => .setHome _ _

theorem setMarkerAdvances (marker : MarkerId) (advances : Bool) :
    Respects R (setMarkerAdvances marker advances) := by
  refine .bind (.ask _) fun m => ?_
  split
  · exact .besides fun _ => ⟨rfl, rfl, rfl⟩
  · exact .bind (.changeMarkers _ _) fun _ => .besides fun _ => ⟨rfl, rfl, rfl⟩

theorem setOverlayHome (h : allows .rehouse) (overlay : OverlayId) (home : OverlayHome) :
    Respects R (setOverlayHome overlay home) :=
  .change fun s => Session.Frame.rehouse h s _

theorem changeOverlays (h : allows .rehouse) (view : ViewId) (f : Document → Overlays) :
    Respects R (Act.changeShown view fun d => { d with overlays := f d }) :=
  .changeShown h (fun d => .overlay d _) view

theorem changeProperties (h : allows .rehouse) (overlay : OverlayId)
    (f : PropertyList → PropertyList) : Respects R (changeProperties overlay f) := by
  refine .bind (.ask _) fun o => .bind (.ask _) fun home => ?_
  split
  · exact .setOverlayHome h _ _
  · exact .changeOverlays h _ _

theorem overlayPut (h : allows .rehouse) (overlay : OverlayId) (key : String) (value : Value) :
    Respects R (overlayPut overlay key value) :=
  .bind (.ask _) fun _ => .bind (.changeProperties h _ _) fun _ => .pure _

theorem overlayRemove (h : allows .rehouse) (overlay : OverlayId) (key : String) :
    Respects R (overlayRemove overlay key) :=
  .bind (.ask _) fun _ => .bind (.changeProperties h _ _) fun _ => .pure _

theorem deleteOverlay (h : allows .rehouse) (overlay : OverlayId) :
    Respects R (deleteOverlay overlay) := by
  refine .bind (.ask _) fun home => ?_
  split
  · exact .pure _
  · exact .bind (.ask _) fun _ => .bind (.changeOverlays h _ _) fun _ => .setOverlayHome h _ _

theorem deleteAllOverlays (h : allows .rehouse) (view : ViewId) :
    Respects R (deleteAllOverlays view) :=
  .bind (.ask _) fun _ => .bind (.changeOverlays h _ _) fun _ =>
    .change fun s => Session.Frame.rehouse h s _

theorem liftOverlay (h : allows .rehouse) (overlay : OverlayId) (home : OverlayHome) :
    Respects R (liftOverlay overlay home) := by
  cases home with
  | detached o => exact .pure _
  | attached root => exact .bind (.ask _) fun _ => .bind (.changeOverlays h _ _) fun _ => .pure _

theorem moveOverlay (h : allows .rehouse) (overlay : OverlayId) (view : ViewId) (p q : Nat) :
    Respects R (moveOverlay overlay view p q) :=
  .bind (.ask _) fun _ => .bind (.ask _) fun _ => .bind (.liftOverlay h _ _) fun _ =>
    .bind (.ask _) fun _ => .bind (.changeDocument h (fun d => .overlay d _) _) fun _ =>
      .setOverlayHome h _ _

/-! ## Undo -/

theorem replay (h : allows .edit) (view root : ViewId) (r : Record) :
    Respects R (replay view root r) := by
  cases r with
  | insert pos n =>
      exact .bind (.ask _) fun _ => .bind (.makeChange h _ _) fun _ => .bind (.goto _ _) fun _ =>
        .pure _
  | delete pos text as =>
      exact .bind (.ask _) fun _ => .bind (.ask _) fun _ => .bind (.insertAt h _ _ _) fun _ =>
        .bind (.changeShown hR.plain (fun d => .readjust d _) _) fun _ =>
          .bind (.goto _ _) fun _ => .pure _
  | property start stop key value =>
      exact .bind (.ask _) fun _ => .call h (.restore _ _ _ _ _)
  | boundary => exact .pure _

theorem replayAll (h : allows .edit) (view root : ViewId) (rs : List Record) :
    Respects R (replayAll view root rs) := by
  induction rs with
  | nil => exact .pure _
  | cons r rs ih => exact .bind (.replay h view root r) fun _ => ih

theorem takeGroup (root : ViewId) : Respects R (takeGroup root) :=
  .bind (.ask _) fun _ => .bind (.changeLog _ _) fun _ => .give _

theorem undo (h : allows .edit) (view : ViewId) : Respects R (undo view) := by
  refine .bind (.ask _) fun root => .bind (.ask _) fun d => .guarded ?_
  refine .bind (.takeGroup _) fun _ => .bind (.changeLog _ _) fun _ =>
    .bind (.attempt (.replayAll h _ _ _)) fun outcome => .bind (.changeLog _ _) fun _ => ?_
  split
  · exact .pure _
  · exact .bind (.changeLog _ _) fun _ => .throw _

theorem callHandlers (calls : List HandlerCall) :
    Respects R (callHandlers calls) := by
  induction calls with
  | nil => exact .pure _
  | cons c cs ih => exact .bind (.call hR.plain (.handler c)) fun _ => ih

theorem truncateLog (root : ViewId) : Respects R (truncateLog root) :=
  .bind (.ask _) fun _ => .bind .get fun _ => .bind (.changeLog _ _) fun _ =>
    .bind (.callHandlers _) fun _ => .give _

theorem truncateUndo (view : ViewId) : Respects R (truncateUndo view) :=
  .bind (.ask _) fun _ => .withCurrent (.truncateLog _) _

theorem truncateAll (roots : List ViewId) : Respects R (truncateAll roots) := by
  induction roots with
  | nil => exact .pure _
  | cons root roots ih =>
      exact .bind (.truncateUndo root) fun _ => .bind ih fun _ => .pure _

theorem reclaim : Respects R reclaim := .bind .get fun _ => .truncateAll _

/-! ## Making views, markers and overlays -/

theorem createRoot (h : allows .makeRoot) (name : String) : Respects R (createRoot name) :=
  .bind .get fun _ => .bind (.change fun s => Session.Frame.makeRoot h s name) fun _ => .pure _

theorem createIndirect (h : allows .makeIndirect) (base : ViewId) (name : String) :
    Respects R (createIndirect base name) := by
  refine .bind .get fun _ => ?_
  split
  · exact .throw _
  · split
    · exact .throw _
    · exact .bind (.ask _) fun _ => .bind .get fun _ =>
        .bind (.change fun s => Session.Frame.makeIndirect h s base _ name) fun _ => .pure _

theorem makeMarker (h : allows .makeMarker) : Respects R makeMarker :=
  .bind .get fun _ => .bind (.change fun s => Session.Frame.makeMarker h s _ _) fun _ => .pure _

theorem copyMarker (h : allows .makeMarker) (source : MarkerId) (advances : Bool) :
    Respects R (copyMarker source advances) := by
  refine .bind (.ask _) fun view => .bind (.ask _) fun pos => .bind (.makeMarker h) fun marker =>
    .bind (.setMarkerAdvances _ _) fun _ => ?_
  split
  · exact .bind (.placeMarker _ _ _) fun _ => .pure _
  · exact .bind (.detachMarker _) fun _ => .pure _

theorem makeOverlay (h : allows .makeOverlay) (view : ViewId) (p q : Nat) (front rear : Bool) :
    Respects R (makeOverlay view p q front rear) :=
  .bind (.ask _) fun _ => .bind (.ask _) fun _ => .bind .get fun _ =>
    .bind (.changeDocument h (fun d => .made d _) _) fun _ =>
      .bind (.change fun s => Session.Frame.makeOverlay h s _ _) fun _ => .pure _

end Respects

end Act

namespace Op

/-- The effect that the operation can have besides what any operation may do. -/
def effect : Op → Effect
  | createRoot _ => .makeRoot
  | createIndirect .. => .makeIndirect
  | makeMarker | copyMarker .. => .makeMarker
  | makeOverlay .. => .makeOverlay
  | kill _ | overlayPut .. | overlayRemove .. | deleteOverlay _ | deleteAllOverlays _
  | moveOverlay .. => .rehouse
  | insert .. | deleteRegion .. | erase _ | insertRaw .. | deleteRaw .. | notePropertyRaw ..
  | noteProperty .. | undo _ => .edit
  | setUnmodified _ => .save
  | setVisitedFile .. => .visit
  | _ => .plain

variable {R : Session → Session → Prop} {allows : Effect → Prop} [hR : Session.Frame R allows]
include hR

theorem respects (o : Op) (h : allows o.effect) : Act.Respects R o.act := by
  cases o with
  | createRoot _ => exact .map _ (.createRoot h _)
  | createIndirect _ _ => exact .map _ (.createIndirect h _ _)
  | makeMarker => exact .map _ (.makeMarker h)
  | copyMarker _ _ => exact .map _ (.copyMarker h _ _)
  | makeOverlay _ _ _ _ _ => exact .map _ (.makeOverlay h _ _ _ _ _)
  | setUnmodified _ => exact .quietly (.setUnmodified h _)
  | kill _ => exact .quietly (.kill h _)
  | setCurrent _ => exact .quietly (.setCurrent _)
  | narrow _ _ _ => exact .quietly (.narrow _ _ _)
  | widen _ => exact .quietly (.widen _)
  | goto _ _ => exact .map _ (.goto _ _)
  | insert _ _ => exact .map _ (.insert h _ _)
  | deleteRegion _ _ _ => exact .map _ (.deleteRegion h _ _ _)
  | erase _ => exact .quietly (.erase h _)
  | insertRaw _ _ _ => exact .map _ (.insertRaw h _ _ _)
  | deleteRaw _ _ _ => exact .map _ (.deleteRaw h _ _ _)
  | notePropertyRaw _ _ _ _ _ => exact .quietly (.makeChange h _ _)
  | setReadOnly _ _ => exact .quietly (.changeView _ _)
  | setInhibitReadOnly _ => exact .quietly (.besides fun _ => ⟨rfl, rfl, rfl⟩)
  | refuseReadOnly _ => exact .quietly (.ask _)
  | setVisitedFile _ _ => exact .quietly (.setVisitedFile h _ _)
  | fileLockState _ => exact .map _ (.fileLockState _)
  | setLockProtocol _ => exact .quietly fun _ => Session.Frame.besides rfl rfl rfl rfl
  | placeMarker _ _ _ => exact .quietly (.placeMarker _ _ _)
  | detachMarker _ => exact .quietly (.detachMarker _)
  | setMarkerAdvances _ _ => exact .quietly (.setMarkerAdvances _ _)
  | overlayPut _ _ _ => exact .map _ (.overlayPut h _ _ _)
  | overlayRemove _ _ => exact .map _ (.overlayRemove h _ _)
  | deleteOverlay _ => exact .quietly (.deleteOverlay h _)
  | deleteAllOverlays _ => exact .quietly (.deleteAllOverlays h _)
  | moveOverlay _ _ _ _ => exact .quietly (.moveOverlay h _ _ _ _)
  | closeGroup _ | disableUndo _ | enableUndo _ | clearUndo _ => exact .quietly (.changeLog _ _)
  | noteProperty _ _ _ _ _ => exact .quietly (.noteProperty h _ _ _ _ _)
  | undo _ => exact .quietly (.undo h _)
  | truncateUndo _ => exact .map _ (.truncateUndo _)
  | reclaim => exact .map _ .reclaim
  | setLimits _ _ _ _ =>
      exact .bind (.give _) fun _ => .quietly (.besides fun _ => ⟨rfl, rfl, rfl⟩)
  | setHandler _ => exact .quietly (.besides fun _ => ⟨rfl, rfl, rfl⟩)
  | nameOf _ => exact .bind (.ask _) fun _ => .pure _
  | isLive _ | viewList | rootList | viewNamed _ | current | viewVisiting _ | limits =>
      exact .bind .get fun _ => .pure _
  | _ => exact .map _ (.ask _)

end Op

/-! ## Moments of operations -/

namespace Session

variable {R : Session → Session → Prop} {allows : Effect → Prop} [hR : Frame R allows] {t : Session}
include hR

theorem respects_stages (h : allows .edit) (view root : ViewId) (rs : List Record) (s : Session)
    (ht : t ∈ s.stages view root rs) : R s t := by
  induction rs generalizing s with
  | nil => cases ht
  | cons r rs ih =>
      have hfirst := Act.Respects.replay (R := R) h view root r s
      rw [stages] at ht
      rcases hrun : (Act.replay view root r).run s with ⟨_ | _, u⟩
      · rw [hrun] at ht hfirst
        exact List.mem_singleton.mp ht ▸ hfirst
      · rw [hrun] at ht hfirst
        rcases List.mem_cons.mp ht with rfl | ht
        · exact hfirst
        · exact Frame.trans hfirst (ih u ht)

theorem respects_passages (h : allows .edit) (s : Session) (view : ViewId)
    (ht : t ∈ s.passages view) : R s t := by
  rw [passages] at ht
  split at ht
  · rename_i root _ _
    have htake := Act.Respects.takeGroup (R := R) root s
    rcases hrun : (Act.takeGroup root).run s with ⟨_ | group, u⟩
    · rw [hrun] at ht htake
      exact List.mem_singleton.mp ht ▸ htake
    · rw [hrun] at ht htake
      have hbegin := Act.Respects.changeLog (R := R) root UndoLog.beginReplay u
      rcases List.mem_cons.mp ht with rfl | ht
      · exact htake
      · rcases List.mem_cons.mp ht with rfl | ht
        · exact Frame.trans htake hbegin
        · exact Frame.trans htake
            (Frame.trans hbegin (respects_stages h view root group _ ht))
  · cases ht

/-- What allows the effect of an operation holds at each of its moments. -/
theorem respects_moments {s : Session} {o : Op} (h : allows o.effect) (ht : t ∈ s.moments o) :
    R s t := by
  have hafter : R s (s.after o) := o.respects h s
  cases o with
  | undo view =>
      rcases List.mem_append.mp ht with ht | ht
      · exact respects_passages h s view ht
      · exact List.mem_singleton.mp ht ▸ hafter
  | _ => exact List.mem_singleton.mp ht ▸ hafter

end Session

/-! ## Numbers that stay -/

/-- The part of the editor is the same. -/
def Editor.Same {γ : Type} (part : Editor → γ) (e e' : Editor) : Prop := part e' = part e

/-- A part of the editor that edits keep is the same at all moments of an operation. -/
theorem Session.same_moments {γ : Type} (part : Editor → γ) {allows : Effect → Prop}
    [Frame (Editor.Within (Editor.Same part)) allows] (h : allows .edit) {s t : Session}
    {o : Op} (ht : t ∈ s.moments o) : part t.editor = part (s.after o).editor := by
  cases o with
  | undo view =>
      have hsame : ∀ u ∈ s.moments (.undo view), part u.editor = part s.editor := fun u hu =>
        respects_moments (R := Editor.Within (Editor.Same part)) (o := .undo view) h hu
      rw [hsame t ht, hsame _ (after_mem_moments s _)]
  | _ => rw [List.mem_singleton.mp ht]

/-- What is read off the numbers given out does not depend on anything else, so it stays but for
the effects that give out one of them. -/
theorem Editor.frame_counters {γ : Type} (part : ViewId × MarkerId × OverlayId → γ)
    {allows : Effect → Prop} (hplain : allows .plain)
    (hview : ∀ v v' m m' o, allows .makeRoot ∨ allows .makeIndirect →
      part (v', m', o) = part (v, m, o))
    (hmarker : ∀ v m m' o, allows .makeMarker → part (v, m', o) = part (v, m, o))
    (hoverlay : ∀ v m o o', allows .makeOverlay → part (v, m, o') = part (v, m, o)) :
    Session.Frame (Editor.Within (Editor.Same (part ∘ Editor.counters))) allows where
  trans h h' := Eq.trans h' h
  besides _ _ h _ := congrArg part h
  plain := hplain
  call _ _ _ _ := rfl
  amend _ _ _ _ _ := rfl
  erase _ _ _ := rfl
  rehouse _ _ _ := rfl
  makeRoot h _ _ := hview _ _ _ _ _ (Or.inl h)
  makeIndirect h _ _ _ _ := hview _ _ _ _ _ (Or.inr h)
  makeMarker h _ _ _ := hmarker _ _ _ _ h
  makeOverlay h _ _ _ := hoverlay _ _ _ _ h

instance : Session.Frame (Editor.Within (Editor.Same Editor.nextView))
    fun a => a ≠ .makeRoot ∧ a ≠ .makeIndirect :=
  Editor.frame_counters (·.1) (by simp)
    (fun _ _ _ _ _ h => by simp at h) (fun _ _ _ _ _ => rfl) fun _ _ _ _ _ => rfl

instance : Session.Frame (Editor.Within (Editor.Same Editor.nextMarker))
    fun a => a ≠ .makeRoot ∧ a ≠ .makeIndirect ∧ a ≠ .makeMarker :=
  Editor.frame_counters (·.2.1) (by simp)
    (fun _ _ _ _ _ h => by simp at h) (fun _ _ _ _ h => by simp at h) fun _ _ _ _ _ => rfl

instance : Session.Frame (Editor.Within (Editor.Same Editor.nextOverlay)) (· ≠ .makeOverlay) :=
  Editor.frame_counters (·.2.2) (by simp) (fun _ _ _ _ _ _ => rfl) (fun _ _ _ _ _ => rfl)
    fun _ _ _ _ h => absurd rfl h

end Editing
