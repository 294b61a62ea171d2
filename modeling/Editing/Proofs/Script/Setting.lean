import Editing.Proofs.Session.Sparing

/-!
# The setting of a script

The acts that scripts carry out neither set a protocol for locks nor change the limits of undo logs.
-/

namespace Editing

/-- The same protocol for locks and the same limits; all else may differ. -/
structure Session.SameSetting (s t : Session) : Prop where
  locks : t.locks = s.locks
  limits : t.editor.limits = s.editor.limits

instance : Session.Composes Session.SameSetting where
  refl _ := ⟨rfl, rfl⟩
  trans h h' := ⟨h'.locks.trans h.locks, h'.limits.trans h.limits⟩

theorem Editor.limits_removeIndirects (e : Editor) (root : ViewId) :
    (e.removeIndirects root).limits = e.limits := by
  have hall : ∀ (xs : List (ViewId × ViewMarkers)) (e : Editor),
      (xs.foldl (fun e x => e.removeIndirect x.1 root x.2) e).limits = e.limits := by
    intro xs
    induction xs with
    | nil => exact fun _ => rfl
    | cons x xs ih => exact fun e => ih (e.removeIndirect x.1 root x.2)
  exact hall _ e

theorem Editor.limits_restoreCurrent (e : Editor) (previous : Option ViewId) :
    (e.restoreCurrent previous).limits = e.limits := by
  rw [restoreCurrent]
  repeat' split
  all_goals rfl

namespace Act

/-- The act keeps the setting, whether it succeeds or fails. -/
def KeepsSetting {α : Type} (act : Act α) : Prop := Respects Session.SameSetting act

namespace KeepsSetting

variable {α β : Type}

/-! ## Parts of acts -/

theorem pure (a : α) : KeepsSetting (pure a : Act α) := Respects.pure a

theorem throw (e : Error) : KeepsSetting (throw e : Act α) := Respects.throw e

theorem get : KeepsSetting (get : Act Session) := Respects.get

theorem give (r : Except Error α) : KeepsSetting (give r) := Respects.give r

theorem ask (question : Editor → Except Error α) : KeepsSetting (ask question) :=
  Respects.ask question

theorem attempt {act : Act α} (h : KeepsSetting act) : KeepsSetting (attempt act) :=
  Respects.attempt h

theorem bind {act : Act α} {next : α → Act β} (h : KeepsSetting act)
    (h' : ∀ a, KeepsSetting (next a)) : KeepsSetting (act >>= next) := Respects.bind h h'

theorem map (f : α → β) {act : Act α} (h : KeepsSetting act) : KeepsSetting (f <$> act) :=
  Respects.map f h

theorem quietly {act : Act α} (h : KeepsSetting act) : KeepsSetting (Op.quietly act) :=
  .bind h fun _ => .pure _

theorem guarded {c : Prop} [Decidable c] {e : Error} {act : Act α} (h : KeepsSetting act) :
    KeepsSetting (if c then (MonadExcept.throw e : Act PUnit) >>= fun _ => act else act) :=
  Respects.guarded h

theorem change {f : Editor → Editor} (hf : ∀ e, (f e).limits = e.limits) :
    KeepsSetting (change f) :=
  Respects.change fun s => ⟨rfl, hf s.editor⟩

theorem call (c : Call) : KeepsSetting (call c) := fun _ => ⟨rfl, rfl⟩

theorem changeDocument (root : ViewId) (f : Document → Document) :
    KeepsSetting (changeDocument root f) := .change fun _ => rfl

theorem changeShown (view : ViewId) (f : Document → Document) : KeepsSetting (changeShown view f) :=
  .bind (.ask _) fun _ => .bind (.ask _) fun root => .changeDocument root f

theorem unlockIf (held : Bool) (root : ViewId) (file : Option Path) :
    KeepsSetting (unlockIf held root file) := by
  unfold Act.unlockIf
  split
  · refine .bind .get fun s => ?_
    split
    · exact .pure ()
    · exact .call _
  · exact .pure ()

theorem lock (root : ViewId) (path : Path) : KeepsSetting (lock root path) := by
  refine .bind .get fun s => ?_
  split
  · exact .pure ()
  · split
    · exact .call _
    · exact .bind (.call _) fun _ => .throw _

theorem withCurrent {act : Act α} (h : KeepsSetting act) (view : ViewId) :
    KeepsSetting (withCurrent view act) :=
  .bind (.ask _) fun _ => .bind .get fun s => .bind (.change fun _ => rfl) fun _ =>
    .bind (.attempt h) fun _ =>
      .bind (.change fun e => e.limits_restoreCurrent s.editor.current) fun _ => .give _

/-! ## Views -/

theorem createRoot (name : String) : KeepsSetting (createRoot name) :=
  .bind .get fun _ => .bind (.change fun _ => rfl) fun _ => .pure _

theorem createIndirect (base : ViewId) (name : String) :
    KeepsSetting (createIndirect base name) := by
  refine .bind .get fun s => ?_
  split
  · exact .throw _
  · split
    · exact .throw _
    · exact .bind (.ask _) fun _ => .bind .get fun _ =>
        .bind (.change fun _ => rfl) fun _ => .pure _

theorem kill (view : ViewId) : KeepsSetting (kill view) := by
  refine .bind (.ask _) fun v => .bind (.ask _) fun d => ?_
  split
  · exact .change fun _ => rfl
  · exact .bind (.change fun e => e.limits_removeIndirects view) fun _ =>
      .bind (.unlockIf _ _ _) fun _ => .change fun _ => rfl

theorem setCurrent (view : ViewId) : KeepsSetting (setCurrent view) :=
  .bind (.ask _) fun _ => .change fun _ => rfl

theorem setReadOnly (view : ViewId) (readOnly : Bool) : KeepsSetting (setReadOnly view readOnly) :=
  .bind (.ask _) fun _ => .change fun _ => rfl

theorem narrow (view : ViewId) (p q : Nat) : KeepsSetting (narrow view p q) :=
  .bind (.ask _) fun _ => .bind (.ask _) fun _ => .guarded (.changeShown _ _)

theorem widen (view : ViewId) : KeepsSetting (widen view) :=
  .bind (.ask _) fun _ => .changeShown _ _

theorem goto (view : ViewId) (pos : Nat) : KeepsSetting (goto view pos) :=
  .bind (.ask _) fun _ => .bind (.ask _) fun _ => .bind (.changeShown _ _) fun _ => .pure _

/-! ## Texts -/

theorem lockForChange (root : ViewId) (d : Document) : KeepsSetting (lockForChange root d) := by
  unfold Act.lockForChange
  split
  · exact .pure _
  · split
    · exact .pure _
    · exact .bind (.lock _ _) fun _ => .changeDocument _ _

theorem announceChange (root : ViewId) (d : Document) : KeepsSetting (announceChange root d) := by
  unfold Act.announceChange
  split
  · exact .call _
  · exact .pure _

theorem makeChange (view : ViewId) (c : Change) : KeepsSetting (makeChange view c) := by
  refine .bind (.ask _) fun d => .bind (.ask _) fun root => .bind (.ask _) fun isProtected => ?_
  split
  · exact .throw _
  · split
    · exact .pure _
    · split
      · exact .throw _
      · exact .bind (.lockForChange _ _) fun _ => .bind (.announceChange _ _) fun _ =>
          .changeDocument _ _

theorem insertAt (view : ViewId) (pos : Nat) (text : Text) :
    KeepsSetting (insertAt view pos text) :=
  .bind (.ask _) fun _ => .makeChange _ _

theorem insert (view : ViewId) (text : Text) : KeepsSetting (insert view text) :=
  .bind (.ask _) fun _ => .bind (.ask _) fun _ => .bind (.insertAt _ _ _) fun _ =>
    .bind (.changeShown _ _) fun _ => .pure _

theorem deleteRaw (view : ViewId) (start stop : Nat) : KeepsSetting (deleteRaw view start stop) :=
  .bind (.ask _) fun _ => .bind (.makeChange _ _) fun _ => .pure _

theorem deleteRegion (view : ViewId) (p q : Nat) : KeepsSetting (deleteRegion view p q) :=
  .bind (.ask _) fun _ => .deleteRaw _ _ _

theorem erase (view : ViewId) : KeepsSetting (erase view) :=
  .bind (.ask _) fun _ => .bind (.widen _) fun _ => .bind (.ask _) fun _ =>
    .bind (.deleteRaw _ _ _) fun _ => .pure _

theorem noteProperty (view : ViewId) (pos length : Nat) (key : String) (value : Value) :
    KeepsSetting (noteProperty view pos length key value) := by
  unfold Act.noteProperty
  split
  · exact .throw _
  · exact .makeChange _ _

/-! ## Overlays -/

theorem makeOverlay (view : ViewId) (p q : Nat) (front rear : Bool) :
    KeepsSetting (makeOverlay view p q front rear) :=
  .bind (.ask _) fun _ => .bind (.ask _) fun _ => .bind .get fun _ => .bind (.changeDocument _ _)
    fun _ => .bind (.change fun _ => rfl) fun _ => .pure _

theorem overlayPut (overlay : OverlayId) (key : String) (value : Value) :
    KeepsSetting (overlayPut overlay key value) := by
  refine .bind (.ask _) fun _ => .bind (.bind (.ask _) fun o => .bind (.ask _) fun home => ?_)
    fun _ => .pure _
  split
  · exact .change fun _ => rfl
  · exact .changeShown _ _

theorem deleteOverlay (overlay : OverlayId) : KeepsSetting (deleteOverlay overlay) := by
  refine .bind (.ask _) fun home => ?_
  split
  · exact .pure _
  · exact .bind (.ask _) fun _ => .bind (.changeShown _ _) fun _ => .change fun _ => rfl

theorem deleteAllOverlays (view : ViewId) : KeepsSetting (deleteAllOverlays view) :=
  .bind (.ask _) fun _ => .bind (.changeShown _ _) fun _ => .change fun _ => rfl

/-! ## Undo logs -/

theorem callHandlers (calls : List HandlerCall) : KeepsSetting (callHandlers calls) := by
  induction calls with
  | nil => exact .pure _
  | cons c cs ih => exact .bind (.call _) fun _ => ih

theorem replay (view root : ViewId) (r : Record) : KeepsSetting (replay view root r) := by
  cases r with
  | insert pos n =>
      exact .bind (.ask _) fun _ => .bind (.makeChange _ _) fun _ => .bind (.goto _ _) fun _ =>
        .pure _
  | delete pos text as =>
      exact .bind (.ask _) fun _ => .bind (.ask _) fun _ => .bind (.insertAt _ _ _) fun _ =>
        .bind (.changeShown _ _) fun _ => .bind (.goto _ _) fun _ => .pure _
  | property start stop key value => exact .bind (.ask _) fun _ => .call _
  | boundary => exact .pure _

theorem replayAll (view root : ViewId) (rs : List Record) :
    KeepsSetting (replayAll view root rs) := by
  induction rs with
  | nil => exact .pure _
  | cons r rs ih => exact .bind (.replay view root r) fun _ => ih

theorem takeGroup (root : ViewId) : KeepsSetting (takeGroup root) :=
  .bind (.ask _) fun _ => .bind (.changeShown _ _) fun _ => .give _

theorem undo (view : ViewId) : KeepsSetting (undo view) := by
  refine .bind (.ask _) fun root => .bind (.ask _) fun d => .guarded <|
    .bind (.takeGroup root) fun group => .bind (.changeShown _ _) fun _ =>
      .bind (.attempt (.replayAll _ _ _)) fun outcome => .bind (.changeShown _ _) fun _ => ?_
  split
  · exact .pure _
  · exact .bind (.changeShown _ _) fun _ => .throw _

theorem truncateUndo (view : ViewId) : KeepsSetting (truncateUndo view) :=
  .bind (.ask _) fun root => .withCurrent (.bind (.ask _) fun _ => .bind .get fun _ =>
    .bind (.changeShown _ _) fun _ => .bind (.callHandlers _) fun _ => .give _) root

theorem truncateAll (roots : List ViewId) : KeepsSetting (truncateAll roots) := by
  induction roots with
  | nil => exact .pure _
  | cons root roots ih => exact .bind (.truncateUndo root) fun _ => .bind ih fun _ => .pure _

theorem reclaim : KeepsSetting reclaim := .bind .get fun _ => .truncateAll _

end KeepsSetting

end Act

end Editing
