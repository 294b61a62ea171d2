import Editing.Proofs.Script.Running
import Editing.Proofs.Script.Setting

/-!
# Sound playbacks

Whatever a script does to the session, it does by operations, and none of them sets a protocol for
locks or changes the limits of undo logs. So what these operations keep holds at every point of a
script, also where it fails: the session is reachable, no locks are asked for, and the limits are
those it started with.
-/

namespace Editing

/-! ## The operations of a script -/

namespace Op

/-- Whether commands perform the operation, asking apart. -/
def scripted : Op → Bool
  | createRoot _ | createIndirect .. | kill _ | setCurrent _ | narrow .. | widen _ | goto ..
  | insert .. | deleteRegion .. | erase _ | setReadOnly .. | makeOverlay .. | overlayPut ..
  | deleteOverlay _ | deleteAllOverlays _ | closeGroup _ | noteProperty .. | undo _
  | truncateUndo _ | reclaim => true
  | _ => false

/-- Whether the operation may record changes. -/
def edits : Op → Bool
  | insert .. | deleteRegion .. | erase _ | noteProperty .. | undo _ => true
  | _ => false

theorem keepsSetting {o : Op} (h : o.scripted = true) : o.act.KeepsSetting := by
  cases o with
  | createRoot name => exact .map _ (.createRoot name)
  | createIndirect base name => exact .map _ (.createIndirect base name)
  | kill view => exact .quietly (.kill view)
  | setCurrent view => exact .quietly (.setCurrent view)
  | narrow view p q => exact .quietly (.narrow view p q)
  | widen view => exact .quietly (.widen view)
  | goto view pos => exact .map _ (.goto view pos)
  | insert view text => exact .map _ (.insert view text)
  | deleteRegion view p q => exact .map _ (.deleteRegion view p q)
  | erase view => exact .quietly (.erase view)
  | setReadOnly view readOnly => exact .quietly (.setReadOnly view readOnly)
  | makeOverlay view p q front rear => exact .map _ (.makeOverlay view p q front rear)
  | overlayPut overlay key value => exact .map _ (.overlayPut overlay key value)
  | deleteOverlay overlay => exact .quietly (.deleteOverlay overlay)
  | deleteAllOverlays view => exact .quietly (.deleteAllOverlays view)
  | closeGroup view => exact .quietly (.changeShown view _)
  | noteProperty view pos length key value =>
      exact .quietly (.noteProperty view pos length key value)
  | undo view => exact .quietly (.undo view)
  | truncateUndo view => exact .map _ (.truncateUndo view)
  | reclaim => exact .map _ .reclaim
  | _ => cases h

end Op

/-- Whether the command may record changes. -/
def Command.edits : Command → Bool
  | insert _ | delete .. | erase | property .. | undo => true
  | _ => false

/-! ## What scripts keep -/

namespace Play

variable {α β : Type} {P : Session → Prop}

/-- The part keeps what holds of the session, whether it succeeds or fails. -/
def Keeps (P : Session → Prop) (play : Play α) : Prop :=
  ∀ p, P p.session → P (play.run p).2.session

namespace Keeps

theorem left {play : Play α} (hkeeps : Keeps P play) {p q : Playback} (h : P p.session)
    {outcome : Except Failure α} (hrun : play.run p = (outcome, q)) : P q.session := by
  have hleft := hkeeps p h
  rw [hrun] at hleft
  exact hleft

theorem pure (a : α) : Keeps P (pure a : Play α) := fun _ h => h

theorem throw (f : Failure) : Keeps P (throw f : Play α) := fun _ h => h

theorem bind {play : Play α} {next : α → Play β} (h : Keeps P play)
    (h' : ∀ a, Keeps P (next a)) : Keeps P (play >>= next) := by
  intro p hp
  rw [run_bind]
  rcases hrun : play.run p with ⟨f | a, q⟩
  · exact h.left hp hrun
  · exact h' a q (h.left hp hrun)

theorem get : Keeps P (get : Play Playback) := fun _ h => h

theorem modify {f : Playback → Playback} (h : ∀ p, (f p).session = p.session) :
    Keeps P (modify f : Play Unit) := by
  intro p hp
  exact (h p).symm ▸ hp

theorem ask (question : Editor → Except Error α) : Keeps P (perform (Act.ask question)) := by
  intro p hp
  rw [run_perform_ask]
  exact hp

theorem perform {act : Act α} (o : Op) (h : ∀ s, s.after o = (act.run s).2)
    (ho : ∀ s, P s → P (s.after o)) : Keeps P (perform act) := by
  intro p hp
  rw [run_perform]
  exact h p.session ▸ ho p.session hp

theorem perform_map {act : Act α} {f : α → Reply} (o : Op) (h : o.act = f <$> act)
    (ho : ∀ s, P s → P (s.after o)) : Keeps P (Play.perform act) :=
  perform o (fun s => by rw [Session.after, h, Act.run_map]) ho

theorem perform_quietly {act : Act α} (o : Op) (h : o.act = Op.quietly act)
    (ho : ∀ s, P s → P (s.after o)) : Keeps P (Play.perform act) :=
  perform o (fun s => by rw [Session.after, h, Act.run_quietly]) ho

theorem within (context : String) {play : Play α} (h : Keeps P play) :
    Keeps P (within context play) := by
  intro p hp
  rw [run_within]
  exact h p hp

theorem write (line : Text) : Keeps P (write line) := modify fun _ => rfl

theorem current : Keeps P current := by
  refine .bind .get fun p => ?_
  split
  · exact .pure _
  · exact .throw _

theorem viewNamed (name : String) : Keeps P (viewNamed name) := by
  refine .bind .get fun p => ?_
  split
  · exact .pure _
  · exact .throw _

theorem overlayNamed (name : String) : Keeps P (overlayNamed name) := by
  refine .bind .get fun p => ?_
  split
  · exact .pure _
  · exact .throw _

theorem onCurrent {act : ViewId → Act α} (h : ∀ view, Keeps P (Play.perform (act view))) :
    Keeps P (onCurrent act) :=
  .bind .current fun view => .bind (h view) fun _ => .pure _

theorem reportAll (outcomes : List (ViewId × Truncation)) : Keeps P (reportAll outcomes) := by
  induction outcomes with
  | nil => exact .pure _
  | cons x outcomes ih => exact .bind (.ask _) fun _ => .bind (.write _) fun _ => ih

theorem describeAll (named : List (String × OverlayId)) : Keeps P (describeAll named) := by
  induction named with
  | nil => exact .pure _
  | cons x named ih =>
      refine .bind ?_ fun _ => ih
      exact .bind (.ask _) fun _ => .bind (.ask _) fun _ => .bind (.ask _) fun _ => .write _

/-- An act of two parts is performed part by part. -/
theorem perform_bind {act : Act α} {next : α → Act β} (h : Keeps P (Play.perform act))
    (h' : ∀ a, Keeps P (Play.perform (next a))) : Keeps P (Play.perform (act >>= next)) := by
  intro p hp
  have hact := h p hp
  rw [run_perform] at hact ⊢
  rw [Act.run_bind]
  rcases hrun : act.run p.session with ⟨e | a, s⟩
  · rw [hrun] at hact
    exact hact
  · rw [hrun] at hact
    have hnext := h' a { p with session := s } hact
    rw [run_perform] at hnext
    exact hnext

/-- What the operations of scripts keep is kept by a command. One that records no changes performs
no operation that does. -/
theorem execute {c : Command} (h : ∀ o : Op, o.scripted = true →
    (o.edits = true → c.edits = true) → ∀ s, P s → P (s.after o)) : Keeps P (execute c) := by
  have hcurrent : ∀ view, Keeps P (Play.perform (Act.setCurrent view)) := fun view =>
    .perform_quietly (.setCurrent view) rfl (h _ rfl nofun)
  unfold Play.execute
  cases c with
  | root name =>
      exact .perform_bind (.perform_map (.createRoot name) rfl (h _ rfl nofun)) hcurrent
  | indirect base name =>
      exact .bind (.viewNamed base) fun base => .perform_bind
        (.perform_map (.createIndirect base name) rfl (h _ rfl nofun)) hcurrent
  | switch name => exact .bind (.viewNamed name) hcurrent
  | kill name =>
      exact .bind (.viewNamed name) fun view => .perform_quietly (.kill view) rfl (h _ rfl nofun)
  | insert text =>
      exact .onCurrent fun view =>
        .perform_map (.insert view text) rfl (h _ rfl fun _ => rfl)
  | goto pos =>
      exact .onCurrent fun view => .perform_map (.goto view pos) rfl (h _ rfl nofun)
  | delete a b =>
      exact .onCurrent fun view =>
        .perform_map (.deleteRegion view a b) rfl (h _ rfl fun _ => rfl)
  | erase =>
      exact .onCurrent fun view => .perform_quietly (.erase view) rfl (h _ rfl fun _ => rfl)
  | narrow a b =>
      exact .onCurrent fun view => .perform_quietly (.narrow view a b) rfl (h _ rfl nofun)
  | widen => exact .onCurrent fun view => .perform_quietly (.widen view) rfl (h _ rfl nofun)
  | readOnly flag =>
      exact .onCurrent fun view => .perform_quietly (.setReadOnly view flag) rfl (h _ rfl nofun)
  | overlay name a b =>
      exact .bind .current fun view => .bind
        (.perform_map (.makeOverlay view a b false false) rfl (h _ rfl nofun)) fun _ =>
          .modify fun _ => rfl
  | put overlay key value =>
      exact .bind (.overlayNamed overlay) fun overlay => .bind
        (.perform_map (.overlayPut overlay key value) rfl (h _ rfl nofun)) fun _ => .pure _
  | deleteOverlay name =>
      exact .bind (.overlayNamed name) fun overlay =>
        .perform_quietly (.deleteOverlay overlay) rfl (h _ rfl nofun)
  | clearOverlays =>
      exact .onCurrent fun view =>
        .perform_quietly (.deleteAllOverlays view) rfl (h _ rfl nofun)
  | property start stop key old =>
      refine .bind .current fun view => ?_
      split
      · exact .throw _
      · exact .perform_quietly (.noteProperty view start (stop - start) key old) rfl
          (h _ rfl fun _ => rfl)
  | undo =>
      exact .onCurrent fun view => .perform_quietly (.undo view) rfl (h _ rfl fun _ => rfl)
  | truncate =>
      exact .bind .current fun view => .bind
        (.perform_map (.truncateUndo view) rfl (h _ rfl nofun)) fun _ =>
          .bind (.ask _) fun _ => .write _
  | reclaim =>
      exact .bind (.perform_map .reclaim rfl (h _ rfl nofun)) fun outcomes => .reportAll outcomes
  | print =>
      exact .bind .current fun view => .bind (.ask _) fun _ => .bind (.ask _) fun _ =>
        .bind (.ask _) fun _ => .write _
  | overlays =>
      exact .bind .current fun view => .bind (.ask _) fun _ => .bind (.ask _) fun _ =>
        .bind (.ask _) fun _ => .bind .get fun _ => .describeAll _

theorem closeGroup (h : ∀ view s, P s → P (s.after (.closeGroup view))) :
    Keeps P closeGroup := by
  refine .bind .get fun p => ?_
  split
  · rename_i view _
    exact .perform_quietly (.closeGroup view) rfl (h view)
  · exact .pure _

theorem playLine (h : ∀ o : Op, o.scripted = true → ∀ s, P s → P (s.after o)) (number : Nat)
    (line : Text) : Keeps P (playLine number line) := by
  unfold Play.playLine
  split
  · exact .throw _
  · exact .pure _
  · exact .bind (.within _ (.execute fun o ho _ => h o ho)) fun _ =>
      .closeGroup fun view => h (.closeGroup view) rfl

theorem playLines (h : ∀ o : Op, o.scripted = true → ∀ s, P s → P (s.after o)) (number : Nat)
    (lines : List Text) : Keeps P (playLines number lines) := by
  induction lines generalizing number with
  | nil => exact .pure _
  | cons line lines ih => exact .bind (.playLine h number line) fun _ => ih (number + 1)

end Keeps

end Play

/-! ## Sound sessions -/

/-- The session is one that operations lead to, under the limits and without a protocol. -/
structure Session.Sound (limits : Limits) (s : Session) : Prop where
  reachable : s.Reachable
  locks : s.locks = none
  limits : s.editor.limits = limits

namespace Session.Sound

variable {limits : Limits} {s : Session}

theorem start (limits : Limits) : (Session.start limits).Sound limits :=
  ⟨.fresh limits none, rfl, rfl⟩

theorem after (h : s.Sound limits) {o : Op} (ho : o.scripted = true) : (s.after o).Sound limits :=
  have hset := Op.keepsSetting ho s
  ⟨h.reachable.after o, hset.locks.trans h.locks, hset.limits.trans h.limits⟩

theorem wellFormed (h : s.Sound limits) : s.editor.WellFormed :=
  h.reachable.atRest.wellFormed

theorem overlaying (h : s.Sound limits) : s.editor.Overlaying :=
  overlaying_lasting.reachable fresh_overlaying h.reachable

theorem current_shows (h : s.Sound limits) {view : ViewId} (hview : s.editor.current = some view) :
    ∃ v root d, s.editor.Shows view v root d := by
  obtain ⟨v, hv⟩ := h.wellFormed.registry.current_live view hview
  obtain ⟨root, d, hs⟩ := h.wellFormed.registry.shows_of_live hv
  exact ⟨v, root, d, hs⟩

end Session.Sound

namespace Play.Keeps

variable {limits : Limits}

theorem sound_execute (c : Command) : Keeps (Session.Sound limits) (Play.execute c) :=
  .execute fun _ ho _ _ hs => hs.after ho

theorem sound_playLine (number : Nat) (line : Text) :
    Keeps (Session.Sound limits) (Play.playLine number line) :=
  .playLine (fun _ ho _ hs => hs.after ho) number line

theorem sound_playLines (number : Nat) (lines : List Text) :
    Keeps (Session.Sound limits) (Play.playLines number lines) :=
  .playLines (fun _ ho _ hs => hs.after ho) number lines

end Play.Keeps

end Editing
