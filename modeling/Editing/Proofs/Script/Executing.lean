import Editing.Proofs.Script.Soundness
import Editing.Proofs.Session.Ranging
import Editing.Proofs.Session.Roster

/-!
# Commands that fail

What a command does after it has changed something does not fail. A view that was just created is
live and can be made current, an overlay that was just made can be named, and the roots whose logs
were cut back are still live when it is told what became of them. So a command that fails leaves the
session, the names of overlays and what has been written as they were. Only an undo may leave
something behind.
-/

namespace Editing

namespace Act

variable {s t : Session} {view root : ViewId} {v : View} {d : Document}

/-! ## Acts made of several parts -/

theorem Succeeds.setCurrent (hv : s.editor.views.get? view = some v) :
    Succeeds (setCurrent view) s :=
  .ask_bind (Editor.view_of_get hv) (.change _ s)

/-- A root that was just created is live, so it can be made current. -/
theorem Succeeds.makeRoot (name : String) (s : Session) :
    Succeeds (do
      let view ← createRoot name
      Act.setCurrent view) s := by
  refine .bind ⟨_, _, rfl⟩ fun view t hrun => ?_
  cases hrun
  exact .setCurrent (Table.get?_insert_self _ _ _)

/-- An indirect view that was just created is live, so it can be made current. -/
theorem Atomic.makeIndirect (base : ViewId) (name : String) (s : Session) :
    Atomic (do
      let view ← Act.createIndirect base name
      Act.setCurrent view) s := by
  refine .bind (.createIndirect base name s) fun view t hrun => ?_
  rcases createIndirect_cases base name s with ⟨e, he⟩ | ⟨v, hv⟩
  · rw [he] at hrun
    cases hrun
  · rw [hv] at hrun
    cases hrun
    exact .setCurrent (Table.get?_insert_self _ _ _)

/-- Once the whole text has been made accessible, nothing but a lock stands in the way of deleting
it. -/
theorem spared_erase (hs : s.editor.Shows view v root d) (hlocks : s.locks = none) {e : Error}
    (hrun : (erase view).run s = (.error e, t)) : t = s := by
  cases hprotected : v.readOnly && !s.editor.inhibitReadOnly with
  | true =>
      rw [run_erase hs, hprotected, if_pos rfl] at hrun
      cases hrun
      rfl
  | false =>
      rw [run_erase_of_unprotected hs hprotected, Session.hindered?_of_no_locks hlocks] at hrun
      cases hrun

/-- What became of logs that were cut back is told of the roots that they belong to. -/
theorem roots_truncateAll {roots : List ViewId} {outcomes : List (ViewId × Truncation)}
    (h : (truncateAll roots).run s = (.ok outcomes, t)) : outcomes.map Prod.fst = roots := by
  induction roots generalizing s outcomes with
  | nil =>
      cases h
      rfl
  | cons root roots ih =>
      obtain ⟨outcome, r, -, h⟩ := exists_of_bind h
      obtain ⟨rest, u, hrest, h⟩ := exists_of_bind h
      cases h
      rw [List.map_cons, ih hrest]

theorem views_truncateAll (h : s.editor.WellFormed) (roots : List ViewId) :
    ((truncateAll roots).run s).2.editor.views = s.editor.views := by
  induction roots generalizing s with
  | nil => rfl
  | cons root roots ih =>
      obtain ⟨marks, -, -, hmoves, hviews⟩ := moves_truncateUndo h root
      rw [truncateAll, run_bind]
      rcases hrun : (truncateUndo root).run s with ⟨e | outcome, r⟩
      · rw [hrun] at hviews
        exact hviews
      · rw [hrun] at hviews hmoves
        have hrest := ih (hmoves.wellFormed h)
        simp only [run_bind]
        rcases hrun' : (truncateAll roots).run r with ⟨e | rest, u⟩
        · rw [hrun'] at hrest
          exact hrest.trans hviews
        · rw [hrun'] at hrest
          exact hrest.trans hviews

end Act

/-- What meets a region of a text has a home. -/
theorem Editor.Overlaying.home_of_overlaysIn {e : Editor} (h : e.Overlaying)
    {view root : ViewId} {v : View} {d : Document} (hs : e.Shows view v root d) {p q : Nat}
    {live : List OverlayId} (hlive : e.overlaysIn view p q = .ok live) {overlay : OverlayId}
    (hmem : overlay ∈ live) : ∃ home, e.overlayHomes.get? overlay = some home := by
  rw [hs.overlaysIn_eq] at hlive
  cases hlive
  rw [Overlays.overRegion_eq] at hmem
  obtain ⟨o, ho, -⟩ := Overlays.mem_select.mp hmem
  exact ⟨.attached root, (h.attached overlay root).mpr ⟨d, o, hs.document, ho⟩⟩

namespace Play

variable {limits : Limits} {p q : Playback}

/-! ## What is told -/

theorem Completes.write (line : Text) (p : Playback) : Completes (write line) p := .modify _ p

theorem Completes.reportAll (outcomes : List (ViewId × Truncation)) (p : Playback)
    (h : ∀ x ∈ outcomes, ∃ v, p.session.editor.views.get? x.1 = some v) :
    Completes (reportAll outcomes) p := by
  induction outcomes generalizing p with
  | nil => exact .pure () p
  | cons x outcomes ih =>
      obtain ⟨hx, houtcomes⟩ := List.forall_mem_cons.mp h
      obtain ⟨v, hv⟩ := hx
      refine .ask_bind (Editor.nameOf_of_get hv) <| .bind (.write _ p) fun _ q hrun => ?_
      cases hrun
      exact ih _ houtcomes

theorem Completes.describeAll (named : List (String × OverlayId)) (h : p.session.Sound limits)
    (hnamed : ∀ x ∈ named, ∃ home, p.session.editor.overlayHomes.get? x.2 = some home) :
    Completes (describeAll named) p := by
  induction named generalizing p with
  | nil => exact .pure () p
  | cons x named ih =>
      obtain ⟨hx, hnamed⟩ := List.forall_mem_cons.mp hnamed
      obtain ⟨home, hhome⟩ := hx
      obtain ⟨o, ho⟩ := h.overlaying.overlay_eq h.wellFormed.registry hhome
      obtain ⟨lying, hlying⟩ := h.overlaying.overlayInText_eq h.wellFormed.registry hhome
      have hstart : p.session.editor.overlayStart x.2 = .ok (lying.map Overlay.start) := by
        rw [Editor.overlayStart, hlying]
        rfl
      have hstop : p.session.editor.overlayEnd x.2 = .ok (lying.map Overlay.stop) := by
        rw [Editor.overlayEnd, hlying]
        rfl
      have hproperties : p.session.editor.overlayProperties x.2 = .ok o.properties := by
        rw [Editor.overlayProperties, ho]
        rfl
      refine .bind ?_ fun _ q hrun => ?_
      · exact .ask_bind hstart <| .ask_bind hstop <| .ask_bind hproperties <| .write _ p
      · rw [describe, run_ask_bind hstart, run_ask_bind hstop, run_ask_bind hproperties] at hrun
        cases hrun
        exact ih h hnamed

/-! ## Commands -/

theorem Spares.onCurrent {α : Type} {act : ViewId → Act α}
    (h : ∀ view, p.session.editor.current = some view → Spares (Play.perform (act view)) p) :
    Spares (Play.onCurrent act) p :=
  .find_bind (finds_current p) fun view hview => (h view hview).bind fun _ q _ => .pure () q

/-- A command that is not an undo leaves all as it was when it fails. -/
theorem Spares.execute (h : p.session.Sound limits) {c : Command} (hc : c ≠ .undo) :
    Spares (execute c) p := by
  have hw := h.wellFormed
  unfold Play.execute
  cases c with
  | undo => exact absurd rfl hc
  | root name => exact (Completes.perform (.makeRoot name _)).spares
  | indirect base name =>
      exact .find_bind (finds_viewNamed base p) fun base _ =>
        .perform_atomic h.locks (.makeIndirect base name _)
  | switch name =>
      exact .find_bind (finds_viewNamed name p) fun view _ =>
        .perform_atomic h.locks (.setCurrent view _)
  | kill name =>
      exact .find_bind (finds_viewNamed name p) fun view _ =>
        .perform_atomic h.locks (.kill view _)
  | insert text =>
      exact .onCurrent fun view _ => .perform_atomic h.locks (.insert hw view text)
  | goto pos => exact .onCurrent fun view _ => .perform_atomic h.locks (.goto view pos _)
  | delete a b =>
      exact .onCurrent fun view _ => .perform_atomic h.locks (.deleteRegion view a b _)
  | erase =>
      -- An erasure widens the view first, so it does not fail before it has changed anything.
      refine .onCurrent fun view hview => .perform fun e t hrun => ?_
      obtain ⟨v, root, d, hs⟩ := h.current_shows hview
      exact Act.spared_erase hs h.locks hrun
  | narrow a b => exact .onCurrent fun view _ => .perform_atomic h.locks (.narrow view a b _)
  | widen => exact .onCurrent fun view _ => .perform_atomic h.locks (.widen view _)
  | readOnly flag =>
      exact .onCurrent fun view _ => .perform_atomic h.locks (.setReadOnly view flag _)
  | overlay name a b =>
      exact .find_bind (finds_current p) fun view _ =>
        .bind (.perform_atomic h.locks (.makeOverlay view a b false false _)) fun _ q _ =>
          .modify _ q
  | put overlay key value =>
      exact .find_bind (finds_overlayNamed overlay p) fun overlay _ =>
        .bind (.perform_atomic h.locks (.overlayPut overlay key value _)) fun _ q _ => .pure () q
  | deleteOverlay name =>
      exact .find_bind (finds_overlayNamed name p) fun overlay _ =>
        .perform_atomic h.locks (.deleteOverlay overlay _)
  | clearOverlays =>
      exact .onCurrent fun view _ => .perform_atomic h.locks (.deleteAllOverlays view _)
  | property start stop key old =>
      refine .find_bind (finds_current p) fun view _ => ?_
      split
      · exact .throw _ p
      · exact .perform_atomic h.locks (.noteProperty view start (stop - start) key old _)
  | truncate =>
      refine .find_bind (finds_current p) fun view hview =>
        .bind (.perform_atomic h.locks (.truncateUndo hw view)) fun outcome q hrun => ?_
      obtain ⟨t, hact, rfl⟩ := exists_of_perform hrun
      obtain ⟨v, root, d, hs⟩ := h.current_shows hview
      obtain ⟨-, -, -, -, hviews⟩ := Act.moves_truncateUndo hw view
      rw [hact] at hviews
      exact .ask_bind (Editor.nameOf_of_get (hviews.symm ▸ hs.live)) (.write _ _)
  | reclaim =>
      refine .bind (.perform_atomic h.locks (.reclaim hw)) fun outcomes q hrun =>
        .reportAll _ q fun x hx => ?_
      obtain ⟨t, hact, rfl⟩ := exists_of_perform hrun
      have hact : (Act.truncateAll p.session.editor.rootList).run p.session = (.ok outcomes, t) :=
        hact
      have hroot : x.1 ∈ p.session.editor.rootList :=
        Act.roots_truncateAll hact ▸ List.mem_map_of_mem hx
      have hviews := Act.views_truncateAll hw p.session.editor.rootList
      rw [hact] at hviews
      obtain ⟨v, hv, -⟩ := Act.mem_rootList.mp hroot
      exact ⟨v, hviews.symm ▸ hv⟩
  | print =>
      exact .find_bind (finds_current p) fun view _ => .ask_bind fun name _ =>
        .ask_bind fun text _ => .ask_bind fun point _ => (Completes.write _ p).spares
  | overlays =>
      -- Only overlays that meet the accessible part are described, and these have a home.
      refine .find_bind (finds_current p) fun view hview => .ask_bind fun low _ =>
        .ask_bind fun high _ => .ask_bind fun live hlive => .get_bind <|
          (Completes.describeAll _ h fun x hx => ?_).spares
      obtain ⟨v, root, d, hs⟩ := h.current_shows hview
      have hmem := (List.mem_filter.mp hx).2
      exact h.overlaying.home_of_overlaysIn hs hlive (List.contains_iff_mem.mp hmem)

/-! ## Lines -/

/-- The newest group of a live view can be closed. -/
theorem Completes.closeGroup (h : p.session.Sound limits) : Completes closeGroup p := by
  refine .get_bind ?_
  cases hcurrent : p.session.editor.current with
  | none => exact .pure () p
  | some view =>
      obtain ⟨v, root, d, hs⟩ := h.current_shows hcurrent
      exact .perform (.changeShown hs _)

/-- A line that does not hold an undo leaves all as it was when it fails. -/
theorem Spares.playLine (h : p.session.Sound limits) {line : Text}
    (hundo : Command.parse line ≠ .ok (some .undo)) (number : Nat) :
    Spares (playLine number line) p := by
  unfold Play.playLine
  split
  · exact .throw _ p
  · exact .pure () p
  · rename_i c hparse
    have hc : c ≠ .undo := fun hc => hundo (hc ▸ hparse)
    refine .bind (.within _ (.execute h hc)) fun _ q hrun => ?_
    exact .closeGroup (((Keeps.sound_execute c).within _).left h hrun)

end Play

end Editing
