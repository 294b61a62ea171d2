import Editing.Config
import Editing.Proofs.History.Handling
import Editing.Proofs.Script.Soundness
import Editing.Proofs.Session.Confining
import Editing.Proofs.Session.Returning
import Editing.Proofs.Session.Truncated

/-!
# Lines that close their groups

A line closes the newest group of the view that is current once its command has been executed. That
is enough: a command that records changes does so in the document of the current view and leaves
this view current, and no other command leaves a group open in any document. So after every line
that succeeds the log of every document waits for a group to be opened.
-/

namespace Editing

/-- No handler is called under the limits, or the one that discards all of a log. -/
def Limits.ForScripts (limits : Limits) : Prop :=
  limits.handler = none ∨ limits.handler = some Config.discardAll

/-! ## Logs without an open group -/

namespace UndoLog

variable {l : UndoLog} {limits : Limits}

/-- The log takes records, and the next one opens a group. -/
structure Ready (l : UndoLog) : Prop where
  enabled : l.isEnabled = true
  closed : l.records = [] ∨ ∃ older, l.records = .boundary :: older

theorem ready_empty : empty.Ready := ⟨rfl, Or.inl rfl⟩

theorem WellFormed.ready_boundary (h : l.WellFormed) (he : l.isEnabled = true)
    (hs : l.suspended = false) : l.boundary.Ready := by
  refine ⟨(isEnabled_boundary l).trans he, ?_⟩
  rw [h.records_boundary, if_pos (accepts_of_enabled he hs)]
  exact Record.close_closed l.records

/-- Records are only taken off behind the newest, which still closes a group. -/
theorem CutTo.ready {m : UndoLog} (hcut : l.CutTo m) (hl : l.WellFormed)
    (he : m.isEnabled = l.isEnabled) (h : l.Ready) : m.Ready := by
  refine ⟨he.trans h.enabled, ?_⟩
  obtain ⟨k, hk⟩ := hcut.records hl
  rw [hk]
  cases k with
  | zero => exact Or.inl rfl
  | succ k =>
      rcases h.closed with hnil | ⟨older, hcons⟩
      · exact Or.inl (by rw [hnil, List.take_nil])
      · exact Or.inr ⟨older.take k, by rw [hcons, List.take_succ_cons]⟩

theorem WellFormed.isEnabled_truncate (h : l.WellFormed) (hs : l.suspended = false)
    (hlimits : limits.ForScripts) : (l.truncate limits).log.isEnabled = l.isEnabled := by
  have hcut : (l.cutBack limits.soft limits.strong).2.isEnabled = l.isEnabled := by
    obtain ⟨tail, hextends, -⟩ := h.extends_cutBack limits.soft limits.strong
    exact hextends.enabled.symm
  rcases hlimits with hnone | hdiscard
  · rw [truncate, truncateWith_of_uncalled hs _ _ (.inl (by rw [hnone]; rfl))]
    exact hcut
  · cases hpasses : passes limits.outer l.newestCost with
    | false =>
        rw [truncate, truncateWith_of_uncalled hs _ _ (.inr hpasses)]
        exact hcut
    | true =>
        rw [((truncate_of_called hs hdiscard hpasses).2.settled rfl).2]
        simp only [runActions, LogAction.run, isEnabled, UndoLog.clear, Option.isSome_map]

theorem Ready.truncate (h : l.Ready) (hl : l.WellFormed) (hs : l.suspended = false)
    (hlimits : limits.ForScripts) : (l.truncate limits).log.Ready :=
  (CutTo.truncate l limits).ready hl (hl.isEnabled_truncate hs hlimits) h

end UndoLog

namespace Session

variable {s t : Session} {limits : Limits} {view root : ViewId} {v : View} {d : Document}

/-- No group is open in any document. -/
def Ready (s : Session) : Prop :=
  ∀ root d, s.editor.documents.get? root = some d → d.log.Ready

theorem start_ready (limits : Limits) : (start limits).Ready := by
  intro root d hd
  simp [start, Editor.empty] at hd

theorem Ready.closes (h : s.Ready) (hr : s.editor.Registry) (hroot : root ∈ s.editor.rootList) :
    ∃ records, s.editor.undoRecords root = .ok records ∧
      (records = [] ∨ ∃ older, records = .boundary :: older) := by
  obtain ⟨v, hv, hb⟩ := Act.mem_rootList.mp hroot
  obtain ⟨d, hd⟩ := hr.owned root v hv hb
  obtain ⟨w, hs, -⟩ := hr.shows_root hd
  exact ⟨d.log.records, hs.undoRecords_eq, (h root d hd).closed⟩

theorem Ready.moves (h : s.Ready) (hmoves : Moves [] s t) : t.Ready := by
  intro r c hc
  obtain ⟨d, hd, halike⟩ := hmoves.untouched List.not_mem_nil hc
  exact halike.log ▸ h r d hd

theorem Ready.onDocument (h : s.Ready) {f : Document → Document}
    (hf : ∀ d, s.editor.documents.get? root = some d → (f d).log.Ready) :
    (s.onDocument root f).Ready := by
  intro r c hc
  by_cases hr : r = root
  · subst hr
    rw [get?_onDocument, if_pos rfl] at hc
    obtain ⟨d, hd, rfl⟩ := Option.map_eq_some_iff.mp hc
    exact hf d hd
  · rw [get?_onDocument_of_ne _ hr] at hc
    exact h r c hc

theorem Ready.createRoot (h : s.Ready) (name : String) : (s.after (.createRoot name)).Ready := by
  have hadd : s.after (.createRoot name) = s.edit (·.addRoot name) := rfl
  rw [hadd]
  intro r c hc
  rw [editor_edit, Editor.addRoot] at hc
  simp only [Table.get?_insert] at hc
  split at hc
  · cases hc
    exact UndoLog.ready_empty
  · exact h r c hc

theorem Ready.closeGroup (h : s.Ready) (hrest : s.AtRest) (view : ViewId) :
    (s.after (.closeGroup view)).Ready := by
  rcases hrest.after_closeGroup_cases view with heq | ⟨v, root, d, hs, heq⟩
  · rw [heq]
    exact h
  · rw [heq]
    refine h.onDocument fun c hc => ?_
    have hadmits := hrest.wellFormed.admits hc
    exact hadmits.log.ready_boundary (h root c hc).enabled hadmits.takes

theorem Ready.truncateUndo (h : s.Ready) (hw : s.editor.WellFormed)
    (hlimits : s.editor.limits.ForScripts) (view : ViewId) :
    ((Act.truncateUndo view).run s).2.Ready := by
  rcases hw.registry.dead_or_shows view with hdead | ⟨v, root, d, hs⟩
  · rw [Act.truncateUndo, Act.run_ask_bind_error (Editor.rootOf_of_dead hdead)]
    exact h
  · have hadmits := hw.admits hs.document
    rw [Act.run_truncateUndo hw hs]
    exact h.onDocument fun c _ =>
      (h root d hs.document).truncate hadmits.log hadmits.takes hlimits

theorem Ready.truncateAll (h : s.Ready) (hw : s.editor.WellFormed)
    (hlimits : s.editor.limits.ForScripts) (roots : List ViewId) :
    ((Act.truncateAll roots).run s).2.Ready := by
  induction roots generalizing s with
  | nil => exact h
  | cons root roots ih =>
      have hfirst := h.truncateUndo hw hlimits root
      obtain ⟨marks, -, -, hmoves, -⟩ := Act.moves_truncateUndo hw root
      have hset := Act.KeepsSetting.truncateUndo root s
      rw [Act.truncateAll, Act.run_bind]
      rcases hrun : (Act.truncateUndo root).run s with ⟨e | outcome, r⟩
      · rw [hrun] at hfirst
        exact hfirst
      · rw [hrun] at hfirst hmoves hset
        have hrest := ih hfirst (hmoves.wellFormed hw) (hset.limits ▸ hlimits)
        simp only [Act.run_bind]
        rcases hrun' : (Act.truncateAll roots).run r with ⟨e | rest, u⟩
        · rw [hrun'] at hrest
          exact hrest
        · rw [hrun'] at hrest
          exact hrest

/-- An operation of a script that records no changes leaves no group open. -/
theorem Sound.ready_after (h : s.Sound limits) (hlimits : limits.ForScripts) (hready : s.Ready)
    {o : Op} (ho : o.scripted = true) (hedits : o.edits = false) : (s.after o).Ready := by
  have hw := h.wellFormed
  have hlimits : s.editor.limits.ForScripts := h.limits.symm ▸ hlimits
  have hmap : ∀ {α : Type} {act : Act α} {f : α → Reply}, Moves [] s (act.run s).2 →
      ((f <$> act).run s).2.Ready := fun hmoves => by
    rw [Act.run_map]
    exact hready.moves hmoves
  have hquietly : ∀ {act : Act Unit}, Moves [] s (act.run s).2 →
      ((Op.quietly act).run s).2.Ready := fun hmoves => by
    rw [Act.run_quietly]
    exact hready.moves hmoves
  cases o with
  | createRoot name => exact hready.createRoot name
  | closeGroup view => exact hready.closeGroup h.reachable.atRest view
  | truncateUndo view =>
      rw [Session.after, Op.act, Act.run_map]
      exact hready.truncateUndo hw hlimits view
  | reclaim =>
      rw [Session.after, Op.act, Act.run_map]
      exact hready.truncateAll hw hlimits _
  | createIndirect base name => exact hmap (Act.moves_createIndirect base name s)
  | kill view => exact hquietly (Act.moves_kill hw view)
  | setCurrent view => exact hquietly (Act.moves_setCurrent view s)
  | narrow view p q => exact hquietly (Act.moves_narrow hw view p q)
  | widen view => exact hquietly (Act.moves_widen hw view)
  | goto view pos => exact hmap (Act.moves_goto hw view pos)
  | setReadOnly view readOnly => exact hquietly (Act.moves_setReadOnly view readOnly s)
  | makeOverlay view p q front rear => exact hmap (Act.moves_makeOverlay hw view p q front rear)
  | overlayPut overlay key value => exact hmap (Act.moves_overlayPut hw overlay key value)
  | deleteOverlay overlay => exact hquietly (Act.moves_deleteOverlay hw overlay)
  | deleteAllOverlays view => exact hquietly (Act.moves_deleteAllOverlays hw view)
  | insert | deleteRegion | erase | noteProperty | undo => cases hedits
  | _ => cases ho

/-- Closing the newest group of a document leaves none open when all others are ready. -/
theorem Confined.ready_closeGroup (h : Confined root s t) (hready : s.Ready)
    (hs : s.editor.Shows view v root d) (hw : t.editor.WellFormed) :
    (t.after (.closeGroup view)).Ready := by
  obtain ⟨c, hc, henabled⟩ := h.shows hs
  have hadmits := hw.admits hc.document
  rw [after_closeGroup hc]
  intro r b hb
  by_cases hr : r = root
  · subst hr
    rw [get?_onDocument_self hc.document] at hb
    cases hb
    exact hadmits.log.ready_boundary (henabled.trans (hready r d hs.document).enabled)
      hadmits.takes
  · rw [get?_onDocument_of_ne _ hr, h.others r hr] at hb
    exact hready r b hb

end Session

/-! ## Lines -/

namespace Play

variable {limits : Limits} {p q r : Playback} {view root : ViewId} {v : View} {d : Document}

/-- What was done through the current view was done to its document. -/
theorem confined_of_act (h : p.session.Sound limits) {α : Type} {act : ViewId → Act α}
    (hact : ∀ view v root d, p.session.editor.Shows view v root d →
      Session.Confined root p.session ((act view).run p.session).2)
    (hrun : ∃ view a t, p.session.editor.current = some view ∧
      (act view).run p.session = (.ok a, t) ∧ q = { p with session := t }) :
    ∃ view v root d, p.session.editor.current = some view ∧
      p.session.editor.Shows view v root d ∧ Session.Confined root p.session q.session := by
  obtain ⟨view, a, t, hview, hrun, rfl⟩ := hrun
  obtain ⟨v, root, d, hs⟩ := h.current_shows hview
  have hconfined := hact view v root d hs
  rw [hrun] at hconfined
  exact ⟨view, v, root, d, hview, hs, hconfined⟩

/-- A command that records changes does so in the document of the current view. -/
theorem confined_of_execute (h : p.session.Sound limits) {c : Command} (hc : c.edits = true)
    (hrun : (execute c).run p = (.ok (), q)) :
    ∃ view v root d, p.session.editor.current = some view ∧
      p.session.editor.Shows view v root d ∧ Session.Confined root p.session q.session := by
  have hw := h.wellFormed
  unfold Play.execute at hrun
  cases c with
  | insert text =>
      refine confined_of_act h (fun view v root d hs => ?_) (exists_of_onCurrent hrun)
      exact Act.confined_insert hs (hw.marking.seated view v root d hs) text
  | delete a b =>
      refine confined_of_act h (fun view v root d hs => ?_) (exists_of_onCurrent hrun)
      exact Act.confined_deleteRegion hs a b
  | erase =>
      refine confined_of_act h (fun view v root d hs => ?_) (exists_of_onCurrent hrun)
      exact Act.confined_erase hs
  | undo =>
      refine confined_of_act h (fun view v root d hs => ?_) (exists_of_onCurrent hrun)
      exact Act.confined_undo hw hs
  | property start stop key old =>
      refine confined_of_act h (fun view v root d hs =>
        Act.confined_noteProperty hs start (stop - start) key old) ?_
      obtain ⟨view, r, hcurrent, hnext⟩ := exists_of_bind hrun
      obtain ⟨hview, rfl⟩ := exists_of_current hcurrent
      split at hnext
      · cases hnext
      · obtain ⟨t, hnoted, rfl⟩ := exists_of_perform hnext
        exact ⟨view, (), t, hview, hnoted, rfl⟩
  | _ => cases hc

theorem run_closeGroup (hview : p.session.editor.current = some view)
    (hs : p.session.editor.Shows view v root d) :
    closeGroup.run p = (.ok (), { p with session := p.session.after (.closeGroup view) }) := by
  rw [closeGroup, run_bind_ok (run_get p)]
  simp only [hview]
  rw [run_perform, Session.after_closeGroup hs, Act.closeGroup, Act.run_changeLog hs]
  rfl

/-- A command that records no changes leaves no group open, and then none is left to be closed. -/
theorem ready_of_silent (h : p.session.Sound limits) (hlimits : limits.ForScripts)
    (hready : p.session.Ready) {c : Command} (hc : c.edits = false)
    (hexecute : (execute c).run p = (.ok (), r)) (hclose : closeGroup.run r = (.ok (), q)) :
    q.session.Ready := by
  -- Each operation that is not about changes keeps both, so the whole command does.
  let good (s : Session) : Prop := s.Sound limits ∧ s.Ready
  have hkept : ∀ o : Op, o.scripted = true → o.edits = false → ∀ s, good s → good (s.after o) :=
    fun o ho hedits s hs => ⟨hs.1.after ho, hs.1.ready_after hlimits hs.2 ho hedits⟩
  have hexecuted : Keeps good (execute c) := .execute fun o ho hedits => by
    refine hkept o ho (Bool.eq_false_iff.mpr fun he => ?_)
    rw [hedits he] at hc
    cases hc
  have hclosed : Keeps good closeGroup := .closeGroup fun view =>
    hkept (.closeGroup view) rfl rfl
  exact (hclosed.left (hexecuted.left ⟨h, hready⟩ hexecute) hclose).2

/-- A command that records changes leaves the current view current, and then the group that it has
left open in the document of this view is closed. -/
theorem closed_of_edit (h : p.session.Sound limits) {c : Command} (hc : c.edits = true)
    (hexecute : (execute c).run p = (.ok (), r)) (hclose : closeGroup.run r = (.ok (), q)) :
    ∃ view v root d, p.session.editor.current = some view ∧
      p.session.editor.Shows view v root d ∧ Session.Confined root p.session r.session ∧
      q.session = r.session.after (.closeGroup view) ∧ q.session.editor.current = some view := by
  obtain ⟨view, v, root, d, hview, hs, hconfined⟩ := confined_of_execute h hc hexecute
  have hcurrent := hconfined.current.trans hview
  obtain ⟨b, hb, -⟩ := hconfined.shows hs
  have hclosed := run_closeGroup hcurrent hb
  rw [hclose] at hclosed
  cases hclosed
  refine ⟨view, v, root, d, hview, hs, hconfined, rfl, ?_⟩
  rw [Session.after_closeGroup hb]
  exact hcurrent

/-- A line that succeeds leaves no group open in any document. -/
theorem ready_of_playLine (h : p.session.Sound limits) (hlimits : limits.ForScripts)
    (hready : p.session.Ready) {number : Nat} {line : Text}
    (hrun : (playLine number line).run p = (.ok (), q)) : q.session.Ready := by
  rcases exists_of_playLine hrun with ⟨-, rfl⟩ | ⟨c, r, -, hexecute, hclose⟩
  · exact hready
  · cases hc : c.edits with
    | false => exact ready_of_silent h hlimits hready hc hexecute hclose
    | true =>
        obtain ⟨view, v, root, d, -, hs, hconfined, hq, -⟩ := closed_of_edit h hc hexecute hclose
        have hsound := (Keeps.sound_execute c).left h hexecute
        rw [hq]
        exact hconfined.ready_closeGroup hready hs hsound.wellFormed

theorem ready_of_playLines (h : p.session.Sound limits) (hlimits : limits.ForScripts)
    (hready : p.session.Ready) {number : Nat} {lines : List Text}
    (hrun : (playLines number lines).run p = (.ok (), q)) :
    q.session.Sound limits ∧ q.session.Ready := by
  induction lines generalizing number p with
  | nil =>
      cases hrun
      exact ⟨h, hready⟩
  | cons line lines ih =>
      obtain ⟨a, r, hline, hrest⟩ := exists_of_bind hrun
      have hsound := (Keeps.sound_playLine number line).left h hline
      exact ih hsound (ready_of_playLine h hlimits hready hline) hrest

end Play

end Editing
