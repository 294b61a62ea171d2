import Editing.Proofs.Session.Calling
import Editing.Proofs.Session.Chronicle
import Editing.Proofs.Session.Visible

/-!
# Consecutive undos

One undo after the other walks back through the groups of a log, from the newest to the oldest,
although each of them records what it does on top of the same log. Closing groups in between makes
no difference.
-/

namespace Editing

/-- Whether the operation is an undo. -/
def Op.isUndo : Op → Bool
  | undo _ => true
  | _ => false

namespace Document

variable {d : Document}

theorem isEnabled_revised (d : Document) (c : Change) :
    (d.revised c).log.isEnabled = d.log.isEnabled := by
  rcases d.log_revised c with hlog | ⟨r, hlog⟩ | ⟨pos, n, hlog⟩
  · rw [hlog]
  · rw [hlog, UndoLog.isEnabled_record]
  · rw [hlog, UndoLog.isEnabled_recordInsert]

theorem isEnabled_replayedAll (point : MarkerId) (d : Document) (rs : List Record) :
    (d.replayedAll point rs).log.isEnabled = d.log.isEnabled := by
  induction rs generalizing d with
  | nil => rfl
  | cons r rs ih =>
      rw [replayedAll, ih, log_replayed]
      cases r.inverse with
      | none => rfl
      | some c => exact isEnabled_revised d c

theorem isEnabled_begun (d : Document) : d.begun.log.isEnabled = d.log.isEnabled := by
  change d.log.boundary.nextGroup.2.isEnabled = _
  rw [UndoLog.isEnabled, UndoLog.arena_nextGroup]
  exact UndoLog.isEnabled_boundary d.log

/-- The document after an undo of a group. -/
def undone (d : Document) (point : MarkerId) (group : List Record) : Document :=
  (d.begun.replayedAll point group).ended

theorem text_undone (d : Document) (point : MarkerId) (group : List Record) :
    (d.undone point group).text = Record.revertAll group d.text :=
  text_replayedAll point d.begun group

theorem isEnabled_undone (d : Document) (point : MarkerId) (group : List Record) :
    (d.undone point group).log.isEnabled = d.log.isEnabled := by
  change (d.begun.replayedAll point group).log.endReplay.boundary.isEnabled = _
  rw [UndoLog.isEnabled_boundary]
  exact (isEnabled_replayedAll point d.begun group).trans (isEnabled_begun d)

/-- What an undo records goes on top of the closed log, and its cursor is behind the group. -/
theorem grown_undone (h : d.log.WellFormed) (ha : d.log.acceptsRecords = true)
    {group : List Record} (hgroup : d.log.boundary.nextGroup.1 = .ok group) (point : MarkerId)
    (hw : (d.begun.replayedAll point group).log.WellFormed) :
    (d.undone point group).log.Grown d.log.boundary.chain
      (UndoLog.cursorBehind d.log.boundary.behindEntries) := by
  have hgrown := grown_replayedAll (grown_begun h ha hgroup) h.boundary.nextGroup.beginReplay rfl
    point group
  have hended := hgrown.endReplay.boundary hw.endReplay
  have he : d.log.boundary.isEnabled = true := by
    rw [UndoLog.isEnabled_boundary, UndoLog.isEnabled_of_accepts ha]
  rw [UndoLog.nextGroup_eq he] at hended
  exact hended

theorem remaining_undone (h : d.log.WellFormed) (ha : d.log.acceptsRecords = true)
    {group : List Record} (hgroup : d.log.boundary.nextGroup.1 = .ok group) (point : MarkerId)
    (hw : (d.begun.replayedAll point group).log.WellFormed) :
    (d.undone point group).log.remaining =
      (d.log.boundary.behindEntries.drop 1).map Prod.snd :=
  (grown_undone h ha hgroup point hw).remaining_eq h.boundary hw.endReplay.boundary

theorem moved_undone (h : d.log.WellFormed) (ha : d.log.acceptsRecords = true)
    {group : List Record} (hgroup : d.log.boundary.nextGroup.1 = .ok group) (point : MarkerId)
    (hw : (d.begun.replayedAll point group).log.WellFormed) :
    (d.undone point group).log.cursor ≠ .idle := by
  rw [(grown_undone h ha hgroup point hw).cursor_eq]
  rcases d.log.boundary.behindEntries with _ | ⟨_, _ | ⟨_, _⟩⟩ <;> exact Cursor.noConfusion

end Document

namespace Session

variable {s t : Session} {view root : ViewId} {v : View} {d : Document}

/-- In a view of the whole text, a group that fits is taken back while no lock is refused. -/
theorem AtRest.undo_fitting (h : s.AtRest) (hs : s.editor.Shows view v root d)
    (he : d.log.isEnabled = true) (hw : d.IsWide v.markers) {group : List Record}
    (hgroup : d.log.boundary.nextGroup.1 = .ok group) (hf : Record.FitsAll group d.text)
    (hgranted : ∀ path, .lockRefused root path ∉ s.callsUntil (s.after (.undo view))) :
    AllowsAll root v (s.onDocument root fun _ => d.begun) d.begun group ∧
      (Act.undo view).run s =
      (.ok (), ((s.onDocument root fun _ => d.begun).replayedAll root v d.begun
        group).onDocument root Document.ended) := by
  have hreplaying := replaying_begun h.wellFormed hs hgroup
  rcases Act.undo_cases h.wellFormed hs he hgroup with
    hallowed | ⟨done, r, rest, e, t, hsplit, hallows, hblocks, hrun⟩
  · exact hallowed
  · subst hsplit
    obtain ⟨path, reason, -, ht⟩ := hreplaying.blocks_wide hallows ⟨hw.low, hw.high⟩ hf hblocks
    refine absurd ?_ (hgranted path)
    rw [after_undo_eq, hrun]
    have hcalls := (restores_begun s root d).trans (restores_replayedAll _ root v d.begun done)
    apply hcalls.mem_callsUntil
    rw [trace_onDocument, trace_onDocument, ht]
    rfl

/-- An undo can be made through a view of the whole text, and what it will take back fits. -/
structure Poised (s : Session) (view : ViewId) (v : View) (root : ViewId) (d : Document) :
    Prop where
  atRest : s.AtRest
  shows : s.editor.Shows view v root d
  enabled : d.log.isEnabled = true
  wide : d.IsWide v.markers
  fits : Record.FitsAll d.log.remaining d.text

namespace Poised

theorem log (h : s.Poised view v root d) : d.log.WellFormed :=
  (h.atRest.wellFormed.admits h.shows.document).log

theorem accepts (h : s.Poised view v root d) : d.log.acceptsRecords = true :=
  h.atRest.accepts h.shows.document h.enabled

/-- Closing a group, of whichever text, changes nothing that an undo will do. -/
theorem closeGroup (h : s.Poised view v root d) (other : ViewId) :
    ∃ c, (s.after (.closeGroup other)).Poised view v root c ∧ c.text = d.text ∧
      Record.groups c.log.remaining = Record.groups d.log.remaining := by
  have hrest := h.atRest.after (.closeGroup other)
  rcases h.atRest.after_closeGroup_cases other with heq | ⟨w, r, b, hs, heq⟩
  · rw [heq]
    exact ⟨d, h, rfl, rfl⟩
  · rw [heq] at hrest ⊢
    by_cases hr : r = root
    · subst hr
      refine ⟨{ d with log := d.log.boundary },
        ⟨hrest, shows_onDocument_self h.shows _, ?_, ?_, ?_⟩,
        rfl, h.log.groups_boundary⟩
      · rw [UndoLog.isEnabled_boundary, h.enabled]
      · exact ⟨h.wide.low, h.wide.high⟩
      · exact (h.log.fitsAll_boundary _).mpr h.fits
    · have hshows :
          (s.onDocument r fun d => { d with log := d.log.boundary }).editor.Shows view v root d :=
        ⟨h.shows.live, h.shows.root_eq, by
          rw [get?_onDocument_of_ne _ (Ne.symm hr), h.shows.document]⟩
      exact ⟨d, ⟨hrest, hshows, h.enabled, h.wide, h.fits⟩, rfl, rfl⟩

theorem enabled_boundary (h : s.Poised view v root d) : d.log.boundary.isEnabled = true := by
  rw [UndoLog.isEnabled_boundary, h.enabled]

/-- Without a group that remains there is nothing to undo. -/
theorem undo_exhausted (h : s.Poised view v root d)
    (hgroups : Record.groups d.log.remaining = []) :
    ((Act.undo view).run s).1 = .error .noFurtherUndo ∧
      s.Restores (s.after (.undo view)) [] ∧
      ∃ c, (s.after (.undo view)).Poised view v root c ∧ c.text = d.text ∧
        Record.groups c.log.remaining = [] := by
  rw [← h.log.groups_boundary] at hgroups
  have hnext : d.log.boundary.nextEntries = [] := by
    apply Decidable.byContradiction
    intro hne
    rw [UndoLog.groups_of_next hne] at hgroups
    cases hgroups
  have hgroup : d.log.boundary.nextGroup.1 = .error .noFurtherUndo := by
    rw [UndoLog.nextGroup_eq h.enabled_boundary, hnext]
    rfl
  have hrun := Act.run_undo_of_exhausted h.atRest.wellFormed h.shows h.enabled hgroup
  have hrest := h.atRest.after_undo view
  rw [after_undo_eq, hrun] at hrest ⊢
  have hremaining : d.log.boundary.nextGroup.2.remaining = [] := by
    rw [UndoLog.nextGroup_eq h.enabled_boundary, UndoLog.behind_of_no_next hnext, UndoLog.remaining,
      UndoLog.ahead_exhausted rfl]
    rfl
  refine ⟨rfl, .of_trace rfl, { d with log := d.log.boundary.nextGroup.2 },
    ⟨hrest, ?_, ?_, ⟨h.wide.low, h.wide.high⟩, ?_⟩, rfl, ?_⟩
  · rw [onDocument_congr (g := fun c => { c with log := d.log.boundary.nextGroup.2 })
      h.shows.document rfl]
    exact shows_onDocument_self h.shows _
  · exact (Document.isEnabled_begun d).trans h.enabled
  · rw [hremaining]
    trivial
  · rw [hremaining]
    rfl

/-- While no lock is refused, an undo takes back exactly the first group that remains. -/
theorem undo_group (h : s.Poised view v root d) {group : List Record} {older : List (List Record)}
    (hgroups : Record.groups d.log.remaining = group :: older)
    (hgranted : ∀ path, .lockRefused root path ∉ s.callsUntil (s.after (.undo view))) :
    ((Act.undo view).run s).1 = .ok () ∧
      s.Restores (s.after (.undo view)) (group.filterMap (Record.restoration root)) ∧
      (s.after (.undo view)).Poised view v root (d.undone v.markers.point group) ∧
      Record.groups (d.undone v.markers.point group).log.remaining = older ∧
      (s.after (.undo view)).editor.userMarkers = s.editor.userMarkers := by
  rw [← h.log.groups_boundary] at hgroups
  have hnext : d.log.boundary.nextEntries ≠ [] := by
    intro hnil
    rw [UndoLog.groups_of_no_next hnil] at hgroups
    cases hgroups
  rw [UndoLog.groups_of_next hnext] at hgroups
  obtain ⟨hfirst, hbehind⟩ := List.cons.inj hgroups
  have hgroup : d.log.boundary.nextGroup.1 = .ok group := by
    rw [UndoLog.nextGroup_of_next h.enabled_boundary hnext, hfirst]
  -- The group fits the text as it is, and the older ones fit what it leaves.
  obtain ⟨hfits, holder⟩ := UndoLog.fitsAll_behind ((h.log.fitsAll_boundary d.text).mpr h.fits)
  rw [hfirst] at hfits holder
  obtain ⟨hallows, hrun⟩ :=
    h.atRest.undo_fitting h.shows h.enabled h.wide hgroup hfits hgranted
  have hreplaying := replaying_begun h.atRest.wellFormed h.shows hgroup
  have hfinal := hreplaying.finish hallows
  have hlog := (hfinal.wellFormed.admits hfinal.shows.document).log
  have hremaining := Document.remaining_undone h.log h.accepts hgroup v.markers.point hlog
  have hrest := h.atRest.after_undo view
  rw [after_undo_eq, hrun] at hrest ⊢
  refine ⟨rfl, ?_, ⟨hrest, ?_, ?_, ?_, ?_⟩, ?_, ?_⟩
  · exact ((restores_begun s root d).trans (restores_replayedAll _ root v d.begun group)).silent rfl
  · exact shows_onDocument_self hfinal.shows _
  · exact (Document.isEnabled_undone d _ group).trans h.enabled
  · have hkept := ((List.append_nil group).symm ▸ hreplaying :
      (s.onDocument root fun _ => d.begun).Replaying view v root d.begun
      (group ++ [])).wide_replayedAll
        hallows ⟨h.wide.low, h.wide.high⟩ ((List.append_nil group).symm ▸ hfits)
    exact ⟨hkept.1.low, hkept.1.high⟩
  · rw [hremaining, Document.text_undone]
    exact holder
  · rw [hremaining]
    exact hbehind
  · exact userMarkers_replayedAll root v _ d.begun group

end Poised

/-- Undos through the view and closings of groups, in any order. -/
def Turns (view : ViewId) (turns : List Op) : Prop :=
  ∀ o ∈ turns, o = .undo view ∨ ∃ other, o = .closeGroup other

theorem AtRest.restores_turns (h : s.AtRest) {turns : List Op} (hturns : Turns view turns) :
    ∃ restored, s.Restores (s.afterAll turns) restored := by
  induction turns generalizing s with
  | nil => exact ⟨[], .of_trace rfl⟩
  | cons o turns ih =>
      have hfirst : ∃ restored, s.Restores (s.after o) restored := by
        rcases hturns o List.mem_cons_self with rfl | ⟨other, rfl⟩
        · exact h.restores_undo view
        · exact ⟨[], h.restores_closeGroup other⟩
      obtain ⟨restored, hfirst⟩ := hfirst
      obtain ⟨later, hlater⟩ := ih (h.after o) fun q hq => hturns q (List.mem_cons_of_mem o hq)
      exact ⟨restored ++ later, hfirst.trans hlater⟩

/-- Some turns take back as many groups as there are undos among them, while groups remain. -/
theorem Poised.after_turns (h : s.Poised view v root d) {turns : List Op}
    (hturns : Turns view turns)
    (hgranted : ∀ path, .lockRefused root path ∉ s.callsUntil (s.afterAll turns)) :
    ∃ c, (s.afterAll turns).Poised view v root c ∧
      c.text = Record.revertAll
        ((Record.groups d.log.remaining).take (turns.countP Op.isUndo)).flatten d.text ∧
      Record.groups c.log.remaining =
        (Record.groups d.log.remaining).drop (turns.countP Op.isUndo) := by
  -- Each turn leaves a session that is poised again, with the groups that are left.
  induction turns generalizing s d with
  | nil => exact ⟨d, h, rfl, rfl⟩
  | cons o turns ih =>
      have hlater : Turns view turns := fun q hq => hturns q (List.mem_cons_of_mem o hq)
      obtain ⟨restored, hrestored⟩ := (h.atRest.after o).restores_turns hlater
      rcases hturns o List.mem_cons_self with rfl | ⟨other, rfl⟩
      · obtain ⟨first, hfirst⟩ := h.atRest.restores_undo view
        obtain ⟨hgranted', hgranted''⟩ := (hfirst.granted_iff hrestored).mp hgranted
        rw [List.countP_cons_of_pos rfl]
        cases hgroups : Record.groups d.log.remaining with
        | nil =>
            obtain ⟨-, -, b, hb, htext, hnone⟩ := h.undo_exhausted hgroups
            obtain ⟨c, hc, hctext, hcgroups⟩ := ih hb hlater hgranted''
            rw [hnone] at hctext hcgroups
            refine ⟨c, hc, ?_, ?_⟩
            · rw [hctext, List.take_nil, List.take_nil, htext]
            · rw [hcgroups, List.drop_nil, List.drop_nil]
        | cons group older =>
            obtain ⟨-, -, hb, holder, -⟩ := h.undo_group hgroups hgranted'
            obtain ⟨c, hc, hctext, hcgroups⟩ := ih hb hlater hgranted''
            rw [holder] at hctext hcgroups
            refine ⟨c, hc, ?_, ?_⟩
            · rw [hctext, Document.text_undone, List.take_succ_cons, List.flatten_cons,
                Record.revertAll_append]
            · rw [hcgroups, List.drop_succ_cons]
      · obtain ⟨-, hgranted'⟩ :=
          ((h.atRest.restores_closeGroup other).granted_iff hrestored).mp hgranted
        obtain ⟨b, hb, htext, hgroups⟩ := h.closeGroup other
        obtain ⟨c, hc, hctext, hcgroups⟩ := ih hb hlater hgranted'
        rw [hgroups] at hctext hcgroups
        rw [htext] at hctext
        rw [List.countP_cons_of_neg Bool.false_ne_true]
        exact ⟨c, hc, hctext, hcgroups⟩

end Session

/-- Where the next undo through a view goes on. -/
def Editor.undoCursor (e : Editor) (view : ViewId) : Except Error Cursor := do
  return (← e.document view).log.cursor

theorem Editor.Shows.undoCursor_eq {e : Editor} {view root : ViewId} {v : View} {d : Document}
    (h : e.Shows view v root d) : e.undoCursor view = .ok d.log.cursor := by
  rw [Editor.undoCursor, h.document_eq]
  rfl

namespace Session

variable {s : Session} {view root : ViewId} {text : Text} {records : List Record} {turns : List Op}

/-- In a reachable session, an undo that starts from the newest record finds only records that
fit. -/
theorem Reachable.poised (h : s.Reachable) (hroot : s.editor.rootOf view = .ok root)
    (htext : s.editor.fullText view = .ok text) (hrecords : s.editor.undoRecords view = .ok records)
    (hundo : s.editor.undoEnabled view = .ok true) (hwide : s.editor.isNarrowed view = .ok false)
    (hidle : s.editor.undoCursor view = .ok .idle) :
    ∃ v d, s.Poised view v root d ∧ d.text = text ∧ d.log.remaining = records := by
  have hrest := h.atRest
  obtain ⟨v, d, hs⟩ := hrest.wellFormed.registry.shows_of_rootOf hroot
  rw [hs.fullText_eq] at htext
  cases htext
  rw [hs.undoRecords_eq] at hrecords
  cases hrecords
  rw [hs.undoEnabled_eq] at hundo
  rw [hs.undoCursor_eq] at hidle
  have hremaining := UndoLog.remaining_idle (Except.ok.inj hidle)
  obtain ⟨texts, htexts⟩ := h.traced root
  refine ⟨v, d, ⟨hrest, hs, Except.ok.inj hundo, hs.isWide hwide, ?_⟩, rfl, hremaining⟩
  rw [hremaining]
  exact (htexts d hs.document).fitsAll

/-- Consecutive undos through a view of the whole text walk back through the groups of the log: as
long as there is one more group, the next undo takes exactly this group back and asks for the old
values of its properties, newest first, and then there is nothing more to undo. -/
theorem consecutive_undos_walk_groups (h : s.Reachable) (hroot : s.editor.rootOf view = .ok root)
    (htext : s.editor.fullText view = .ok text) (hrecords : s.editor.undoRecords view = .ok records)
    (hundo : s.editor.undoEnabled view = .ok true) (hwide : s.editor.isNarrowed view = .ok false)
    (hidle : s.editor.undoCursor view = .ok .idle) (hturns : Turns view turns)
    (hgranted : ∀ path,
      .lockRefused root path ∉ s.callsUntil ((s.afterAll turns).after (.undo view))) :
    let t := s.afterAll turns
    let u := t.after (.undo view)
    let k := turns.countP Op.isUndo
    let groups := Record.groups records
    (∀ group, groups[k]? = some group →
      ((Op.undo view).act.run t).1 = .ok .done ∧
        u.editor.fullText view = .ok (Record.revertAll (groups.take (k + 1)).flatten text) ∧
        (t.callsUntil u).filter Call.isRestore = group.filterMap (Record.restoration root)) ∧
    (groups.length ≤ k →
      ((Op.undo view).act.run t).1 = .error .noFurtherUndo ∧
        u.editor.fullText view = .ok (Record.revertAll groups.flatten text) ∧
        (t.callsUntil u).filter Call.isRestore = []) := by
  intro t u k groups
  obtain ⟨v, d, hpoised, rfl, rfl⟩ := h.poised hroot htext hrecords hundo hwide hidle
  obtain ⟨first, hfirst⟩ := hpoised.atRest.restores_turns hturns
  have hfollowed : t.AtRest := (h.afterAll turns).atRest
  obtain ⟨last, hlast⟩ := hfollowed.restores_undo view
  obtain ⟨hgranted', hgranted''⟩ := (hfirst.granted_iff hlast).mp hgranted
  obtain ⟨c, hc, hctext, hcgroups⟩ := hpoised.after_turns hturns hgranted'
  constructor
  · intro group hgroup
    have hremaining : Record.groups c.log.remaining = group :: groups.drop (k + 1) := by
      rw [hcgroups]
      exact List.drop_eq_getElem?_toList_append.trans (by rw [hgroup]; rfl)
    obtain ⟨hrun, hrestores, hb, -, -⟩ := hc.undo_group hremaining hgranted''
    refine ⟨Act.run_quietly_ok_iff.mpr hrun, ?_, hrestores.callsUntil_filter⟩
    rw [hb.shows.fullText_eq, Document.text_undone, hctext, List.take_add_one, hgroup,
      List.flatten_append, Option.toList_some, List.flatten_cons, List.flatten_nil, List.append_nil,
      Record.revertAll_append]
  · intro hle
    have hremaining : Record.groups c.log.remaining = [] := by
      rw [hcgroups, List.drop_eq_nil_of_le hle]
    obtain ⟨hrun, hrestores, b, hb, hbtext, -⟩ := hc.undo_exhausted hremaining
    refine ⟨Act.run_quietly_error_iff.mpr hrun, ?_, hrestores.callsUntil_filter⟩
    rw [hb.shows.fullText_eq, hbtext, hctext, List.take_of_length_le hle]

/-- A text of two groups, the older of which also changed a property, in a read-only view. -/
def twoGroups : List Op :=
  [.createRoot "v", .insert 0 "ab".toList, .noteProperty 0 0 1 "face" .nil, .closeGroup 0,
    .insert 0 "cd".toList, .setReadOnly 0 true]

theorem twoGroups_undone :
    let s := (fresh .default none).afterAll twoGroups
    let turns := [.undo 0, .closeGroup 0]
    let t := s.afterAll turns
    let u := t.after (.undo 0)
    let records := [.insert 2 2, .boundary, .property 0 1 "face" .nil, .insert 0 2]
    s.Reachable ∧ s.editor.rootOf 0 = .ok 0 ∧ s.editor.fullText 0 = .ok "abcd".toList ∧
      s.editor.undoRecords 0 = .ok records ∧ s.editor.undoEnabled 0 = .ok true ∧
      s.editor.isNarrowed 0 = .ok false ∧ s.editor.undoCursor 0 = .ok .idle ∧ Turns 0 turns ∧
      (∀ path, .lockRefused 0 path ∉ s.callsUntil u) ∧
      ((Op.undo 0).act.run t).1 = .ok .done ∧ u.editor.fullText 0 = .ok [] ∧
      (t.callsUntil u).filter Call.isRestore = [.restore 0 0 1 "face" .nil] := by
  intro s turns t u records
  have hreachable : s.Reachable := (Reachable.fresh .default none).afterAll twoGroups
  have hroot : s.editor.rootOf 0 = .ok 0 := by decide +kernel
  have htext : s.editor.fullText 0 = .ok "abcd".toList := by decide +kernel
  have hrecords : s.editor.undoRecords 0 = .ok records := by decide +kernel
  have hundo : s.editor.undoEnabled 0 = .ok true := by decide +kernel
  have hwide : s.editor.isNarrowed 0 = .ok false := by decide +kernel
  have hidle : s.editor.undoCursor 0 = .ok .idle := by decide +kernel
  have hturns : Turns 0 turns := by
    intro o ho
    rcases List.mem_cons.mp ho with rfl | ho
    · exact Or.inl rfl
    · exact Or.inr ⟨0, List.mem_singleton.mp ho⟩
  have hrestores : (s.callsUntil u).all Call.isRestore = true := by decide +kernel
  have hgranted : ∀ path, .lockRefused 0 path ∉ s.callsUntil u := by
    intro path hmem
    cases List.all_eq_true.mp hrestores _ hmem
  exact ⟨hreachable, hroot, htext, hrecords, hundo, hwide, hidle, hturns, hgranted,
    (consecutive_undos_walk_groups hreachable hroot htext hrecords hundo hwide hidle hturns
      hgranted).1 [.property 0 1 "face" .nil, .insert 0 2] rfl⟩

end Session

end Editing
