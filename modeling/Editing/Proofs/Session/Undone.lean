import Editing.Proofs.History.Growing
import Editing.Proofs.Session.Replaying
import Editing.Proofs.Session.Turning

/-!
# Undoing a group

An undo closes the newest group, takes the next one from the log, takes its records back while the
log replays, and closes what it has recorded itself. When a record is not taken back, the records
before it stay taken back and the cursor is put back to where it was.
-/

namespace Editing

/-- The document once the next group has been taken from its log and is about to be taken back. -/
def Document.begun (d : Document) : Document :=
  { d with log := d.log.boundary.nextGroup.2.beginReplay }

/-- The document when an undo is over. -/
def Document.ended (d : Document) : Document :=
  { d with log := d.log.endReplay.boundary }

/-- The document with its cursor put back. -/
def Document.rewound (cursor : Cursor) (d : Document) : Document :=
  { d with log := d.log.rewind cursor }

namespace Document

variable {d : Document} {base : List (Nat × Record)} {cursor : Cursor}

theorem wellFormed_revised (h : d.log.WellFormed) (c : Change) : (d.revised c).log.WellFormed := by
  rcases d.log_revised c with hlog | ⟨r, hlog⟩ | ⟨pos, n, hlog⟩
  · exact hlog ▸ h
  · exact hlog ▸ h.record r
  · exact hlog ▸ h.recordInsert pos n

theorem grown_revised (h : d.log.Grown base cursor) (hl : d.log.WellFormed)
    (hr : d.log.replaying = true) (c : Change) : (d.revised c).log.Grown base cursor := by
  rcases d.log_revised c with hlog | ⟨r, hlog⟩ | ⟨pos, n, hlog⟩
  · exact hlog ▸ h
  · exact hlog ▸ h.record hl hr r
  · exact hlog ▸ h.recordInsert hl hr pos n

/-- Taking records back puts records on top of the log and leaves its cursor. -/
theorem grown_replayedAll (h : d.log.Grown base cursor) (hl : d.log.WellFormed)
    (hr : d.log.replaying = true) (point : MarkerId) (rs : List Record) :
    (d.replayedAll point rs).log.Grown base cursor := by
  induction rs generalizing d with
  | nil => exact h
  | cons r rs ih =>
      have hlog := log_replayed d point r
      have hreplaying := (replaying_replayed d point r).trans hr
      cases hi : r.inverse with
      | none =>
          simp only [hi] at hlog
          exact ih (hlog.symm ▸ h) (hlog.symm ▸ hl) hreplaying
      | some c =>
          simp only [hi] at hlog
          exact ih (hlog.symm ▸ grown_revised h hl hr c) (hlog.symm ▸ wellFormed_revised hl c)
            hreplaying

end Document

namespace Session

variable {s t : Session} {view root : ViewId} {v : View} {d : Document} {group : List Record}

theorem replaying_begun (h : s.editor.WellFormed) (hs : s.editor.Shows view v root d)
    (hgroup : d.log.boundary.nextGroup.1 = .ok group) :
    (s.onDocument root fun _ => d.begun).Replaying view v root d.begun group := by
  have ha := h.admits hs.document
  have hl := ha.log.boundary
  have hnoted : ∀ a ∈ Record.adjusted d.log.boundary.records,
      ∃ u, s.editor.userMarkers.get? a.marker = some u := by
    intro a hmem
    rw [ha.log.records_boundary] at hmem
    split at hmem
    · rw [Record.adjusted_close] at hmem
      exact ha.noted a hmem
    · exact ha.noted a hmem
  refine ⟨?_, shows_onDocument_self hs _, rfl, ?_⟩
  · apply wellFormed_onDocument h
    intro c hc
    obtain rfl := Option.some.inj (hs.document.symm.trans hc)
    refine ha.relog hl.nextGroup.beginReplay ?_ ?_
    · change d.log.boundary.nextGroup.2.suspended = false
      rw [UndoLog.suspended_nextGroup, UndoLog.suspended_boundary, ha.takes]
    · intro a hmem
      change a ∈ Record.adjusted d.log.boundary.nextGroup.2.records at hmem
      rw [UndoLog.records_nextGroup] at hmem
      exact hnoted a hmem
  · intro a hmem
    obtain ⟨pos, text, as, hr, hmem⟩ := Record.exists_of_mem_adjusted hmem
    have hr := (hl.mem_of_nextGroup hgroup).2.2 _ hr
    exact hnoted a (Record.adjusted_subset_of_mem hr a hmem)

end Session

namespace Act

variable {s : Session} {view root : ViewId} {v : View} {d : Document} {group : List Record}

theorem run_takeGroup (hs : s.editor.Shows root v root d) :
    (takeGroup root).run s = (d.log.boundary.nextGroup.1,
      s.onDocument root fun c => { c with log := d.log.boundary.nextGroup.2 }) := by
  rw [takeGroup, run_ask_bind hs.document_eq, run_bind_ok (run_changeLog hs _), run_give]

theorem run_beginReplay (hs : s.editor.Shows root v root d) :
    (changeLog root UndoLog.beginReplay).run
        (s.onDocument root fun c => { c with log := d.log.boundary.nextGroup.2 }) =
      (.ok (), s.onDocument root fun _ => d.begun) := by
  rw [run_changeLog (Session.shows_onDocument_self hs _), Session.onDocument_onDocument,
    Session.onDocument_congr hs.document]
  rfl

theorem run_undo_of_dead (h : s.editor.views.get? view = none) :
    (undo view).run s = (.error (.noLiveView view), s) := by
  rw [undo, run_ask_bind_error (Editor.rootOf_of_dead h)]

theorem run_undo_of_disabled (h : s.editor.WellFormed) (hs : s.editor.Shows view v root d)
    (hd : d.log.isEnabled = false) : (undo view).run s = (.error .undoDisabled, s) := by
  obtain ⟨w, hw, -⟩ := h.registry.shows_root hs.document
  rw [undo, run_ask_bind hs.rootOf_eq, run_ask_bind hw.document_eq, hd]
  rfl

/-- When no group is left, only the group under way is closed and the cursor stays behind. -/
theorem run_undo_of_exhausted (h : s.editor.WellFormed) (hs : s.editor.Shows view v root d)
    (hd : d.log.isEnabled = true) {e : Error} (hgroup : d.log.boundary.nextGroup.1 = .error e) :
    (undo view).run s = (.error e,
      s.onDocument root fun c => { c with log := d.log.boundary.nextGroup.2 }) := by
  obtain ⟨w, hw, -⟩ := h.registry.shows_root hs.document
  rw [undo, run_ask_bind hs.rootOf_eq, run_ask_bind hw.document_eq, hd]
  have htake := run_takeGroup hw
  rw [hgroup] at htake
  exact run_bind_error htake

/-- What an undo does with the group that it takes. -/
theorem run_undo_of_group (h : s.editor.WellFormed) (hs : s.editor.Shows view v root d)
    (hd : d.log.isEnabled = true) (hgroup : d.log.boundary.nextGroup.1 = .ok group) :
    (undo view).run s =
      match (replayAll view root group).run (s.onDocument root fun _ => d.begun) with
      | (.ok _, t) => (.ok (), t.onDocument root Document.ended)
      | (.error e, t) =>
          (.error e,
          (t.onDocument root Document.ended).onDocument root (Document.rewound d.log.cursor)) := by
  obtain ⟨w, hw, -⟩ := h.registry.shows_root hs.document
  have htake := run_takeGroup hw
  rw [hgroup] at htake
  have hreplaying := Session.replaying_begun h hs hgroup
  rw [undo, run_ask_bind hs.rootOf_eq, run_ask_bind hw.document_eq, hd]
  simp only [Bool.not_true, Bool.false_eq_true, if_false]
  rw [run_bind_ok htake, run_bind_ok (run_beginReplay hw), run_bind_ok (run_attempt _ _)]
  have hroot : ∀ done rest, group = done ++ rest →
      Session.AllowsAll root v (s.onDocument root fun _ => d.begun) d.begun done → ∃ w,
      ((s.onDocument root fun _ => d.begun).replayedAll root v d.begun done).editor.Shows root w
      root
        (d.begun.replayedAll v.markers.point done) := by
    intro done rest hsplit hallows
    have hnext := (hsplit ▸ hreplaying).nextAll hallows
    obtain ⟨w, hw, -⟩ := hnext.wellFormed.registry.shows_root hnext.shows.document
    exact ⟨w, hw⟩
  rcases hreplaying.run_replayAll with ⟨hallows, hrun⟩ |
    ⟨done, r, rest, e, t, hsplit, hallows, hblocks, hrun⟩
  · obtain ⟨w, hw⟩ := hroot group [] (List.append_nil group).symm hallows
    rw [hrun]
    simp only [run_bind_ok (run_changeLog hw _)]
    rfl
  · obtain ⟨w, hw⟩ := hroot done (r :: rest) hsplit hallows
    rw [hrun]
    have ht : t.editor.Shows root w root (d.begun.replayedAll v.markers.point done) :=
      hblocks.editor_eq.symm ▸ hw
    simp only [run_bind_ok (run_changeLog ht _)]
    rw [run_bind_ok (run_changeLog (Session.shows_onDocument_self ht _) _)]
    rfl

/-- An undo takes back the whole group, or stops at a record that something stands in the way of. -/
theorem undo_cases (h : s.editor.WellFormed) (hs : s.editor.Shows view v root d)
    (hd : d.log.isEnabled = true) (hgroup : d.log.boundary.nextGroup.1 = .ok group) :
    (Session.AllowsAll root v (s.onDocument root fun _ => d.begun) d.begun group ∧
      (undo view).run s = (.ok (), ((s.onDocument root fun _ => d.begun).replayedAll root v d.begun
        group).onDocument root Document.ended)) ∨
    ∃ done r rest e t, group = done ++ r :: rest ∧
      Session.AllowsAll root v (s.onDocument root fun _ => d.begun) d.begun done ∧
      ((s.onDocument root fun _ => d.begun).replayedAll root v d.begun done).Blocks root v
        (d.begun.replayedAll v.markers.point done) r e t ∧
      (undo view).run s = (.error e,
        (t.onDocument root Document.ended).onDocument root (Document.rewound d.log.cursor)) := by
  rw [run_undo_of_group h hs hd hgroup]
  rcases (Session.replaying_begun h hs hgroup).run_replayAll with
    ⟨hallows, hrun⟩ | ⟨done, r, rest, e, t, hsplit, hallows, hblocks, hrun⟩
  · exact Or.inl ⟨hallows, by rw [hrun]⟩
  · exact Or.inr ⟨done, r, rest, e, t, hsplit, hallows, hblocks, by rw [hrun]⟩

end Act

/-- Where the log of the root is the same in both sessions, undos give the same reply, and once the
records are taken back, the same happens to the two logs. -/
theorem Session.Parallel.run_undo {s t : Session} {a b root : ViewId} {v w : View} {d c : Document}
    {R : Session → Document → Session → Document → Prop} (hR : Parallel a v b w root R)
    (h : s.editor.WellFormed) (h' : t.editor.WellFormed) (hs : s.editor.Shows a v root d)
    (ht : t.editor.Shows b w root c) (hlog : c.log = d.log) (hrel : R s d t c)
    (hbegun : R (s.onDocument root fun _ => d.begun) d.begun
      (t.onDocument root fun _ => c.begun) c.begun) :
    ∃ (r : Except Error Unit) (g : UndoLog → UndoLog) (s' : Session) (d' : Document) (t' : Session)
        (c' : Document), R s' d' t' c' ∧
      (Act.undo a).run s = (r, s'.onDocument root fun e => { e with log := g e.log }) ∧
      (Act.undo b).run t = (r, t'.onDocument root fun e => { e with log := g e.log }) := by
  cases hd : d.log.isEnabled with
  | false =>
      refine ⟨.error .undoDisabled, id, s, d, t, c, hrel, ?_, ?_⟩
      · rw [Act.run_undo_of_disabled h hs hd, onDocument_self hs.document rfl]
      · rw [Act.run_undo_of_disabled h' ht (hlog ▸ hd), onDocument_self ht.document rfl]
  | true =>
      have hd' : c.log.isEnabled = true := hlog ▸ hd
      cases hgroup : d.log.boundary.nextGroup.1 with
      | error e =>
          refine ⟨.error e, fun _ => d.log.boundary.nextGroup.2, s, d, t, c, hrel, ?_, ?_⟩
          · rw [Act.run_undo_of_exhausted h hs hd hgroup]
          · rw [Act.run_undo_of_exhausted h' ht hd' (hlog ▸ hgroup), hlog]
      | ok group =>
          have hgroup' : c.log.boundary.nextGroup.1 = .ok group := hlog ▸ hgroup
          obtain ⟨hreply, d', c', -, hrel'⟩ :=
            hR.run_replayAll (replaying_begun h hs hgroup) (replaying_begun h' ht hgroup') hbegun
          rw [Act.run_undo_of_group h hs hd hgroup, Act.run_undo_of_group h' ht hd' hgroup', hlog]
          rcases hrun : (Act.replayAll a root group).run (s.onDocument root fun _ => d.begun) with
            ⟨r, s'⟩
          rcases hrun' : (Act.replayAll b root group).run (t.onDocument root fun _ => c.begun) with
            ⟨r', t'⟩
          rw [hrun, hrun'] at hreply hrel'
          obtain rfl : r' = r := hreply
          cases r' with
          | ok _ => exact ⟨.ok (), fun l => l.endReplay.boundary, s', d', t', c', hrel', rfl, rfl⟩
          | error e =>
              exact ⟨.error e, fun l => l.endReplay.boundary.rewind d.log.cursor, s', d', t', c',
                hrel', congrArg (Prod.mk _) (onDocument_onDocument s' root _ _),
                congrArg (Prod.mk _) (onDocument_onDocument t' root _ _)⟩

/-! ## Sessions at rest -/

namespace Editor.Admits

variable {e : Editor} {root : ViewId} {d : Document}

theorem ended (h : e.Admits root d) : e.Admits root d.ended := by
  refine h.relog h.log.endReplay.boundary ?_ ?_
  · rw [UndoLog.suspended_boundary]
    exact h.takes
  · intro a ha
    rw [h.log.endReplay.records_boundary] at ha
    split at ha
    · rw [Record.adjusted_close] at ha
      exact h.noted a ha
    · exact h.noted a ha

theorem rewound (h : e.Admits root d) {cursor : Cursor}
    (hc : ∀ i, cursor = .resume i → i ∈ d.log.chain.map Prod.fst) :
    e.Admits root (d.rewound cursor) :=
  h.relog (h.log.rewind hc) h.takes h.noted

end Editor.Admits

namespace Document

variable {d : Document}

theorem grown_begun (h : d.log.WellFormed) (ha : d.log.acceptsRecords = true) {group : List Record}
    (hgroup : d.log.boundary.nextGroup.1 = .ok group) :
    d.begun.log.Grown d.log.boundary.chain d.log.boundary.nextGroup.2.cursor := by
  apply h.grown_nextGroup ha
  intro hnone
  rw [hgroup] at hnone
  cases hnone

/-- What the cursor named before an undo is still there when some records have been taken back. -/
theorem mem_chain_ended (h : d.log.WellFormed) (ha : d.log.acceptsRecords = true)
    {group : List Record} (hgroup : d.log.boundary.nextGroup.1 = .ok group) (point : MarkerId)
    (done : List Record) {i : Nat} (hi : d.log.cursor = .resume i)
    (hw : (d.begun.replayedAll point done).log.WellFormed) :
    i ∈ (d.begun.replayedAll point done).ended.log.chain.map Prod.fst := by
  have hgrown := grown_replayedAll (grown_begun h ha hgroup) h.boundary.nextGroup.beginReplay rfl
    point done
  apply (hgrown.endReplay.boundary hw.endReplay).mem_chain
  obtain ⟨closing, hclosing⟩ := h.chain_boundary
  rw [hclosing, List.map_append]
  exact List.mem_append_right _ (h.cursor i hi)

end Document

namespace Session

variable {s t : Session} {view root : ViewId} {v : View} {d : Document}

/-- Everything fits together, and no undo is under way. -/
structure AtRest (s : Session) : Prop where
  wellFormed : s.editor.WellFormed
  idle : ∀ root d, s.editor.documents.get? root = some d → d.log.replaying = false

theorem AtRest.accepts (h : s.AtRest) (hd : s.editor.documents.get? root = some d)
    (he : d.log.isEnabled = true) : d.log.acceptsRecords = true :=
  UndoLog.accepts_of_enabled he (h.wellFormed.admits hd).takes

theorem Leads.atRest (hleads : s.Leads t) (h : s.AtRest) : t.AtRest where
  wellFormed := hleads.wellFormed h.wellFormed
  idle root c hc := by
    rcases hleads.turn hc with ⟨d, hd, hturn⟩ | ⟨-, hlog⟩
    · have hidle := h.idle root d hd
      cases hturn with
      | kept halike => rw [halike.log, hidle]
      | changed halike change hrange hvoid halike' =>
          rw [halike'.log, Document.replaying_apply, halike.log, hidle]
      | stepped htext hlog => rw [hlog.replaying_eq, hidle]
    · rw [hlog]
      rfl

/-- Of a session after changes to the document of one root, the other documents are the same. -/
theorem atRest_of_document (hw : t.editor.WellFormed) (hs : t.editor.Shows view v root d)
    (hidle : d.log.replaying = false)
    (hothers : ∀ r c, r ≠ root → t.editor.documents.get? r = some c → c.log.replaying = false) :
    t.AtRest where
  wellFormed := hw
  idle r c hc := by
    by_cases hr : r = root
    · subst hr
      obtain rfl := Option.some.inj (hs.document.symm.trans hc)
      exact hidle
    · exact hothers r c hr hc

theorem after_undo_eq (s : Session) (view : ViewId) :
    s.after (.undo view) = ((Act.undo view).run s).2 := by
  rw [after, Op.act, Act.run_quietly]

theorem AtRest.after_undo (h : s.AtRest) (view : ViewId) : (s.after (.undo view)).AtRest := by
  rw [after_undo_eq]
  rcases h.wellFormed.registry.dead_or_shows view with hdead | ⟨v, root, d, hs⟩
  · rw [Act.run_undo_of_dead hdead]
    exact h
  · cases hd : d.log.isEnabled with
    | false =>
        rw [Act.run_undo_of_disabled h.wellFormed hs hd]
        exact h
    | true =>
        have ha := h.wellFormed.admits hs.document
        have haccepts := h.accepts hs.document hd
        cases hgroup : d.log.boundary.nextGroup.1 with
        | error e =>
            rw [Act.run_undo_of_exhausted h.wellFormed hs hd hgroup,
              onDocument_congr (g := fun c => { c with log := d.log.boundary.nextGroup.2 })
              hs.document rfl]
            exact (Leads.of_move (.log hs.document .advance)).atRest h
        | ok group =>
            have hreplaying := replaying_begun h.wellFormed hs hgroup
            have hothers : ∀ done r c, r ≠ root →
                ((s.onDocument root fun _ => d.begun).replayedAll root v d.begun
                done).editor.documents.get? r =
                  some c → c.log.replaying = false := by
              intro done r c hr hc
              rw [documents_replayedAll_of_ne hreplaying.shows done hr, get?_onDocument_of_ne _ hr]
                at hc
              exact h.idle r c hc
            rcases Act.undo_cases h.wellFormed hs hd hgroup with
              ⟨hallows, hrun⟩ | ⟨done, r, rest, e, t, hsplit, hallows, hblocks, hrun⟩
            · rw [hrun]
              have hnext := hreplaying.finish hallows
              refine atRest_of_document ?_ (shows_onDocument_self hnext.shows _) ?_ ?_
              · apply wellFormed_onDocument hnext.wellFormed
                intro c hc
                exact (hnext.wellFormed.admits hc).ended
              · exact UndoLog.replaying_boundary _
              · intro r c hr hc
                rw [get?_onDocument_of_ne _ hr] at hc
                exact hothers group r c hr hc
            · rw [hrun]
              have hnext := (hsplit ▸ hreplaying :
                (s.onDocument root fun _ => d.begun).Replaying view v root d.begun
                (done ++ r :: rest)).nextAll hallows
              have hw : t.editor.WellFormed := hblocks.editor_eq.symm ▸ hnext.wellFormed
              have ht : t.editor.Shows view v root (d.begun.replayedAll v.markers.point done) :=
                hblocks.editor_eq.symm ▸ hnext.shows
              have hended : (t.onDocument root Document.ended).editor.WellFormed :=
                wellFormed_onDocument hw fun c hc => (hw.admits hc).ended
              have hshown := shows_onDocument_self ht Document.ended
              refine atRest_of_document ?_ (shows_onDocument_self hshown _) ?_ ?_
              · apply wellFormed_onDocument hended
                intro c hc
                obtain rfl := Option.some.inj (hshown.document.symm.trans hc)
                exact (hended.admits hc).rewound fun i hi =>
                  Document.mem_chain_ended ha.log haccepts hgroup _ done hi
                  (hw.admits ht.document).log
              · exact UndoLog.replaying_boundary _
              · intro r c hr hc
                rw [get?_onDocument_of_ne _ hr, get?_onDocument_of_ne _ hr, hblocks.editor_eq] at hc
                exact hothers done r c hr hc

theorem AtRest.after (h : s.AtRest) (o : Op) : (s.after o).AtRest := by
  by_cases ho : ∃ view, o = .undo view
  · obtain ⟨view, rfl⟩ := ho
    exact h.after_undo view
  · exact (leads_after h.wellFormed fun view hview => ho ⟨view, hview⟩).atRest h

theorem AtRest.afterAll (h : s.AtRest) (ops : List Op) : (s.afterAll ops).AtRest := by
  induction ops generalizing s with
  | nil => exact h
  | cons o ops ih => exact ih (h.after o)

theorem fresh_atRest (limits : Limits) (locks : Option LockProtocol) :
    (fresh limits locks).AtRest where
  wellFormed := Editor.empty_wellFormed limits
  idle root d hd := by
    simp [fresh, start, Editor.empty] at hd

/-- Every session that operations lead to is at rest. -/
theorem Reachable.atRest (h : s.Reachable) : s.AtRest := by
  induction h with
  | fresh limits locks => exact fresh_atRest limits locks
  | after o _ ih => exact ih.after o

end Session

end Editing
