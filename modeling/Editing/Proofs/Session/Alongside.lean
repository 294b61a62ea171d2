import Editing.Proofs.History.Severing
import Editing.Proofs.Session.Consecutive

/-!
# Undoing alongside a log that was cut back

What is done to a session does not depend on the records that a log has lost, until an undo needs
them. So two sessions that differ only in how far a log goes back stay so while the same undos are
made in both: whatever succeeds in the one with the shorter log succeeds in the other, with the same
text, markers, overlays, views, ticks and calls, and where something stands in the way of the one it
stands in the way of the other.
-/

namespace Editing

/-- The document with another log. -/
def Document.relogged (d : Document) (l : UndoLog) : Document := { d with log := l }

namespace Document

variable {d : Document} {l : UndoLog} {tail : List Record}

theorem apply_relogged (h : UndoLog.Extends tail d.log l) (c : Change) :
    ∃ l', UndoLog.Extends tail (d.apply c).log l' ∧
      (d.relogged l).apply c = (d.apply c).relogged l' := by
  cases c with
  | insert pos text =>
      exact ⟨l.recordInsert pos text.length, h.recordInsert pos text.length, rfl⟩
  | delete start stop =>
      have hrecord : (d.relogged l).deletionRecord start stop = d.deletionRecord start stop := by
        rw [deletionRecord, deletionRecord, relogged, h.accepts]
      refine ⟨l.record (d.deletionRecord start stop), h.record _, ?_⟩
      rw [← hrecord]
      rfl
  | property start stop key value =>
      exact ⟨l.record (.property start stop key value), h.record _, rfl⟩

theorem readjustAll_relogged (as : List MarkerAdjustment) (d : Document) (l : UndoLog) :
    as.foldl readjust (d.relogged l) = (as.foldl readjust d).relogged l := by
  induction as generalizing d with
  | nil => rfl
  | cons a as ih =>
      have hfirst : (d.relogged l).readjust a = (d.readjust a).relogged l := by
        have hmarkers : (d.relogged l).markers = d.markers := rfl
        rw [readjust, readjust, hmarkers]
        cases Markers.position? d.markers a.marker <;> rfl
      rw [List.foldl_cons, List.foldl_cons, hfirst, ih]

end Document

namespace Session

/-- The session with another log of a root. -/
def relogged (s : Session) (root : ViewId) (l : UndoLog) : Session :=
  s.onDocument root (·.relogged l)

variable {s t : Session} {view root : ViewId} {v : View} {d : Document} {l : UndoLog}
  {tail : List Record} {r : Record} {rs : List Record}

theorem shows_relogged (hs : s.editor.Shows view v root d) (l : UndoLog) :
    (s.relogged root l).editor.Shows view v root (d.relogged l) :=
  shows_onDocument_self hs _

theorem relogged_relogged (s : Session) (root : ViewId) (l m : UndoLog) :
    (s.relogged root l).relogged root m = s.relogged root m :=
  onDocument_onDocument s root _ _

theorem relogged_self (hd : s.editor.documents.get? root = some d) :
    s.relogged root d.log = s := onDocument_self hd rfl

theorem onDocument_relogged (hd : s.editor.documents.get? root = some d)
    {f : Document → Document} {m : UndoLog} (hf : f (d.relogged l) = (f d).relogged m) :
    (s.relogged root l).onDocument root f = (s.onDocument root f).relogged root m :=
  onDocument_swap hd hf

theorem aside_relogged (h : UndoLog.Extends tail d.log l) : Aside (·.relogged l) d where
  wanted := rfl
  modified := rfl
  accepts := h.accepts
  locked _ := rfl

/-- A change is made in the same way, whatever the log has lost. -/
theorem revised_relogged (hs : s.editor.Shows view v root d) (h : UndoLog.Extends tail d.log l)
    (c : Change) :
    ∃ l', UndoLog.Extends tail (d.revised c).log l' ∧
      (d.relogged l).revised c = (d.revised c).relogged l' ∧
      (s.relogged root l).revised root (d.relogged l) c =
        (s.revised root d c).relogged root l' := by
  have hrevised : ∃ l', UndoLog.Extends tail (d.revised c).log l' ∧
      (d.relogged l).revised c = (d.revised c).relogged l' := by
    rw [Document.revised, Document.revised]
    cases hvoid : c.isVoid with
    | true => exact ⟨l, h, rfl⟩
    | false =>
        have hlocked : UndoLog.Extends tail
          ({ d with locked := d.locked || d.wanted.isSome } : Document).log l := h
        exact Document.apply_relogged hlocked c
  obtain ⟨l', hl, hd⟩ := hrevised
  exact ⟨l', hl, hd, revised_onDocument hs.document (aside_relogged h) hd⟩

theorem replayed_relogged (hs : s.editor.Shows view v root d) (h : UndoLog.Extends tail d.log l)
    (r : Record) :
    ∃ l', UndoLog.Extends tail (d.replayed v.markers.point r).log l' ∧
      (d.relogged l).replayed v.markers.point r =
        (d.replayed v.markers.point r).relogged l' ∧
      (s.relogged root l).replayed root v (d.relogged l) r =
        (s.replayed root v d r).relogged root l' := by
  cases r with
  | insert pos n =>
      obtain ⟨l', hl, hd, hs'⟩ := revised_relogged hs h (.delete pos (pos + n))
      refine ⟨l', hl, by rw [Document.replayed, hd]; rfl, ?_⟩
      rw [replayed, hs']
      exact onDocument_relogged (shows_revised hs).document rfl
  | delete pos text as =>
      obtain ⟨l', hl, hd, hs'⟩ := revised_relogged hs h (.insert pos text)
      have hadjust : (d.relogged l).readjustable pos as = d.readjustable pos as := rfl
      refine ⟨l', ?_, ?_, ?_⟩
      · change UndoLog.Extends tail ((d.readjustable pos as).foldl Document.readjust
          (d.revised (.insert pos text))).log l'
        rw [Document.log_readjustAll]
        exact hl
      · rw [Document.replayed, hd, hadjust, Document.readjustAll_relogged]
        rfl
      · have hshown := shows_revised (c := .insert pos text) hs
        rw [replayed, hs', hadjust,
          onDocument_relogged hshown.document (Document.readjustAll_relogged _ _ _)]
        exact onDocument_relogged (shows_onDocument_self hshown _).document rfl
  | property start stop key value => exact ⟨l, h, rfl, rfl⟩
  | boundary => exact ⟨l, h, rfl, rfl⟩

theorem parallel_relogged (view : ViewId) (v : View) (root : ViewId) (tail : List Record) :
    Parallel view v view v root fun s d t c =>
      ∃ l, UndoLog.Extends tail d.log l ∧ t = s.relogged root l ∧ c = d.relogged l where
  hidden := by
    rintro s _ d _ ⟨l, -, rfl, rfl⟩ r
    rfl
  hindered := by
    rintro s _ d _ ⟨l, -, rfl, rfl⟩
    rfl
  called := by
    rintro s _ d _ ⟨l, hl, rfl, rfl⟩ call
    exact ⟨l, hl, rfl, rfl⟩
  replayed := by
    rintro s _ d _ r rs ⟨l, hl, rfl, rfl⟩ h - -
    obtain ⟨l', hl', hd, hs⟩ := replayed_relogged h.shows hl r
    exact ⟨l', hl', hs, hd⟩

/-- Records are taken back in the same way, up to the same one. -/
theorem run_replayAll_relogged (h : s.Replaying view v root d rs)
    (h' : (s.relogged root l).Replaying view v root (d.relogged l) rs)
    (hl : UndoLog.Extends tail d.log l) :
    ∃ c l', ((Act.replayAll view root rs).run s).2.editor.Shows view v root c ∧
      UndoLog.Extends tail c.log l' ∧
      (Act.replayAll view root rs).run (s.relogged root l) =
        (((Act.replayAll view root rs).run s).1,
          ((Act.replayAll view root rs).run s).2.relogged root l') := by
  obtain ⟨hreply, c, _, hc, l', hl', hs, -⟩ :=
    (parallel_relogged view v root tail).run_replayAll h h' ⟨l, hl, rfl, rfl⟩
  exact ⟨c, l', hc, hl', Prod.ext hreply hs⟩

/-- The document of a root when an undo has succeeded, and what remains of its log. -/
theorem AtRest.shows_undone (h : s.AtRest) (hs : s.editor.Shows view v root d)
    (he : d.log.isEnabled = true) {group : List Record}
    (hgroup : d.log.boundary.nextGroup.1 = .ok group) (hok : ((Act.undo view).run s).1 = .ok ()) :
    ((Act.undo view).run s).2.editor.Shows view v root (d.undone v.markers.point group) ∧
      (d.undone v.markers.point group).log.cursor ≠ .idle ∧
      (d.undone v.markers.point group).log.remaining =
        (d.log.boundary.behindEntries.drop 1).map Prod.snd := by
  have hlog := (h.wellFormed.admits hs.document).log
  have haccepts := h.accepts hs.document he
  rcases Act.undo_cases h.wellFormed hs he hgroup with
    ⟨hallows, hrun⟩ | ⟨done, r, rest, e, t, -, -, -, hrun⟩
  · have hfinal := (replaying_begun h.wellFormed hs hgroup).finish hallows
    have hwell := (hfinal.wellFormed.admits hfinal.shows.document).log
    rw [hrun]
    exact ⟨shows_onDocument_self hfinal.shows _,
      Document.moved_undone hlog haccepts hgroup v.markers.point hwell,
      Document.remaining_undone hlog haccepts hgroup v.markers.point hwell⟩
  · rw [hrun] at hok
    cases hok

/-- An undo that finds a group does the same in both sessions. -/
theorem undo_relogged (hrest : s.AtRest) (hrest' : (s.relogged root l).AtRest)
    (hs : s.editor.Shows view v root d) (he : d.log.isEnabled = true)
    (hl : UndoLog.Extends tail d.log l) (hb : UndoLog.Abreast tail d.log l) {group : List Record}
    (hgroup : d.log.boundary.nextGroup.1 = .ok group) :
    ∃ c l', ((Act.undo view).run s).2.editor.Shows view v root c ∧
      (Act.undo view).run (s.relogged root l) =
        (((Act.undo view).run s).1, ((Act.undo view).run s).2.relogged root l') ∧
      (((Act.undo view).run s).1 = .ok () → c.log.isEnabled = true ∧
        UndoLog.Extends tail c.log l' ∧ (UndoLog.Abreast tail c.log l' ∨ c.log.Spent)) := by
  have hs' := shows_relogged hs l
  have he' : (d.relogged l).log.isEnabled = true := hl.enabled.trans he
  have hnext : d.log.boundary.nextEntries ≠ [] := by
    intro hnil
    rw [UndoLog.nextGroup_eq (by rw [UndoLog.isEnabled_boundary, he]), hnil] at hgroup
    cases hgroup
  obtain ⟨hnext', hbehind⟩ := hl.boundary.next (hl.abreast_boundary hb) hnext
  have hgroup' : (d.relogged l).log.boundary.nextGroup.1 = .ok group := by
    have hne : l.boundary.nextEntries ≠ [] := fun hnil => hnext
      (List.map_eq_nil_iff.mp (by rw [← hnext', hnil]; rfl))
    obtain ⟨hfirst, -⟩ := hl.boundary.short.mem_of_nextGroup hgroup
    change l.boundary.nextGroup.1 = _
    rw [UndoLog.nextGroup_of_next (by rw [UndoLog.isEnabled_boundary]; exact he') hne, hnext',
      hfirst]
  have hbegun : (s.relogged root l).onDocument root (fun _ => (d.relogged l).begun) =
      (s.onDocument root fun _ => d.begun).relogged root
        l.boundary.nextGroup.2.beginReplay := by
    rw [relogged, relogged, onDocument_onDocument, onDocument_onDocument]
    rfl
  have hreplaying' := replaying_begun hrest'.wellFormed hs' hgroup'
  rw [hbegun] at hreplaying'
  obtain ⟨c, l', hc, hextends, hrun'⟩ := run_replayAll_relogged
    (replaying_begun hrest.wellFormed hs hgroup) hreplaying' hl.boundary.nextGroup.beginReplay
  have hundo := Act.run_undo_of_group hrest.wellFormed hs he hgroup
  have hundo' := Act.run_undo_of_group hrest'.wellFormed hs' he' hgroup'
  rw [hbegun, hrun'] at hundo'
  rcases hrun : (Act.replayAll view root group).run (s.onDocument root fun _ => d.begun) with
    ⟨e | _, t⟩
  · rw [hrun] at hundo hundo' hc
    dsimp only at hundo hundo' hc
    have hended := shows_onDocument_self hc Document.ended
    rw [hundo, hundo']
    refine ⟨_, (l'.endReplay.boundary).rewind l.cursor, shows_onDocument_self hended _, ?_,
      fun hok => absurd hok (by rintro ⟨⟩)⟩
    rw [onDocument_relogged hc.document (m := l'.endReplay.boundary) rfl, relogged, relogged,
      onDocument_onDocument (t.onDocument root Document.ended),
      onDocument_onDocument (t.onDocument root Document.ended)]
    rfl
  · rw [hrun] at hundo hundo' hc
    dsimp only at hundo hundo' hc
    have hended := onDocument_relogged hc.document (f := Document.ended) (l := l')
      (m := l'.endReplay.boundary) rfl
    have hshown := shows_onDocument_self hc Document.ended
    have hok : ((Act.undo view).run s).1 = .ok () := by rw [hundo]
    have hok' : ((Act.undo view).run (s.relogged root l)).1 = .ok () := by rw [hundo']
    obtain ⟨hdone, hmoved, hremaining⟩ := hrest.shows_undone hs he hgroup hok
    obtain ⟨hdone', hmoved', hremaining'⟩ := hrest'.shows_undone hs' he' hgroup' hok'
    rw [hundo] at hdone
    rw [hundo', hended] at hdone'
    rw [hundo, hundo', hended]
    have heq := Option.some.inj (hdone.document.symm.trans hshown.document)
    have heq' := Option.some.inj
      (hdone'.document.symm.trans (shows_relogged hshown l'.endReplay.boundary).document)
    rw [heq] at hmoved hremaining
    rw [heq'] at hmoved' hremaining'
    refine ⟨_, l'.endReplay.boundary, hshown, rfl, fun _ => ⟨?_, hextends.endReplay.boundary, ?_⟩⟩
    · rw [← heq, Document.isEnabled_undone, he]
    · exact UndoLog.abreast_or_spent hbehind hmoved hmoved' hremaining hremaining'

theorem afterAll_replicate_succ (s : Session) (o : Op) (k : Nat) :
    s.afterAll (List.replicate (k + 1) o) = (s.afterAll (List.replicate k o)).after o := by
  rw [List.replicate_succ', afterAll_concat]

/-- The session apart from the undo log of a root. -/
def unlogged (s : Session) (root : ViewId) : Session := s.relogged root .empty

/-- Two sessions that differ in the log of a root only, which in the second one goes back further:
the first one's was cut back, and its cursor still names the same record, or one that is lost. -/
structure Alongside (view root : ViewId) (s t : Session) : Prop where
  short : s.AtRest
  long : t.AtRest
  logs : ∃ v d l tail, s.editor.Shows view v root d ∧ d.log.isEnabled = true ∧
    UndoLog.Extends tail d.log l ∧ (UndoLog.Abreast tail d.log l ∨ d.log.Spent) ∧
    t = s.relogged root l

namespace Alongside

theorem unlogged_eq (h : Alongside view root s t) : t.unlogged root = s.unlogged root := by
  obtain ⟨v, d, l, tail, -, -, -, -, rfl⟩ := h.logs
  exact relogged_relogged s root l .empty

/-- While the shorter log has something left to undo, an undo does the same with both. -/
theorem undo (h : Alongside view root s t)
    (hleft : ((Act.undo view).run s).1 ≠ .error .noFurtherUndo) :
    ((Act.undo view).run t).1 = ((Act.undo view).run s).1 ∧
      (t.after (.undo view)).unlogged root = (s.after (.undo view)).unlogged root ∧
      (((Act.undo view).run s).1 = .ok () →
        Alongside view root (s.after (.undo view)) (t.after (.undo view))) := by
  obtain ⟨v, d, l, tail, hs, he, hextends, hlevel, rfl⟩ := h.logs
  cases hgroup : d.log.boundary.nextGroup.1 with
  | error e =>
      have hrun := Act.run_undo_of_exhausted h.short.wellFormed hs he hgroup
      rw [hrun, UndoLog.nextGroup_error (by rw [UndoLog.isEnabled_boundary, he]) hgroup] at hleft
      exact absurd rfl hleft
  | ok group =>
      have hb : UndoLog.Abreast tail d.log l := by
        rcases hlevel with hb | hspent
        · exact hb
        · rw [hspent.nextGroup hextends.short he] at hgroup
          cases hgroup
      obtain ⟨c, l', hc, hrun, hok⟩ := undo_relogged h.short h.long hs he hextends hb hgroup
      have hafter : (s.relogged root l).after (.undo view) =
          (s.after (.undo view)).relogged root l' := by
        rw [after_undo_eq, after_undo_eq, hrun]
      refine ⟨by rw [hrun], ?_, fun hundone => ?_⟩
      · rw [hafter]
        exact relogged_relogged _ root l' .empty
      · obtain ⟨he', hextends', hlevel'⟩ := hok hundone
        exact ⟨h.short.after_undo view, h.long.after_undo view, v, c, l', tail,
          by rwa [after_undo_eq], he', hextends', hlevel', hafter⟩

theorem spent {v : View} (h : Alongside view root s t) (hs : s.editor.Shows view v root d)
    (hspent : d.log.Spent) : ((Act.undo view).run s).1 = .error .noFurtherUndo := by
  obtain ⟨v', d', l, tail, hs', he, hextends, -, -⟩ := h.logs
  obtain rfl := Option.some.inj (hs.document.symm.trans hs'.document)
  have hgroup := hspent.nextGroup hextends.short he
  rw [Act.run_undo_of_exhausted h.short.wellFormed hs he hgroup]

theorem undos (h : Alongside view root s t) {n : Nat}
    (hok : ∀ k < n,
      ((Act.undo view).run (s.afterAll (List.replicate k (.undo view)))).1 = .ok ()) :
    ∀ k ≤ n, Alongside view root (s.afterAll (List.replicate k (.undo view)))
      (t.afterAll (List.replicate k (.undo view))) := by
  intro k hk
  induction k with
  | zero => exact h
  | succ k ih =>
      have hlast := hok k hk
      rw [afterAll_replicate_succ, afterAll_replicate_succ]
      exact ((ih (Nat.le_of_succ_le hk)).undo (by rw [hlast]; rintro ⟨⟩)).2.2 hlast

end Alongside

end Session

end Editing
