import Editing.Proofs.Session.Alongside

/-!
# Undoing after a truncation

A truncation that calls no handler does nothing but cut a log back, so the session before it and the
one after it are alongside each other: undos do not tell them apart before the shorter log has been
undone to its end.
-/

namespace Editing

theorem UndoLog.truncate_quiet {l : UndoLog} (hs : l.suspended = false) (limits : Limits)
    (h : (l.truncate limits).calls = []) :
    (l.truncate limits).log = (l.cutBack limits.soft limits.strong).2 := by
  rw [truncate, truncateWith, hs, if_neg Bool.false_ne_true] at h ⊢
  cases harena : l.arena with
  | none => rw [cutBack, harena]
  | some a =>
      simp only [harena] at h ⊢
      split at h
      · split at h
        · simp at h
        · simp at h
      · rfl

/-- The session once the log of a root has been truncated and the calls of handlers are known. -/
def Session.truncated (s : Session) (root : ViewId) (run : TruncationRun) : Session :=
  { s.relogged root run.log with
    trace := (run.calls.map Call.handler).reverse ++ s.trace }

namespace Act

variable {s : Session} {view root : ViewId} {v : View} {d : Document}

theorem run_callHandlers (calls : List HandlerCall) (s : Session) :
    (callHandlers calls).run s =
      (.ok (), { s with trace := (calls.map Call.handler).reverse ++ s.trace }) := by
  induction calls generalizing s with
  | nil => rfl
  | cons c cs ih =>
      rw [callHandlers, run_bind_ok (run_call _ _), ih, List.map_cons, List.reverse_cons,
        List.append_assoc]
      rfl

theorem run_truncateLog (hs : s.editor.Shows root v root d) :
    (truncateLog root).run s = ((d.log.truncate s.editor.limits).outcome,
      s.truncated root (d.log.truncate s.editor.limits)) := by
  rw [truncateLog, run_ask_bind hs.document_eq, run_bind_ok (run_get s),
    run_bind_ok (run_changeLog hs _), run_bind_ok (run_callHandlers _ _), run_give]
  rfl

/-- A truncation leaves everything as it was but the log, and tells of the calls of handlers. -/
theorem run_truncateUndo (h : s.editor.WellFormed) (hs : s.editor.Shows view v root d) :
    (truncateUndo view).run s = ((d.log.truncate s.editor.limits).outcome,
      s.truncated root (d.log.truncate s.editor.limits)) := by
  obtain ⟨w, hw, -⟩ := h.registry.shows_root hs.document
  have hcurrent : (s.edit fun e => { e with current := some root }).editor.Shows root w root d :=
    ⟨hw.live, hw.root_eq, hw.document⟩
  obtain ⟨previous, hprevious, hprevlive⟩ := h.registry.exists_current hw.live
  rw [truncateUndo, run_ask_bind hs.rootOf_eq, run_withCurrent hw.live, run_truncateLog hcurrent]
  have hrestored : ∀ e : Editor, e.views = s.editor.views →
      e.restoreCurrent s.editor.current = { e with current := s.editor.current } := by
    intro e hviews
    rw [hprevious, restoreCurrent_of_live (isLive_iff.mpr (by rwa [hviews]))]
  refine congrArg (Prod.mk _) ?_
  change Session.mk (Editor.restoreCurrent _ s.editor.current) _ _ = _
  rw [hrestored]
  · rfl
  · rfl

end Act

namespace Session

variable {s : Session} {view root : ViewId} {v : View} {d : Document}

/-- A truncation that calls no handler only cuts the log back. -/
theorem after_truncateUndo (h : s.editor.WellFormed) (hs : s.editor.Shows view v root d)
    (hquiet : ∀ call, .handler call ∉ s.callsUntil (s.after (.truncateUndo view))) :
    s.after (.truncateUndo view) = s.relogged root
      (d.log.cutBack s.editor.limits.soft s.editor.limits.strong).2 := by
  have hrun : s.after (.truncateUndo view) =
      s.truncated root (d.log.truncate s.editor.limits) := by
    rw [after, Op.act, Act.run_map]
    exact congrArg Prod.snd (Act.run_truncateUndo h hs)
  have hcalls : (d.log.truncate s.editor.limits).calls = [] := by
    rw [hrun, truncated, callsUntil_eq rfl] at hquiet
    cases hcalls : (d.log.truncate s.editor.limits).calls with
    | nil => rfl
    | cons c cs =>
        rw [hcalls] at hquiet
        exact absurd List.mem_cons_self (hquiet c)
  have hlog := UndoLog.truncate_quiet (h.admits hs.document).takes s.editor.limits hcalls
  rw [hrun, truncated, hcalls, hlog]
  rfl

/-- The session after such a truncation is alongside the one before. -/
theorem AtRest.alongside_truncated (h : s.AtRest) (hs : s.editor.Shows view v root d)
    (he : d.log.isEnabled = true)
    (hquiet : ∀ call, .handler call ∉ s.callsUntil (s.after (.truncateUndo view))) :
    Alongside view root (s.after (.truncateUndo view)) s := by
  have hcut := after_truncateUndo h.wellFormed hs hquiet
  obtain ⟨tail, hextends, hlevel⟩ := (h.wellFormed.admits hs.document).log.extends_cutBack
    s.editor.limits.soft s.editor.limits.strong
  refine ⟨h.after _, h, v, _, d.log, tail, hcut ▸ shows_relogged hs _,
    hextends.enabled.symm.trans he, hextends, hlevel, ?_⟩
  rw [hcut, relogged_relogged, relogged_self hs.document]

end Session

/-- The records that the next undos through a view look at, newest first. -/
def Editor.undoRemaining (e : Editor) (view : ViewId) : Except Error (List Record) := do
  return (← e.document view).log.remaining

theorem Editor.Shows.undoRemaining_eq {e : Editor} {view root : ViewId} {v : View} {d : Document}
    (h : e.Shows view v root d) : e.undoRemaining view = .ok d.log.remaining := by
  rw [Editor.undoRemaining, h.document_eq]
  rfl

namespace Session

variable {s t : Session} {view root : ViewId}

/-- When all that was kept is newer than what remained to be undone, nothing remains. -/
theorem Alongside.severed (h : Alongside view root s t) {records kept remaining : List Record}
    (hrecords : t.editor.undoRecords view = .ok records)
    (hkept : s.editor.undoRecords view = .ok kept)
    (hremaining : t.editor.undoRemaining view = .ok remaining)
    (hmoved : t.editor.undoCursor view ≠ .ok .idle)
    (hle : kept.length + remaining.length ≤ records.length) :
    ((Act.undo view).run s).1 = .error .noFurtherUndo := by
  obtain ⟨v, d, l, tail, hs, -, hextends, hlevel, rfl⟩ := h.logs
  have ht := shows_relogged hs l
  rw [ht.undoRecords_eq] at hrecords
  rw [hs.undoRecords_eq] at hkept
  rw [ht.undoRemaining_eq] at hremaining
  rw [ht.undoCursor_eq] at hmoved
  cases hrecords
  cases hkept
  cases hremaining
  refine h.spent hs ?_
  rcases hlevel with hb | hspent
  · refine ⟨fun hidle => hmoved (congrArg Except.ok (hb.idle.mpr hidle)), ?_⟩
    have hall : (d.relogged l).log.records = d.log.records ++ tail := hextends.records
    have hleft : (d.relogged l).log.remaining = d.log.remaining ++ tail := hb.remaining
    rw [hall, hleft, List.length_append, List.length_append] at hle
    exact List.eq_nil_of_length_eq_zero (by omega)
  · exact hspent

/-- Undos do not tell whether a log was cut back before, as long as it goes back far enough. When no
handler is called by the truncation, what undos do after it they would have done without it: with
the same text, markers, overlays, views, ticks and calls after each of them, and with the same
failure at the end, unless it is that nothing is left to undo. Nothing is left at once when all that
remained to be undone was cut off. -/
theorem truncation_invisible (h : s.Reachable) (hroot : s.editor.rootOf view = .ok root)
    (hundo : s.editor.undoEnabled view = .ok true)
    (hquiet : ∀ call, .handler call ∉ s.callsUntil (s.after (.truncateUndo view))) :
    let cut := s.after (.truncateUndo view)
    let undos := fun n => List.replicate n (Op.undo view)
    (∀ n, (∀ k < n, ((Op.undo view).act.run (cut.afterAll (undos k))).1 = .ok .done) →
      (∀ k < n, ((Op.undo view).act.run (s.afterAll (undos k))).1 = .ok .done) ∧
      (∀ k ≤ n, (s.afterAll (undos k)).unlogged root = (cut.afterAll (undos k)).unlogged root) ∧
      ∀ e, ((Op.undo view).act.run (cut.afterAll (undos n))).1 = .error e → e ≠ .noFurtherUndo →
        ((Op.undo view).act.run (s.afterAll (undos n))).1 = .error e ∧
        (s.afterAll (undos (n + 1))).unlogged root =
          (cut.afterAll (undos (n + 1))).unlogged root) ∧
    ∀ records kept remaining, s.editor.undoRecords view = .ok records →
      cut.editor.undoRecords view = .ok kept → s.editor.undoRemaining view = .ok remaining →
      s.editor.undoCursor view ≠ .ok .idle → kept.length + remaining.length ≤ records.length →
      ((Op.undo view).act.run cut).1 = .error .noFurtherUndo := by
  intro cut undos
  obtain ⟨v, d, hs⟩ := h.atRest.wellFormed.registry.shows_of_rootOf hroot
  rw [hs.undoEnabled_eq] at hundo
  have hstart := h.atRest.alongside_truncated hs (Except.ok.inj hundo) hquiet
  refine ⟨fun n hok => ?_, fun records kept remaining hrecords hkept hremaining hmoved hle => ?_⟩
  · have hok : ∀ k < n, ((Act.undo view).run (cut.afterAll (undos k))).1 = .ok () :=
      fun k hk => Act.run_quietly_ok_iff.mp (hok k hk)
    have hall := hstart.undos hok
    refine ⟨fun k hk => ?_, fun k hk => (hall k hk).unlogged_eq, fun e he hleft => ?_⟩
    · have hstep := (hall k (Nat.le_of_lt hk)).undo (by rw [hok k hk]; rintro ⟨⟩)
      exact Act.run_quietly_ok_iff.mpr (hstep.1.trans (hok k hk))
    · have he := Act.run_quietly_error_iff.mp he
      have hne : ((Act.undo view).run (cut.afterAll (undos n))).1 ≠ .error .noFurtherUndo := by
        rw [he]
        exact fun heq => hleft (Except.error.inj heq)
      have hstep := (hall n (Nat.le_refl n)).undo hne
      refine ⟨Act.run_quietly_error_iff.mpr (hstep.1.trans he), ?_⟩
      change (s.afterAll (List.replicate (n + 1) _)).unlogged root =
        (cut.afterAll (List.replicate (n + 1) _)).unlogged root
      rw [afterAll_replicate_succ, afterAll_replicate_succ]
      exact hstep.2.1
  · exact Act.run_quietly_error_iff.mpr
      (hstart.severed hrecords hkept hremaining hmoved hle)

/-- A text of four groups, the newest of which is undone, and a soft limit for its log. -/
def fourGroups (soft : Nat) : List Op :=
  [.createRoot "v", .insert 0 ['a'], .closeGroup 0, .goto 0 0, .insert 0 ['b'], .closeGroup 0,
    .goto 0 0, .insert 0 ['c'], .closeGroup 0, .goto 0 0, .insert 0 ['d'],
    .setLimits soft 400 none none, .undo 0]

theorem fourGroups_truncated :
    let s := (fresh .default none).afterAll (fourGroups 180)
    let cut := s.after (.truncateUndo 0)
    let undos := fun n => List.replicate n (Op.undo 0)
    s.Reachable ∧ s.editor.rootOf 0 = .ok 0 ∧ s.editor.undoEnabled 0 = .ok true ∧
      (∀ call, .handler call ∉ s.callsUntil cut) ∧
      (∀ k < 2, ((Op.undo 0).act.run (cut.afterAll (undos k))).1 = .ok .done) ∧
      (∀ k < 2, ((Op.undo 0).act.run (s.afterAll (undos k))).1 = .ok .done) ∧
      (s.afterAll (undos 2)).unlogged 0 = (cut.afterAll (undos 2)).unlogged 0 := by
  intro s cut undos
  have hreachable : s.Reachable := (Reachable.fresh .default none).afterAll (fourGroups 180)
  have hroot : s.editor.rootOf 0 = .ok 0 := by decide +kernel
  have hundo : s.editor.undoEnabled 0 = .ok true := by decide +kernel
  have hnone : (s.callsUntil cut).isEmpty = true := by decide +kernel
  have hquiet : ∀ call, .handler call ∉ s.callsUntil cut := by
    rw [List.isEmpty_iff.mp hnone]
    exact fun call => List.not_mem_nil
  have hfirst : ((Act.undo 0).run (cut.afterAll (undos 0))).1 = .ok () := by decide +kernel
  have hsecond : ((Act.undo 0).run (cut.afterAll (undos 1))).1 = .ok () := by decide +kernel
  have hok : ∀ k < 2, ((Op.undo 0).act.run (cut.afterAll (undos k))).1 = .ok .done := by
    intro k hk
    match k, hk with
    | 0, _ => exact Act.run_quietly_ok_iff.mpr hfirst
    | 1, _ => exact Act.run_quietly_ok_iff.mpr hsecond
  obtain ⟨hall, hsame, -⟩ := (truncation_invisible hreachable hroot hundo hquiet).1 2 hok
  exact ⟨hreachable, hroot, hundo, hquiet, hok, hall, hsame 2 (Nat.le_refl 2)⟩

end Session

end Editing
