import Editing.Proofs.Session.Course
import Editing.Proofs.Session.Settling
import Editing.Session.Reachable

/-!
# Operations as sequences of moves

What an operation other than an undo does is a sequence of moves, and no text or log is touched
twice on the way. So whatever every move preserves is preserved by these operations.
-/

namespace Editing

namespace Act

variable {s : Session} {view root : ViewId} {v : View} {d : Document}

/-! ## Logs cut back -/

theorem run_changeLog (hs : s.editor.Shows view v root d) (f : UndoLog → UndoLog) :
    (changeLog view f).run s = (.ok (), s.onDocument root fun d => { d with log := f d.log }) :=
  run_changeShown hs _

theorem leads_changeLog (h : s.editor.WellFormed) (view : ViewId) {f : UndoLog → UndoLog}
    (hf : ∀ l : UndoLog, l.Step (f l)) : s.Leads ((changeLog view f).run s).2 := by
  rcases h.registry.dead_or_shows view with hdead | ⟨v, root, d, hs⟩
  · rw [changeLog, run_changeShown_of_dead hdead]
    exact .refl s
  · rw [run_changeLog hs,
      Session.onDocument_congr (g := fun c => { c with log := f d.log }) hs.document rfl]
    exact .of_move (.log hs.document (hf d.log))

theorem moves_callHandlers (calls : List HandlerCall) (s : Session) :
    (callHandlers calls).run s = (.ok (), ((callHandlers calls).run s).2) ∧
      Session.Moves [] s ((callHandlers calls).run s).2 ∧
      ((callHandlers calls).run s).2.editor = s.editor := by
  induction calls generalizing s with
  | nil => exact ⟨rfl, .refl s, rfl⟩
  | cons c cs ih =>
      rw [callHandlers, run_bind_ok (run_call _ _)]
      obtain ⟨hrun, hmoves, heditor⟩ := ih (s.called (.handler c))
      exact ⟨hrun, (Session.Moves.of_quiet (.handler s c)).trans hmoves, heditor⟩

/-- The session once a log has been cut back and the handler's calls are known. -/
theorem moves_truncateLog (hs : s.editor.Shows root v root d) :
    Session.Moves [root] s ((truncateLog root).run s).2 ∧
      ((truncateLog root).run s).2.editor.views = s.editor.views := by
  have hmove : Session.Moves [root] s
      (s.onDocument root fun c => { c with log := (d.log.truncate s.editor.limits).log }) :=
    .single (.log hs.document (.truncate s.editor.limits))
  obtain ⟨hrun, hcalls, heditor⟩ := moves_callHandlers (d.log.truncate s.editor.limits).calls
    (s.onDocument root fun c => { c with log := (d.log.truncate s.editor.limits).log })
  rw [truncateLog, run_ask_bind hs.document_eq, run_bind_ok (run_get s),
    run_bind_ok (run_changeLog hs _), run_bind_ok hrun, run_give]
  exact ⟨hmove.trans hcalls, by rw [heditor, Session.views_onDocument]⟩

theorem isLive_iff {e : Editor} : e.isLive view = true ↔ ∃ v, e.views.get? view = some v := by
  rw [Editor.isLive, Table.contains, Option.isSome_iff_exists]

theorem isLive_eq_false {e : Editor} : e.isLive view = false ↔ e.views.get? view = none := by
  rw [Editor.isLive, Table.contains, Option.isSome_eq_false_iff, Option.isNone_iff_eq_none]

theorem restoreCurrent_of_live {e : Editor} (h : e.isLive view = true) :
    e.restoreCurrent (some view) = { e with current := some view } := by
  rw [Editor.restoreCurrent, Option.filter_some, if_pos h]

/-- What was current is so again if it is still live; if not, the current view stays. -/
theorem restoreCurrent_eq {e : Editor} (h : e.WellFormed) (previous : Option ViewId) :
    e.restoreCurrent previous = e ∨
      ∃ view v, e.views.get? view = some v ∧ previous = some view ∧
        e.restoreCurrent previous = { e with current := some view } := by
  rw [Editor.restoreCurrent]
  cases hp : previous.filter e.isLive with
  | some view =>
      obtain ⟨hprevious, hlive⟩ := Option.filter_eq_some_iff.mp hp
      obtain ⟨v, hv⟩ := isLive_iff.mp hlive
      exact Or.inr ⟨view, v, hv, hprevious, rfl⟩
  | none =>
      apply Or.inl
      cases hc : e.current.filter e.isLive with
      | some view => rfl
      | none =>
          have hnone : e.current = none := by
            cases hcurrent : e.current with
            | none => rfl
            | some view =>
                have hlive := isLive_iff.mpr (h.registry.current_live view hcurrent)
                rw [hcurrent, Option.filter_some, if_pos hlive] at hc
                cases hc
          have hkeys : e.firstLive = none := by
            rw [Editor.firstLive, Editor.viewList, List.head?_eq_none_iff]
            apply List.eq_nil_iff_forall_not_mem.mpr
            intro w hw
            obtain ⟨v, hv⟩ := Table.mem_keys.mp hw
            rw [h.registry.current_none hnone w] at hv
            cases hv
          cases e
          simp only at hnone hkeys ⊢
          rw [hkeys, hnone]

theorem moves_restoreCurrent (h : s.editor.WellFormed) (previous : Option ViewId) :
    Session.Moves [] s (s.edit (·.restoreCurrent previous)) := by
  rcases restoreCurrent_eq h previous with heq | ⟨view, v, hv, -, heq⟩
  · exact .of_eq (by rw [Session.edit, heq])
  · rw [show s.edit (·.restoreCurrent previous) = s.edit fun e => { e with current := some view } by
      rw [Session.edit, heq, Session.edit]]
    exact .of_quiet (.setCurrent hv)

theorem views_restoreCurrent (e : Editor) (previous : Option ViewId) :
    (e.restoreCurrent previous).views = e.views := by
  rw [Editor.restoreCurrent]
  repeat' split
  all_goals rfl

/-- Acting while a view is current: what was current is so again afterwards. -/
theorem run_withCurrent {α : Type} {act : Act α} (hv : s.editor.views.get? view = some v) :
    (withCurrent view act).run s =
      ((act.run (s.edit fun e => { e with current := some view })).1,
        (act.run (s.edit fun e => { e with current := some view })).2.edit
          (·.restoreCurrent s.editor.current)) := by
  rw [withCurrent, run_ask_bind (Editor.view_of_get hv), run_bind_ok (run_get s),
    run_bind_ok (run_change _ _), run_bind_ok (run_attempt _ _), run_bind_ok (run_change _ _),
    run_give]

theorem run_withCurrent_of_dead {α : Type} {act : Act α} (hv : s.editor.views.get? view = none) :
    (withCurrent view act).run s = (.error (.noLiveView view), s) := by
  rw [withCurrent, run_ask_bind_error (Editor.view_of_dead hv)]

theorem moves_withCurrent {α : Type} {act : Act α} {marks : List ViewId} (h : s.editor.WellFormed)
    (hv : s.editor.views.get? view = some v)
    (hact : Session.Moves marks (s.edit fun e => { e with current := some view })
      (act.run (s.edit fun e => { e with current := some view })).2) :
    Session.Moves marks s ((withCurrent view act).run s).2 := by
  have hset : Session.Moves [] s (s.edit fun e => { e with current := some view }) :=
    .of_quiet (.setCurrent hv)
  have hacted := hset.trans hact
  rw [List.append_nil] at hacted
  rw [run_withCurrent hv]
  exact hacted.trans (moves_restoreCurrent (hacted.wellFormed h) _)

theorem moves_truncateUndo (h : s.editor.WellFormed) (view : ViewId) :
    ∃ marks : List ViewId, marks.Nodup ∧ (∀ r ∈ marks, s.editor.rootOf view = .ok r) ∧
      Session.Moves marks s ((truncateUndo view).run s).2 ∧
      ((truncateUndo view).run s).2.editor.views = s.editor.views := by
  rcases h.registry.dead_or_shows view with hdead | ⟨v, root, d, hs⟩
  · rw [truncateUndo, run_ask_bind_error (Editor.rootOf_of_dead hdead)]
    exact ⟨[], List.nodup_nil, fun _ hr => absurd hr List.not_mem_nil, .refl s, rfl⟩
  · obtain ⟨w, hw, -⟩ := h.registry.shows_root hs.document
    have hcurrent : (s.edit fun e => { e with current := some root }).editor.Shows root w root d :=
      ⟨hw.live, hw.root_eq, hw.document⟩
    obtain ⟨hmoves, hviews⟩ := moves_truncateLog hcurrent
    rw [truncateUndo, run_ask_bind hs.rootOf_eq]
    refine ⟨[root], List.nodup_cons.mpr ⟨List.not_mem_nil, List.nodup_nil⟩, ?_,
      moves_withCurrent h hw.live hmoves, ?_⟩
    · intro r hr
      rw [List.mem_singleton.mp hr, hs.rootOf_eq]
    · rw [run_withCurrent hw.live]
      exact (views_restoreCurrent _ _).trans hviews

/-- Truncating one log after the other touches each of them at most once. -/
theorem moves_truncateAll {roots : List ViewId} (h : s.editor.WellFormed) (hn : roots.Nodup)
    (hroots : ∀ r ∈ roots, ∃ v, s.editor.views.get? r = some v ∧ v.base = none) :
    ∃ marks : List ViewId, marks.Nodup ∧ (∀ r ∈ marks, r ∈ roots) ∧
      Session.Moves marks s ((truncateAll roots).run s).2 := by
  induction roots generalizing s with
  | nil => exact ⟨[], List.nodup_nil, fun _ hr => hr, .refl s⟩
  | cons root roots ih =>
      obtain ⟨hroot, hn⟩ := List.nodup_cons.mp hn
      obtain ⟨marks, hnodup, hmarks, hmoves, hviews⟩ := moves_truncateUndo h root
      have hmark : ∀ r ∈ marks, r = root := by
        intro r hr
        obtain ⟨v, hv, hb⟩ := hroots root List.mem_cons_self
        have hrootOf := hmarks r hr
        rw [Editor.rootOf, Editor.view_of_get hv] at hrootOf
        rw [← Except.ok.inj hrootOf, hb, Option.getD_none]
      rw [truncateAll, run_bind]
      rcases hrun : (truncateUndo root).run s with ⟨_ | outcome, t⟩
      · rw [hrun] at hmoves
        exact ⟨marks, hnodup, fun r hr => hmark r hr ▸ List.mem_cons_self, hmoves⟩
      · rw [hrun] at hmoves hviews
        obtain ⟨later, hlater, hmem, hrest⟩ := ih (hmoves.wellFormed h) hn fun r hr => by
          obtain ⟨v, hv, hb⟩ := hroots r (List.mem_cons_of_mem root hr)
          exact ⟨v, by rw [show t.editor.views = s.editor.views from hviews, hv], hb⟩
        have hall := hmoves.trans hrest
        refine ⟨later ++ marks, ?_, ?_, ?_⟩
        · refine List.nodup_append.mpr ⟨hlater, hnodup, fun r hr r' hr' hrr => ?_⟩
          rw [hmark r' hr'] at hrr
          exact hroot (hrr ▸ hmem r hr)
        · intro r hr
          rcases List.mem_append.mp hr with hr | hr
          · exact List.mem_cons_of_mem root (hmem r hr)
          · exact hmark r hr ▸ List.mem_cons_self
        · simp only [run_bind]
          rcases hrun' : (truncateAll roots).run t with ⟨_ | _, u⟩
          · rwa [hrun'] at hall
          · rwa [hrun'] at hall

theorem mem_rootList {e : Editor} :
    root ∈ e.rootList ↔ ∃ v, e.views.get? root = some v ∧ v.base = none := by
  rw [Editor.rootList, List.mem_map]
  constructor
  · rintro ⟨⟨w, v⟩, hmem, rfl⟩
    obtain ⟨hmem, hb⟩ := List.mem_filter.mp hmem
    exact ⟨v, Table.mem_entries.mp hmem, by simpa using hb⟩
  · rintro ⟨v, hv, hb⟩
    exact ⟨(root, v), List.mem_filter.mpr ⟨Table.mem_entries.mpr hv, by simp [hb]⟩, rfl⟩

theorem nodup_rootList (e : Editor) : e.rootList.Nodup := by
  have hkeys : e.views.keys.Nodup := e.views.keys_ascending.imp Nat.ne_of_lt
  exact List.Sublist.nodup (List.Sublist.map _ List.filter_sublist) hkeys

theorem leads_reclaim (h : s.editor.WellFormed) : s.Leads (reclaim.run s).2 := by
  rw [reclaim, run_bind_ok (run_get s)]
  obtain ⟨marks, hn, -, hmoves⟩ := moves_truncateAll h (nodup_rootList s.editor)
    fun r hr => mem_rootList.mp hr
  exact ⟨marks, hn, hmoves⟩

end Act

/-! ## Operations -/

/-- An operation other than an undo is a sequence of moves. -/
theorem Session.leads_after {s : Session} (h : s.editor.WellFormed) {o : Op}
    (ho : ∀ view, o ≠ .undo view) : s.Leads (s.after o) := by
  cases o with
  | createRoot name => exact Act.leads_createRoot name s
  | createIndirect base name =>
      rw [after, Op.act, Act.run_map]
      exact .of_moves (Act.moves_createIndirect base name s)
  | kill view =>
      rw [after, Op.act, Act.run_quietly]
      exact .of_moves (Act.moves_kill h view)
  | setCurrent view =>
      rw [after, Op.act, Act.run_quietly]
      exact .of_moves (Act.moves_setCurrent view s)
  | narrow view p q =>
      rw [after, Op.act, Act.run_quietly]
      exact .of_moves (Act.moves_narrow h view p q)
  | widen view =>
      rw [after, Op.act, Act.run_quietly]
      exact .of_moves (Act.moves_widen h view)
  | goto view pos =>
      rw [after, Op.act, Act.run_map]
      exact .of_moves (Act.moves_goto h view pos)
  | insert view text =>
      rw [after, Op.act, Act.run_map]
      exact Act.leads_insert h view text
  | deleteRegion view p q =>
      rw [after, Op.act, Act.run_map]
      exact Act.leads_deleteRegion h view p q
  | erase view =>
      rw [after, Op.act, Act.run_quietly]
      exact Act.leads_erase h view
  | insertRaw view pos text =>
      rw [after, Op.act, Act.run_map]
      exact Act.leads_insertRaw h view pos text
  | deleteRaw view start stop =>
      rw [after, Op.act, Act.run_map]
      exact Act.leads_deleteRaw h view start stop
  | notePropertyRaw view start stop key value =>
      rw [after, Op.act, Act.run_quietly]
      exact Act.leads_makeChange h view _
  | setReadOnly view readOnly =>
      rw [after, Op.act, Act.run_quietly]
      exact .of_moves (Act.moves_setReadOnly view readOnly s)
  | setInhibitReadOnly inhibit => exact .of_move (.setInhibit s inhibit)
  | setUnmodified view =>
      rw [after, Op.act, Act.run_quietly]
      exact .of_moves (Act.moves_setUnmodified h view)
  | setVisitedFile view file =>
      rw [after, Op.act, Act.run_quietly]
      exact .of_moves (Act.moves_setVisitedFile h view file)
  | setLockProtocol protocol => exact .of_move (.setLocks s protocol)
  | makeMarker => exact .of_move (.makeMarker s)
  | placeMarker marker view pos =>
      rw [after, Op.act, Act.run_quietly]
      exact .of_moves (Act.moves_placeMarker h marker view pos)
  | detachMarker marker =>
      rw [after, Op.act, Act.run_quietly]
      exact .of_moves (Act.moves_detachMarker h marker)
  | copyMarker marker advances =>
      rw [after, Op.act, Act.run_map]
      exact .of_moves (Act.moves_copyMarker h marker advances)
  | setMarkerAdvances marker advances =>
      rw [after, Op.act, Act.run_quietly]
      exact .of_moves (Act.moves_setMarkerAdvances h marker advances)
  | makeOverlay view p q front rear =>
      rw [after, Op.act, Act.run_map]
      exact .of_moves (Act.moves_makeOverlay h view p q front rear)
  | overlayPut overlay key value =>
      rw [after, Op.act, Act.run_map]
      exact .of_moves (Act.moves_overlayPut h overlay key value)
  | overlayRemove overlay key =>
      rw [after, Op.act, Act.run_map]
      exact .of_moves (Act.moves_overlayRemove h overlay key)
  | deleteOverlay overlay =>
      rw [after, Op.act, Act.run_quietly]
      exact .of_moves (Act.moves_deleteOverlay h overlay)
  | deleteAllOverlays view =>
      rw [after, Op.act, Act.run_quietly]
      exact .of_moves (Act.moves_deleteAllOverlays h view)
  | moveOverlay overlay view p q =>
      rw [after, Op.act, Act.run_quietly]
      exact .of_moves (Act.moves_moveOverlay h overlay view p q)
  | closeGroup view =>
      rw [after, Op.act, Act.run_quietly]
      exact Act.leads_changeLog h view fun _ => .boundary
  | noteProperty view pos length key value =>
      rw [after, Op.act, Act.run_quietly]
      exact Act.leads_noteProperty h view pos length key value
  | disableUndo view =>
      rw [after, Op.act, Act.run_quietly]
      exact Act.leads_changeLog h view fun _ => .disable
  | enableUndo view =>
      rw [after, Op.act, Act.run_quietly]
      exact Act.leads_changeLog h view fun _ => .enable
  | clearUndo view =>
      rw [after, Op.act, Act.run_quietly]
      exact Act.leads_changeLog h view fun _ => .clear
  | undo view => exact absurd rfl (ho view)
  | truncateUndo view =>
      rw [after, Op.act, Act.run_map]
      obtain ⟨marks, hn, -, hmoves, -⟩ := Act.moves_truncateUndo h view
      exact ⟨marks, hn, hmoves⟩
  | reclaim =>
      rw [after, Op.act, Act.run_map]
      exact Act.leads_reclaim h
  | setLimits soft strong outer handler =>
      rw [after, Op.act, Act.run_bind, Act.run_give]
      cases Limits.ofNumbers soft strong outer handler with
      | error e => exact .refl s
      | ok limits => exact .of_move (.setLimits s limits)
  | setHandler handler => exact .of_move (.setLimits s { s.editor.limits with handler := handler })
  | fileLockState view =>
      apply Leads.of_eq
      rw [after, Op.act, Act.run_map, Act.fileLockState, Act.run_bind, Act.run_ask]
      cases s.editor.visitedFile view with
      | error e => rfl
      | ok file =>
          simp only [Act.run_bind, Act.run_get]
          split <;> rfl
  | refuseReadOnly view => exact .of_eq (by rw [after, Op.act, Act.run_quietly, Act.run_ask])
  | nameOf view =>
      apply Leads.of_eq
      rw [after, Op.act, Act.run_bind, Act.run_ask]
      cases s.editor.nameOf view <;> rfl
  | isLive _ => exact .refl s
  | viewList => exact .refl s
  | rootList => exact .refl s
  | viewNamed _ => exact .refl s
  | current => exact .refl s
  | viewVisiting _ => exact .refl s
  | limits => exact .refl s
  | _ => exact .of_eq (by rw [after, Op.act, Act.run_map, Act.run_ask])

end Editing
