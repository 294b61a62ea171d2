import Editing.Proofs.Session.Changing

/-!
# Acts as sequences of moves

What an act on views, texts or files does is a sequence of moves, and no text or log is touched
twice on the way. This holds whether the act succeeds or fails.
-/

namespace Editing

namespace Act

variable {s : Session} {view root : ViewId} {v : View} {d : Document}

/-! ## Views -/

theorem leads_createRoot (name : String) (s : Session) : s.Leads ((createRoot name).run s).2 :=
  .of_move (.addRoot s name)

theorem moves_createIndirect (base : ViewId) (name : String) (s : Session) :
    Session.Moves [] s ((createIndirect base name).run s).2 := by
  simp only [createIndirect, run_bind, run_get]
  cases hv : s.editor.views.get? base with
  | none => exact .refl s
  | some v =>
      simp only
      cases hb : v.base with
      | some root => exact .refl s
      | none =>
          simp only [Option.isSome_none, Bool.false_eq_true, if_false, run_bind, run_ask]
          cases s.editor.document base with
          | error e => exact .refl s
          | ok d => exact .of_quiet (.addIndirect hv hb name)

theorem moves_removeAll {xs : List (ViewId × ViewMarkers)} (hn : (xs.map Prod.fst).Nodup)
    (hxs : ∀ x ∈ xs, ∃ v, s.editor.views.get? x.1 = some v ∧ v.base = some root ∧ v.markers = x.2) :
    Session.Moves [] s
      (s.edit fun e => xs.foldl (fun e x => e.removeIndirect x.1 root x.2) e) := by
  induction xs generalizing s with
  | nil => exact .refl s
  | cons x xs ih =>
      obtain ⟨v, hv, hb, hm⟩ := hxs x List.mem_cons_self
      obtain ⟨hx, hn⟩ := List.nodup_cons.mp hn
      have hfirst : Session.Moves [] s (s.edit (·.removeIndirect x.1 root x.2)) :=
        hm ▸ .of_quiet (.removeIndirect hv hb)
      refine hfirst.trans (ih hn fun y hy => ?_)
      obtain ⟨w, hw, hwb, hwm⟩ := hxs y (List.mem_cons_of_mem x hy)
      have hne : y.1 ≠ x.1 := fun hyx => hx (List.mem_map.mpr ⟨y, hy, hyx⟩)
      exact ⟨w, Editor.views_removeView.mpr ⟨hne, hw⟩, hwb, hwm⟩

theorem views_removeAll (xs : List (ViewId × ViewMarkers)) (e : Editor) (w : ViewId) (v : View) :
    (xs.foldl (fun e x => e.removeIndirect x.1 root x.2) e).views.get? w = some v ↔
      e.views.get? w = some v ∧ w ∉ xs.map Prod.fst := by
  induction xs generalizing e with
  | nil => simp
  | cons x xs ih =>
      rw [List.foldl_cons, ih, show (e.removeIndirect x.1 root x.2).views = (e.removeView x.1).views
        from rfl, Editor.views_removeView]
      simp only [List.map_cons, List.mem_cons, not_or]
      constructor
      · rintro ⟨⟨hne, hw⟩, hout⟩
        exact ⟨hw, hne, hout⟩
      · rintro ⟨hw, hne, hout⟩
        exact ⟨⟨hne, hw⟩, hout⟩

/-- The document of the root that the views are indirect to loses nothing but markers. -/
theorem document_removeAll (xs : List (ViewId × ViewMarkers)) {e : Editor} {d : Document}
    (hd : e.documents.get? root = some d) :
    ∃ c, (xs.foldl (fun e x => e.removeIndirect x.1 root x.2) e).documents.get? root = some c ∧
      c.unmarked = d.unmarked := by
  induction xs generalizing e d with
  | nil => exact ⟨d, hd, rfl⟩
  | cons x xs ih =>
      have hfirst : ∃ c, (e.removeIndirect x.1 root x.2).documents.get? root = some c ∧
          c.unmarked = d.unmarked := by
        rw [Editor.removeIndirect, Table.get?_modify, if_pos rfl,
          show (e.removeView x.1).documents = e.documents from rfl, hd]
        exact ⟨_, rfl, rfl⟩
      obtain ⟨c, hc, hcd⟩ := hfirst
      obtain ⟨b, hb, hbc⟩ := ih hc
      exact ⟨b, hb, hbc.trans hcd⟩

theorem mem_indirectTo {e : Editor} {x : ViewId × ViewMarkers} :
    x ∈ e.indirectTo root ↔ ∃ v, e.views.get? x.1 = some v ∧ v.base = some root ∧
    v.markers = x.2 := by
  rw [Editor.indirectTo, List.mem_map]
  constructor
  · rintro ⟨⟨w, v⟩, hmem, rfl⟩
    obtain ⟨hmem, hb⟩ := List.mem_filter.mp hmem
    exact ⟨v, Table.mem_entries.mp hmem, by simpa using hb, rfl⟩
  · rintro ⟨v, hv, hb, hm⟩
    refine ⟨(x.1, v), List.mem_filter.mpr ⟨Table.mem_entries.mpr hv, by simp [hb]⟩, ?_⟩
    rw [hm]

theorem nodup_indirectTo (e : Editor) (root : ViewId) :
    ((e.indirectTo root).map Prod.fst).Nodup := by
  rw [Editor.indirectTo, List.map_map]
  have hkeys : e.views.keys.Nodup := e.views.keys_ascending.imp Nat.ne_of_lt
  exact List.Sublist.nodup (List.Sublist.map _ List.filter_sublist) hkeys

theorem moves_kill (h : s.editor.WellFormed) (view : ViewId) :
    Session.Moves [] s ((kill view).run s).2 := by
  rcases h.registry.dead_or_shows view with hdead | ⟨v, root, d, hs⟩
  · rw [kill, run_ask_bind_error (Editor.view_of_dead hdead)]
    exact .refl s
  · rw [kill, run_ask_bind hs.view_eq, run_ask_bind hs.document_eq]
    cases hb : v.base with
    | some root => exact .of_quiet (.removeIndirect hs.live hb)
    | none =>
        simp only [run_bind, run_change, run_unlockIf]
        have hmoves : Session.Moves [] s (s.edit (·.removeIndirects view)) :=
          moves_removeAll (nodup_indirectTo s.editor view) fun x hx => mem_indirectTo.mp hx
        obtain rfl : view = root := by
          have hroot := hs.root_eq
          rwa [hb, Option.getD_none] at hroot
        obtain ⟨c, hc, hcd⟩ := document_removeAll (s.editor.indirectTo view) hs.document
        refine hmoves.quiet (.removeRoot (v := v) ?_ hb ?_ hc hcd)
        · refine (views_removeAll _ _ _ _).mpr ⟨hs.live, fun hmem => ?_⟩
          obtain ⟨x, hx, hxv⟩ := List.mem_map.mp hmem
          obtain ⟨w, hw, hwb, -⟩ := mem_indirectTo.mp hx
          rw [hxv, hs.live] at hw
          rw [← Option.some.inj hw, hb] at hwb
          cases hwb
        · intro w x hx hxb
          obtain ⟨hx, hout⟩ := (views_removeAll _ _ _ _).mp hx
          exact hout (List.mem_map.mpr ⟨(w, x.markers), mem_indirectTo.mpr ⟨x, hx, hxb, rfl⟩, rfl⟩)

theorem run_setCurrent (view : ViewId) (s : Session) :
    (setCurrent view).run s =
      match s.editor.view view with
      | .ok _ => (.ok (), s.edit fun e => { e with current := some view })
      | .error e => (.error e, s) := by
  rw [setCurrent, run_bind, run_ask]
  cases s.editor.view view <;> rfl

theorem get?_of_view {e : Editor} (h : e.view view = .ok v) : e.views.get? view = some v := by
  unfold Editor.view at h
  split at h
  · cases h
    assumption
  · cases h

theorem moves_setCurrent (view : ViewId) (s : Session) :
    Session.Moves [] s ((setCurrent view).run s).2 := by
  rw [run_setCurrent]
  cases hv : s.editor.view view with
  | error e => exact .refl s
  | ok v => exact .of_quiet (.setCurrent (get?_of_view hv))

theorem moves_setReadOnly (view : ViewId) (readOnly : Bool) (s : Session) :
    Session.Moves [] s ((setReadOnly view readOnly).run s).2 := by
  cases hv : s.editor.views.get? view with
  | none =>
      rw [setReadOnly, changeView, run_ask_bind_error (Editor.view_of_dead hv)]
      exact .refl s
  | some v =>
      rw [setReadOnly, run_changeView hv]
      exact .of_quiet (.setReadOnly hv readOnly)

/-! ## The accessible part -/

theorem moves_goto (h : s.editor.WellFormed) (view : ViewId) (pos : Nat) :
    Session.Moves [] s ((goto view pos).run s).2 := by
  rcases h.registry.dead_or_shows view with hdead | ⟨v, root, d, hs⟩
  · rw [goto, run_ask_bind_error (Editor.view_of_dead hdead)]
    exact .refl s
  · have hseats := h.marking.seated view v root d hs
    have hle := Nat.le_trans hseats.low_le hseats.le_high
    rw [run_goto hs]
    exact .of_quiet (.goto hs (Position.le_clamp hle) (Position.clamp_le hle))

theorem moves_widen (h : s.editor.WellFormed) (view : ViewId) :
    Session.Moves [] s ((widen view).run s).2 := by
  rcases h.registry.dead_or_shows view with hdead | ⟨v, root, d, hs⟩
  · rw [widen, run_ask_bind_error (Editor.view_of_dead hdead)]
    exact .refl s
  · rw [run_widen hs]
    exact .of_quiet (.widen hs)

theorem moves_narrow (h : s.editor.WellFormed) (view : ViewId) (p q : Nat) :
    Session.Moves [] s ((narrow view p q).run s).2 := by
  rcases h.registry.dead_or_shows view with hdead | ⟨v, root, d, hs⟩
  · rw [narrow, run_ask_bind_error (Editor.view_of_dead hdead)]
    exact .refl s
  · rw [run_narrow hs]
    split
    · exact .refl s
    · rename_i hlt
      exact .of_quiet (.narrow hs (Position.ordered_fst_le p q) (Nat.le_of_not_lt hlt))

/-! ## Edits -/

theorem leads_revised (hs : s.editor.Shows view v root d) {c : Change}
    (hrange : c.rangeError d.length = none) (hgrant : s.hindered? root d c = none) :
    s.Leads (s.revised root d c) := by
  rw [Session.revised]
  split
  · exact .refl s
  · rename_i hvoid
    rw [Session.hindered?, if_neg hvoid] at hgrant
    exact .of_move (.change hs hrange (Bool.not_eq_true _ ▸ hvoid) hgrant)

theorem leads_makeChange (h : s.editor.WellFormed) (view : ViewId) (c : Change) :
    s.Leads ((makeChange view c).run s).2 := by
  rcases h.registry.dead_or_shows view with hdead | ⟨v, root, d, hs⟩
  · rw [makeChange, run_ask_bind_error (Editor.document_of_dead hdead)]
    exact .refl s
  · rcases makeChange_cases hs c with ⟨e, he⟩ | ⟨path, reason, he⟩ | ⟨hrange, hgrant, he⟩
    · rw [he]
      exact .refl s
    · rw [he]
      exact .of_move (.refused s root path)
    · rw [he]
      exact leads_revised hs hrange hgrant

theorem leads_insertRaw (h : s.editor.WellFormed) (view : ViewId) (pos : Nat) (text : Text) :
    s.Leads ((insertRaw view pos text).run s).2 := by
  rw [run_insertRaw]
  exact leads_makeChange h view _

theorem leads_deleteRaw (h : s.editor.WellFormed) (view : ViewId) (start stop : Nat) :
    s.Leads ((deleteRaw view start stop).run s).2 := by
  rcases h.registry.dead_or_shows view with hdead | ⟨v, root, d, hs⟩
  · rw [deleteRaw, run_ask_bind_error (Editor.document_of_dead hdead)]
    exact .refl s
  · rw [run_deleteRaw hs]
    exact leads_makeChange h view _

theorem leads_deleteRegion (h : s.editor.WellFormed) (view : ViewId) (p q : Nat) :
    s.Leads ((deleteRegion view p q).run s).2 := by
  rcases h.registry.dead_or_shows view with hdead | ⟨v, root, d, hs⟩
  · rw [deleteRegion, run_ask_bind_error (Editor.accessibleRange_of_dead hdead p q)]
    exact .refl s
  · rw [run_deleteRegion hs]
    split
    · exact .refl s
    · exact leads_deleteRaw h view _ _

theorem leads_erase (h : s.editor.WellFormed) (view : ViewId) :
    s.Leads ((erase view).run s).2 := by
  rcases h.registry.dead_or_shows view with hdead | ⟨v, root, d, hs⟩
  · rw [run_erase_of_dead hdead]
    exact .refl s
  · rw [run_erase hs]
    split
    · exact .refl s
    · have hwiden : Session.Moves [] s (s.widened root v) := .of_quiet (.widen hs)
      exact .quiet_left hwiden (leads_makeChange (hwiden.wellFormed h) view _)

theorem leads_noteProperty (h : s.editor.WellFormed) (view : ViewId) (pos length : Nat)
    (key : String) (value : Value) :
    s.Leads ((noteProperty view pos length key value).run s).2 := by
  rw [run_noteProperty]
  split
  · exact .refl s
  · exact leads_makeChange h view _

/-- Text inserted at point lies in the accessible part, up to its very end. -/
theorem extent_insert (hseats : d.Seats v.markers) (text : Text) :
    (d.insert (d.extent v.markers).point text).extent v.markers =
      { d.extent v.markers with high := (d.extent v.markers).high + text.length } := by
  have hlow := hseats.low_le
  have hhigh := hseats.le_high
  rw [(d.shifted_insert (d.extent v.markers).point text).extent_eq hseats]
  simp only [Position.afterInsert, Bool.false_eq_true, and_false, or_false, and_true]
  rw [if_neg (Nat.lt_irrefl _), if_neg (by omega), if_pos (by omega)]

theorem leads_insert (h : s.editor.WellFormed) (view : ViewId) (text : Text) :
    s.Leads ((insert view text).run s).2 := by
  rcases h.registry.dead_or_shows view with hdead | ⟨v, root, d, hs⟩
  · rw [insert, run_ask_bind_error (Editor.view_of_dead hdead)]
    exact .refl s
  · have hseats := h.marking.seated view v root d hs
    rw [run_insert hs hseats]
    rcases makeChange_cases hs (.insert (d.extent v.markers).point text) with
      ⟨e, he⟩ | ⟨path, reason, he⟩ | ⟨hrange, hgrant, he⟩
    · rw [he]
      exact .refl s
    · rw [he]
      exact .of_move (.refused s root path)
    · rw [he]
      have hrevised := Session.shows_revised (c := .insert (d.extent v.markers).point text) hs
      simp only [run_changeShown hrevised]
      refine (leads_revised hs hrange hgrant).quiet_right (.of_quiet (.goto hrevised ?_ ?_))
      · rw [Document.revised]
        split
        · exact Nat.le_trans hseats.low_le (Nat.le_add_right _ _)
        · change (Document.extent (d.insert _ text) v.markers).low ≤ _
          rw [extent_insert hseats]
          exact Nat.le_trans hseats.low_le (Nat.le_add_right _ _)
      · rw [Document.revised]
        split
        · rename_i hvoid
          have hnil : text.length = 0 := by
            rw [List.isEmpty_iff.mp (show text.isEmpty = true from hvoid), List.length_nil]
          rw [hnil]
          exact hseats.le_high
        · change _ ≤ (Document.extent (d.insert _ text) v.markers).high
          rw [extent_insert hseats]
          exact Nat.add_le_add_right hseats.le_high _

/-! ## Files -/

theorem moves_setUnmodified (h : s.editor.WellFormed) (view : ViewId) :
    Session.Moves [] s ((setUnmodified view).run s).2 := by
  rcases h.registry.dead_or_shows view with hdead | ⟨v, root, d, hs⟩
  · rw [setUnmodified, run_ask_bind_error (Editor.document_of_dead hdead)]
    exact .refl s
  · rw [setUnmodified, run_ask_bind hs.document_eq, run_ask_bind hs.rootOf_eq,
      run_bind_ok (run_changeDocument _ _ _), run_unlockIf]
    exact .of_quiet (.setUnmodified hs)

theorem moves_setVisitedFile (h : s.editor.WellFormed) (view : ViewId) (file : Option Path) :
    Session.Moves [] s ((setVisitedFile view file).run s).2 := by
  rcases h.registry.dead_or_shows view with hdead | ⟨v, root, d, hs⟩
  · rw [setVisitedFile, run_ask_bind_error (Editor.view_of_dead hdead)]
    exact .refl s
  · rw [setVisitedFile, run_ask_bind hs.view_eq]
    cases hb : v.base with
    | some root => exact .refl s
    | none =>
        obtain rfl : view = root := by
          have hroot := hs.root_eq
          rwa [hb, Option.getD_none] at hroot
        simp only [Option.isSome_none, Bool.false_eq_true, if_false]
        rw [run_ask_bind hs.document_eq]
        cases hfile : sameFile d.file file with
        | true => exact .refl s
        | false =>
            simp only [Bool.false_eq_true, if_false]
            cases hmod : d.isModified with
            | false =>
                simp only [run_bind, run_changeDocument, run_unlockIf]
                have hmove := Session.Move.setFile hs hfile fun hm =>
                    absurd (hmod ▸ hm) Bool.false_ne_true
                simp only [hmod] at hmove
                exact .of_quiet hmove
            | true =>
                cases file with
                | none =>
                    simp only [run_bind, run_changeDocument, run_unlockIf]
                    have hmove := Session.Move.setFile hs hfile fun _ path hp => nomatch hp
                    simp only [hmod] at hmove
                    exact .of_quiet hmove
                | some path =>
                    simp only [run_bind, run_lock]
                    cases hgrant : s.refusal? view path with
                    | some reason => exact .of_quiet (.refused s view path)
                    | none =>
                        simp only [run_changeDocument, run_unlockIf]
                        have hmove := Session.Move.setFile hs hfile fun _ path' hp => by
                          cases hp
                          exact hgrant
                        simp only [hmod] at hmove
                        exact .of_quiet hmove

end Act

end Editing
