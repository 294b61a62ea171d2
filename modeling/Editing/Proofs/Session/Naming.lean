import Editing.Proofs.Session.Lasting
import Mathlib.Data.List.Nodup
import Mathlib.Data.List.Perm.Subperm

/-!
# Names of views

A new view gets the first name that no live view has, of the name asked for and those that add a
number to it. There are more of these to try than there are views, so that one of them is free, and
no two live views ever have the same name.
-/

namespace Editing

namespace Editor

variable {e e' : Editor} {view : ViewId} {v : View}

/-! ## Names to try -/

/-- The name to try when a number of others have been tried. -/
def candidate (name : String) : Nat → String
  | 0 => name
  | n + 1 => name ++ "<" ++ toString (n + 2) ++ ">"

theorem candidates_eq (name : String) (count : Nat) :
    candidates name count = (List.range (count + 1)).map (candidate name) := by
  rw [candidates, List.range_succ_eq_map, List.map_cons, List.map_map]
  rfl

theorem toList_candidate_succ (name : String) (n : Nat) :
    (candidate name (n + 1)).toList =
      name.toList ++ ('<' :: (Nat.toDigits 10 (n + 2) ++ ['>'])) := by
  simp [candidate]

theorem candidate_injective (name : String) : Function.Injective (candidate name) := by
  intro m n h
  have hlist := congrArg String.toList h
  cases m with
  | zero =>
      cases n with
      | zero => rfl
      | succ n =>
          rw [toList_candidate_succ] at hlist
          exact absurd (List.self_eq_append_right.mp hlist) (List.cons_ne_nil _ _)
  | succ m =>
      cases n with
      | zero =>
          rw [toList_candidate_succ] at hlist
          exact absurd (List.append_right_eq_self.mp hlist) (List.cons_ne_nil _ _)
      | succ n =>
          rw [toList_candidate_succ, toList_candidate_succ] at hlist
          have hdigits := List.append_cancel_right (List.cons.inj (List.append_cancel_left hlist)).2
          have hvalue := congrArg (Nat.ofDigitChars 10 · 0) hdigits
          simpa using hvalue

/-! ## Free names -/

theorem viewNamed_eq_none {name : String} :
    e.viewNamed name = none ↔ ∀ view v, e.views.get? view = some v → v.name ≠ name := by
  rw [viewNamed, Option.map_eq_none_iff, List.find?_eq_none]
  constructor
  · intro h view v hv heq
    exact h (view, v) (Table.mem_entries.mpr hv) (by simpa using heq)
  · rintro h ⟨view, v⟩ hmem heq
    exact h view v (Table.mem_entries.mp hmem) (by simpa using heq)

/-- Of more names than there are views, one is free. -/
theorem exists_free (e : Editor) (name : String) :
    ∃ n < e.views.size + 1, e.viewNamed (candidate name n) = none := by
  by_contra hnone
  have htaken : ∀ n < e.views.size + 1, candidate name n ∈ e.views.values.map View.name := by
    intro n hn
    by_contra hfree
    refine hnone ⟨n, hn, viewNamed_eq_none.mpr fun view v hv heq => hfree ?_⟩
    rw [← heq]
    exact List.mem_map_of_mem (List.mem_map.mpr ⟨(view, v), Table.mem_entries.mpr hv, rfl⟩)
  have hdistinct : ((List.range (e.views.size + 1)).map (candidate name)).Nodup :=
    List.nodup_range.map (candidate_injective name)
  have hsubset : (List.range (e.views.size + 1)).map (candidate name) ⊆
      e.views.values.map View.name := by
    intro c hc
    obtain ⟨n, hn, rfl⟩ := List.mem_map.mp hc
    exact htaken n (List.mem_range.mp hn)
  have hlength := (hdistinct.subperm hsubset).length_le
  simp only [List.length_map, List.length_range, Table.values] at hlength
  exact absurd hlength (Nat.not_succ_le_self _)

/-- The search for a free name ends with the first one. -/
theorem freeName_eq (e : Editor) (name : String) :
    ∃ n, e.freeName name = candidate name n ∧ e.viewNamed (candidate name n) = none ∧
      ∀ m < n, e.viewNamed (candidate name m) ≠ none := by
  obtain ⟨k, hk, hfree⟩ := e.exists_free name
  have hsearch : ((List.range (e.views.size + 1)).find? fun n =>
      (e.viewNamed (candidate name n)).isNone).isSome := by
    rw [List.find?_isSome]
    exact ⟨k, List.mem_range.mpr hk, by rw [hfree]; rfl⟩
  obtain ⟨n, hn⟩ := Option.isSome_iff_exists.mp hsearch
  obtain ⟨hnone, -, hearlier⟩ := List.find?_range_eq_some.mp hn
  refine ⟨n, ?_, Option.isNone_iff_eq_none.mp hnone, fun m hm hnone => ?_⟩
  · rw [freeName, candidates_eq, List.find?_map]
    exact congrArg (fun found => (Option.map (candidate name) found).getD name) hn
  · have htaken := hearlier m hm
    rw [hnone] at htaken
    cases htaken

theorem freeName_free (e : Editor) (name : String) : e.viewNamed (e.freeName name) = none := by
  obtain ⟨n, heq, hfree, -⟩ := e.freeName_eq name
  rw [heq, hfree]

/-- No two live views have the same name. -/
def Named (e : Editor) : Prop :=
  ∀ view v view' v', e.views.get? view = some v → e.views.get? view' = some v' →
    v.name = v'.name → view = view'

/-- Every live view was there before with its name, base and markers, or has the next number and a
name that was free. -/
structure Peoples (e e' : Editor) : Prop where
  numbered : e.nextView ≤ e'.nextView
  descent : ∀ view v', e'.views.get? view = some v' →
    (∃ v, e.views.get? view = some v ∧ v'.name = v.name ∧ v'.base = v.base ∧
      v'.markers = v.markers) ∨
    view = e.nextView ∧ ∃ name, v'.name = e.freeName name

theorem peoples_of_views (hviews : e'.views = e.views) (hnext : e'.nextView = e.nextView) :
    e.Peoples e' where
  numbered := Nat.le_of_eq hnext.symm
  descent _ v hv := Or.inl ⟨v, hviews ▸ hv, rfl, rfl, rfl⟩

theorem peoples_addView {name : String} {base : Option ViewId}
    (hviews : e'.views = (e.addView name base).views) (hnext : e'.nextView = e.nextView + 1) :
    e.Peoples e' where
  numbered := hnext ▸ Nat.le_succ _
  descent view v hv := by
    rw [hviews, addView, Table.get?_insert] at hv
    split at hv
    · cases hv
      exact Or.inr ⟨‹_›, name, rfl⟩
    · exact Or.inl ⟨v, hv, rfl, rfl, rfl⟩

theorem peoples_removeView (hviews : e'.views = (e.removeView view).views)
    (hnext : e'.nextView = e.nextView) : e.Peoples e' where
  numbered := Nat.le_of_eq hnext.symm
  descent w v hv := by
    rw [hviews] at hv
    exact Or.inl ⟨v, (views_removeView.mp hv).2, rfl, rfl, rfl⟩

theorem Peoples.named (h : e.Peoples e') (hn : e.Named) : e'.Named := by
  -- An old view cannot have the name that was free for the new one.
  have hnew : ∀ {view view' : ViewId} {v v' : View} {name : String}, v.name = e.freeName name →
      e.views.get? view' = some v' → v.name = v'.name → view = view' := by
    intro view view' v v' name hname hv' heq
    exact absurd (heq.symm.trans hname) (viewNamed_eq_none.mp (e.freeName_free name) view' v' hv')
  intro view v view' v' hv hv' heq
  rcases h.descent view v hv with ⟨w, hw, hname, -⟩ | ⟨hview, name, hname⟩
  · rcases h.descent view' v' hv' with ⟨w', hw', hname', -⟩ | ⟨hview', name, hname'⟩
    · exact hn view w view' w' hw hw' (hname.symm.trans (heq.trans hname'))
    · exact (hnew hname' hw (heq.symm.trans hname)).symm
  · rcases h.descent view' v' hv' with ⟨w', hw', hname', -⟩ | ⟨hview', -⟩
    · exact hnew hname hw' (heq.trans hname')
    · rw [hview, hview']

end Editor

namespace Session

variable {s t : Session}

theorem Move.peoples {mark : Option ViewId} (hmove : Move mark s t) :
    s.editor.Peoples t.editor := by
  cases hmove with
  | setReadOnly hv readOnly =>
      refine ⟨Nat.le_refl _, fun view v hview => Or.inl ?_⟩
      rw [editor_edit, Table.get?_modify] at hview
      split at hview
      · obtain ⟨w, hw, rfl⟩ := Option.map_eq_some_iff.mp hview
        exact ⟨w, hw, rfl, rfl, rfl⟩
      · exact ⟨v, hview, rfl, rfl, rfl⟩
  | addRoot name => exact Editor.peoples_addView rfl rfl
  | addIndirect hv hb name => exact Editor.peoples_addView rfl rfl
  | removeIndirect hv hb => exact Editor.peoples_removeView rfl rfl
  | removeRoot hv hb halone hd hc =>
      rw [editor_edit, editor_unlocked]
      exact Editor.peoples_removeView rfl rfl
  | @change _ view root v d hs c hrange hvoid hgrant =>
      have hprepared : (s.prepared root d).editor.views = s.editor.views ∧
          (s.prepared root d).editor.nextView = s.editor.nextView := by
        rw [editor_prepared]
        split <;> exact ⟨rfl, rfl⟩
      rw [changed, onDocument_editor, editor_announced]
      exact Editor.peoples_of_views hprepared.1 hprepared.2
  | setUnmodified hs =>
      rw [editor_unlocked]
      exact Editor.peoples_of_views rfl rfl
  | setFile hs hfile hgrant =>
      rw [editor_unlocked, onDocument_editor]
      split
      · rw [editor_granted]
        exact Editor.peoples_of_views rfl rfl
      · exact Editor.peoples_of_views rfl rfl
  | placeMarker hu hs pos =>
      rw [rehomed, editor_edit, onDocument_editor, editor_lifted]
      exact Editor.peoples_of_views rfl rfl
  | detachMarker hu =>
      rw [rehomed, editor_edit, editor_lifted]
      exact Editor.peoples_of_views rfl rfl
  | setAdvances hu advances =>
      rw [editor_edit, editor_advancing]
      exact Editor.peoples_of_views rfl rfl
  | _ => exact Editor.peoples_of_views rfl rfl

theorem named_lasting : Lasting fun s => s.editor.Named where
  move _ hmove h := hmove.peoples.named h
  relog _ _ h := h

theorem fresh_named (limits : Limits) (locks : Option LockProtocol) :
    (fresh limits locks).editor.Named := by
  intro view v view' v' hv
  simp [fresh, start, Editor.empty] at hv

end Session

end Editing
