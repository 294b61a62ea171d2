import Editing.Proofs.Session.Moments

/-!
# Undoing whatever is protected

An undo does not look at which views are read-only. So it does the same when no view is: the reply
and the calls are the same, and so is everything else but which views are read-only.
-/

namespace Editing

/-- The view, not read-only. -/
def View.cleared (v : View) : View := { v with readOnly := false }

namespace Session

/-- The session with its views changed. -/
def withViews (s : Session) (f : Table View → Table View) : Session :=
  s.edit fun e => { e with views := f e.views }

/-- The session after every live view has been made not read-only. -/
def cleared (s : Session) : Session :=
  s.afterAll (s.editor.viewList.map fun view => .setReadOnly view false)

variable {s : Session} {view root : ViewId} {v : View} {d : Document} {rs : List Record}

/-! ## Views with nothing protected -/

theorem withViews_congr {f g : Table View → Table View}
    (h : f s.editor.views = g s.editor.views) : s.withViews f = s.withViews g :=
  congrArg (fun views => s.withViews fun _ => views) h

theorem after_setReadOnly (h : s.editor.views.get? view = some v) (readOnly : Bool) :
    s.after (.setReadOnly view readOnly) =
      s.withViews (·.modify view fun v => { v with readOnly := readOnly }) := by
  rw [after, Op.act, Act.run_quietly, Act.setReadOnly, Act.run_changeView h]
  rfl

/-- Making views not read-only one after the other comes to making each of them so. -/
theorem afterAll_setReadOnly (s : Session) (views : List ViewId)
    (hlive : ∀ view ∈ views, ∃ v, s.editor.views.get? view = some v) :
    s.afterAll (views.map fun view => .setReadOnly view false) =
      s.withViews (·.mapEntries fun view v => if view ∈ views then v.cleared else v) := by
  induction views generalizing s with
  | nil =>
      refine (withViews_congr (f := id) (Table.ext_get? fun k => ?_) :)
      rw [Table.get?_mapEntries]
      simp
  | cons view views ih =>
      obtain ⟨v, hv⟩ := hlive view List.mem_cons_self
      have hfirst := after_setReadOnly hv false
      have hlater : ∀ k ∈ views, ∃ w,
          (s.after (.setReadOnly view false)).editor.views.get? k = some w := by
        intro k hk
        obtain ⟨w, hw⟩ := hlive k (List.mem_cons_of_mem view hk)
        rw [hfirst, withViews, editor_edit, Table.get?_modify, hw]
        split
        · exact ⟨_, rfl⟩
        · exact ⟨_, rfl⟩
      refine (ih _ hlater).trans ?_
      rw [hfirst]
      refine (withViews_congr (s := s) (f := fun t => (t.modify view View.cleared).mapEntries
        fun k v => if k ∈ views then v.cleared else v) (Table.ext_get? fun k => ?_) :)
      simp only [Table.get?_mapEntries, Table.get?_modify, List.mem_cons]
      by_cases hk : k = view
      · rw [if_pos hk, Option.map_map]
        refine congrArg (fun f => Option.map f _) (funext fun v => ?_)
        rw [if_pos (Or.inl hk), Function.comp_apply]
        split
        · rfl
        · rfl
      · rw [if_neg hk]
        simp only [hk, false_or]

theorem cleared_eq (s : Session) : s.cleared = s.withViews (·.map View.cleared) := by
  refine (afterAll_setReadOnly s _ fun view hview => Table.mem_keys.mp hview).trans
    (withViews_congr (Table.ext_get? fun k => ?_))
  rw [Table.get?_mapEntries, Table.get?_map]
  cases hk : s.editor.views.get? k with
  | none => rfl
  | some v =>
      have hmem : k ∈ s.editor.views.keys := Table.mem_keys.mpr ⟨v, hk⟩
      rw [Option.map_some, Option.map_some, if_pos hmem]

/-! ## Undo -/

theorem shows_cleared (hs : s.editor.Shows view v root d) :
    s.cleared.editor.Shows view v.cleared root d := by
  rw [cleared_eq]
  exact ⟨(Table.get?_map _ _ _).trans (congrArg _ hs.live), hs.root_eq, hs.document⟩

theorem revised_withViews (s : Session) (f : Table View → Table View) (root : ViewId)
    (d : Document) (c : Change) :
    (s.withViews f).revised root d c = (s.revised root d c).withViews f := by
  have hprepared : (s.withViews f).prepared root d = (s.prepared root d).withViews f := by
    rw [prepared, prepared]
    cases d.wanted with
    | none => rfl
    | some path =>
        exact congrArg (fun t : Session => t.onDocument root _) (granted_edit s _ root path)
  have hannounced : ∀ t : Session,
      (t.withViews f).announced root d = (t.announced root d).withViews f := by
    intro t
    rw [announced, announced]
    split <;> rfl
  rw [revised, revised]
  split
  · rfl
  · rw [changed, changed, hprepared, hannounced]
    rfl

theorem replayed_withViews (s : Session) (f : Table View → Table View) (root : ViewId)
    (v : View) (d : Document) (r : Record) :
    (s.withViews f).replayed root v.cleared d r = (s.replayed root v d r).withViews f := by
  cases r with
  | insert pos n =>
      rw [replayed, replayed, revised_withViews]
      rfl
  | delete pos text as =>
      rw [replayed, replayed, revised_withViews]
      rfl
  | property start stop key value => rfl
  | boundary => rfl

theorem parallel_withViews (view : ViewId) (v : View) (root : ViewId)
    (f : Table View → Table View) :
    Parallel view v view v.cleared root fun s d t c => t = s.withViews f ∧ c = d where
  hidden := by
    rintro s _ d _ ⟨rfl, rfl⟩ r
    rfl
  hindered := by
    rintro s _ d _ ⟨rfl, rfl⟩
    rfl
  called := by
    rintro s _ d _ ⟨rfl, rfl⟩ call
    exact ⟨rfl, rfl⟩
  replayed := by
    rintro s _ d _ r rs ⟨rfl, rfl⟩ - - -
    exact ⟨replayed_withViews s f root v _ r, rfl⟩

theorem Reachable.cleared (h : s.Reachable) : s.cleared.Reachable :=
  h.afterAll _

/-- An undo does the same when no view is read-only. -/
theorem Reachable.undo_cleared (h : s.Reachable) (view : ViewId) :
    (Act.undo view).run s.cleared =
      (((Act.undo view).run s).1, ((Act.undo view).run s).2.cleared) := by
  have hw := h.atRest.wellFormed
  have hw' := h.cleared.atRest.wellFormed
  rcases hw.registry.dead_or_shows view with hdead | ⟨v, root, d, hs⟩
  · have hdead' : s.cleared.editor.views.get? view = none := by
      rw [cleared_eq]
      exact (Table.get?_map _ _ _).trans (congrArg _ hdead)
    rw [Act.run_undo_of_dead hdead, Act.run_undo_of_dead hdead']
  · have hs' := shows_cleared hs
    rw [cleared_eq] at hw' hs'
    obtain ⟨r, g, t, _, _, _, ⟨rfl, -⟩, hrun, hrun'⟩ :=
      (parallel_withViews view v root (·.map View.cleared)).run_undo hw hw' hs hs' rfl
        ⟨rfl, rfl⟩ ⟨rfl, rfl⟩
    rw [cleared_eq, cleared_eq, hrun, hrun']
    rfl

end Session

end Editing
