import Editing.Proofs.Session.Answering

/-!
# Properties of overlays

What the properties of an overlay are depends on nothing but the puts and removals that named it.
They are kept in the document that the overlay lies in, or with the overlay when it lies in none,
and go along wherever it is moved, deleted or left behind by a root that is killed.
-/

namespace Editing

/-! ## Histories -/

namespace PropertyList

/-- The entries once a value is put at a key: in place of the old one, or at the end when the key
is new. -/
def written (key : String) (value : Value) (es : List (String × Value)) : List (String × Value) :=
  if (es.lookup key).isSome then es.map fun e => if e.1 = key then (key, value) else e
  else es ++ [(key, value)]

/-- The entries but for the one at a key, in the same order. -/
def dropped (key : String) (es : List (String × Value)) : List (String × Value) :=
  es.filter fun e => e.1 != key

theorem find_eq_lookup (key : String) (es : List (String × Value)) :
    find key es = es.lookup key := by
  induction es with
  | nil => rfl
  | cons e es ih =>
      obtain ⟨k, value⟩ := e
      rw [find, List.lookup_cons, ih]
      by_cases hk : key = k
      · rw [if_pos hk, hk, beq_self_eq_true]
      · rw [if_neg hk, beq_eq_false_iff_ne.mpr hk]

theorem get?_eq_lookup (p : PropertyList) (key : String) : p.get? key = p.entries.lookup key :=
  find_eq_lookup key p.entries

theorem map_of_absent {key : String} {value : Value} {es : List (String × Value)}
    (h : key ∉ es.map Prod.fst) : (es.map fun e => if e.1 = key then (key, value) else e) = es := by
  induction es with
  | nil => rfl
  | cons e es ih =>
      rw [List.map_cons, List.mem_cons, not_or] at h
      rw [List.map_cons, if_neg (Ne.symm h.1), ih h.2]

/-- Writing over the first entry of a key is writing at the key, as no key occurs twice. -/
theorem putEntry_eq (key : String) (value : Value) {es : List (String × Value)}
    (h : (es.map Prod.fst).Nodup) : putEntry key value es = written key value es := by
  induction es with
  | nil => rfl
  | cons e es ih =>
      obtain ⟨k, old⟩ := e
      obtain ⟨hk, hes⟩ := List.nodup_cons.mp h
      rw [putEntry, written, List.lookup_cons]
      by_cases hkey : key = k
      · subst hkey
        rw [if_pos rfl, beq_self_eq_true, List.map_cons, if_pos rfl, map_of_absent hk]
        rfl
      · rw [if_neg hkey, beq_eq_false_iff_ne.mpr hkey, ih hes, written]
        by_cases hpresent : (es.lookup key).isSome
        · rw [if_pos hpresent, if_pos hpresent, List.map_cons, if_neg (Ne.symm hkey)]
        · rw [if_neg hpresent, if_neg hpresent]
          rfl

theorem eq_of_entries {p q : PropertyList} (h : p.entries = q.entries) : p = q := by
  cases p
  cases q
  cases h
  rfl

theorem entries_put (p : PropertyList) (key : String) (value : Value) :
    (p.put key value).entries = written key value p.entries := putEntry_eq key value p.distinct

theorem entries_remove (p : PropertyList) (key : String) :
    (p.remove key).entries = dropped key p.entries := rfl

end PropertyList

/-- What an operation with its answer does to the properties of an overlay. -/
def Op.rewrite (id : OverlayId) (es : List (String × Value)) :
    Op × Except Error Reply → List (String × Value)
  | (.overlayPut overlay key value, .ok _) =>
      if id = overlay then PropertyList.written key value es else es
  | (.overlayRemove overlay key, .ok _) =>
      if id = overlay then PropertyList.dropped key es else es
  | _ => es

/-- The properties that the puts and removals among the operations have given to an overlay. -/
def Session.history (id : OverlayId) (ops : List (Op × Except Error Reply)) :
    List (String × Value) :=
  ops.foldl (Op.rewrite id) []

theorem Op.rewrite_eq {o : Op} {id : OverlayId} (hput : ∀ key value, o ≠ .overlayPut id key value)
    (hremove : ∀ key, o ≠ .overlayRemove id key) (es : List (String × Value))
    (r : Except Error Reply) : rewrite id es (o, r) = es := by
  cases o with
  | overlayPut overlay key value =>
      have hid : id ≠ overlay := fun hid => hput key value (hid ▸ rfl)
      cases r with
      | error e => rfl
      | ok reply => exact if_neg hid
  | overlayRemove overlay key =>
      have hid : id ≠ overlay := fun hid => hremove key (hid ▸ rfl)
      cases r with
      | error e => rfl
      | ok reply => exact if_neg hid
  | _ => rfl

/-! ## Where properties are kept -/

namespace Editor

variable {e e' : Editor} {id overlay : OverlayId} {root : ViewId} {d : Document}
  {home : OverlayHome}

/-- The overlay as the document of a root holds it. -/
def lying (e : Editor) (root : ViewId) (id : OverlayId) : Option Overlay :=
  (e.documents.get? root).bind (·.overlays.get? id)

/-- The properties of an overlay, wherever it is; one that was never made has none. -/
def propertiesOf (e : Editor) (id : OverlayId) : List (String × Value) :=
  match e.overlayHomes.get? id with
  | none => []
  | some (.detached o) => o.properties.entries
  | some (.attached root) => (e.lying root id).elim [] (·.properties.entries)

theorem lying_eq (hd : e.documents.get? root = some d) (id : OverlayId) :
    e.lying root id = d.overlays.get? id := by
  rw [lying, hd, Option.bind_some]

theorem propertiesOf_detached {o : Overlay}
    (hh : e.overlayHomes.get? id = some (.detached o)) :
    e.propertiesOf id = o.properties.entries := by
  rw [propertiesOf, hh]

theorem propertiesOf_attached (hh : e.overlayHomes.get? id = some (.attached root)) :
    e.propertiesOf id = (e.lying root id).elim [] (·.properties.entries) := by
  rw [propertiesOf, hh]

/-- What neither takes an overlay home nor changes its properties where it lies. -/
theorem propertiesOf_congr (hhomes : e'.overlayHomes.get? id = e.overlayHomes.get? id)
    (hlying : ∀ root, e.overlayHomes.get? id = some (.attached root) →
      (e'.lying root id).map Overlay.properties = (e.lying root id).map Overlay.properties) :
    e'.propertiesOf id = e.propertiesOf id := by
  cases hh : e.overlayHomes.get? id with
  | none => rw [propertiesOf, propertiesOf, hhomes, hh]
  | some home =>
      cases home with
      | detached o => rw [propertiesOf_detached hh, propertiesOf_detached (hhomes.trans hh)]
      | attached root =>
          have hmap := congrArg (Option.elim · [] PropertyList.entries) (hlying root hh)
          rw [propertiesOf_attached hh, propertiesOf_attached (hhomes.trans hh)]
          cases hl : e.lying root id <;> cases hl' : e'.lying root id <;>
            simp_all only [Option.map_some, Option.map_none, Option.elim_some, Option.elim_none]

namespace Overlaying

theorem attached_properties (h : e.Overlaying) (hr : e.Registry)
    (hh : e.overlayHomes.get? id = some (.attached root)) :
    ∃ w d o, e.Shows root w root d ∧ e.attachedOverlay root id = .ok o ∧
      o.properties.entries = e.propertiesOf id := by
  obtain ⟨d, o, hd, ho⟩ := (h.attached id root).mp hh
  obtain ⟨w, hs, -⟩ := hr.shows_root hd
  refine ⟨w, d, o, hs, ?_, ?_⟩
  · rw [attachedOverlay, hs.document_eq]
    simp only [bind, Except.bind, ho]
    rfl
  · rw [propertiesOf_attached hh, lying_eq hd, ho, Option.elim_some]

/-- An overlay that has been made is found with the properties that are kept for it. -/
theorem overlay_properties (h : e.Overlaying) (hr : e.Registry)
    (hh : e.overlayHomes.get? id = some home) :
    ∃ o, e.overlay id = .ok o ∧ o.properties.entries = e.propertiesOf id := by
  rw [Editor.overlay, overlayHome_of_get hh]
  cases home with
  | detached o => exact ⟨o, rfl, (propertiesOf_detached hh).symm⟩
  | attached root =>
      obtain ⟨w, d, o, -, ho, hproperties⟩ := h.attached_properties hr hh
      exact ⟨o, ho, hproperties⟩

/-- All overlays of a document are detached, and keep their properties. -/
theorem propertiesOf_detachAll (h : e.Overlaying) (hd : e.documents.get? root = some d)
    (hhomes : e'.overlayHomes = OverlayHome.detachAll e.overlayHomes d.overlays)
    (hothers : ∀ r, r ≠ root → e'.documents.get? r = e.documents.get? r) (id : OverlayId) :
    e'.propertiesOf id = e.propertiesOf id := by
  have hhome := OverlayHome.get?_detachAll e.overlayHomes d.overlays id
  rw [← hhomes] at hhome
  cases ho : d.overlays.get? id with
  | some o =>
      rw [ho] at hhome
      rw [propertiesOf_detached hhome,
        propertiesOf_attached ((h.attached id root).mpr ⟨d, o, hd, ho⟩), lying_eq hd, ho,
        Option.elim_some]
  | none =>
      rw [ho] at hhome
      refine propertiesOf_congr hhome fun r hr => ?_
      have hne : r ≠ root := by
        rintro rfl
        obtain ⟨c, o, hc, hfound⟩ := (h.attached id r).mp hr
        obtain rfl := Option.some.inj (hd.symm.trans hc)
        rw [ho] at hfound
        cases hfound
      rw [lying, hothers r hne, lying]

end Overlaying

end Editor

namespace Session

variable {s t : Session} {id overlay : OverlayId} {root view : ViewId} {d : Document} {o : Overlay}

theorem propertiesOf_onDocument {f : Document → Document}
    (hf : ∀ d, ((f d).overlays.get? id).map Overlay.properties =
      (d.overlays.get? id).map Overlay.properties) :
    (s.onDocument root f).editor.propertiesOf id = s.editor.propertiesOf id := by
  refine Editor.propertiesOf_congr rfl fun r _ => ?_
  rw [Editor.lying, Editor.lying, get?_onDocument]
  split
  · cases s.editor.documents.get? r with
    | none => rfl
    | some d => exact hf d
  · rfl

theorem propertiesOf_overlaid_of_ne (h : id ≠ overlay) (home : OverlayHome) :
    (s.overlaid overlay home).editor.propertiesOf id = s.editor.propertiesOf id :=
  Editor.propertiesOf_congr (Table.get?_insert_of_ne _ _ h) fun _ _ => rfl

/-- An overlay that is at home in a root has the properties with which it is put there. -/
theorem propertiesOf_put (hh : s.editor.overlayHomes.get? overlay = some (.attached root))
    (hd : s.editor.documents.get? root = some d) (o : Overlay) :
    (s.onDocument root fun d => { d with overlays := d.overlays.insert overlay o }
      ).editor.propertiesOf id =
      if id = overlay then o.properties.entries else s.editor.propertiesOf id := by
  split
  · rename_i hid
    have hput := get?_onDocument_self (f := fun d =>
      { d with overlays := d.overlays.insert overlay o }) hd
    have hhome : (s.onDocument root fun d => { d with overlays := d.overlays.insert overlay o }
      ).editor.overlayHomes.get? overlay = some (.attached root) := hh
    rw [hid, Editor.propertiesOf_attached hhome, Editor.lying_eq hput, Table.get?_insert,
      if_pos rfl, Option.elim_some]
  · rename_i hid
    exact propertiesOf_onDocument fun d => by rw [Table.get?_insert_of_ne _ _ hid]

/-- An overlay that comes to a document has the properties with which it is put there. -/
theorem propertiesOf_placed (hd : s.editor.documents.get? root = some d) (o : Overlay) :
    ((s.onDocument root fun d => { d with overlays := d.overlays.insert overlay o }).overlaid
      overlay (.attached root)).editor.propertiesOf id =
      if id = overlay then o.properties.entries else s.editor.propertiesOf id := by
  have hhome : (s.overlaid overlay (.attached root)).editor.overlayHomes.get? overlay =
      some (.attached root) := (Table.get?_insert _ _ _ _).trans (if_pos rfl)
  refine (propertiesOf_put hhome hd o).trans ?_
  split
  · rfl
  · rename_i hid
    exact propertiesOf_overlaid_of_ne hid _

theorem propertiesOf_detached (s : Session) (id overlay : OverlayId) (o : Overlay) :
    (s.overlaid overlay (.detached o)).editor.propertiesOf id =
      if id = overlay then o.properties.entries else s.editor.propertiesOf id := by
  split
  · rename_i hid
    rw [hid]
    exact Editor.propertiesOf_detached ((Table.get?_insert _ _ _ _).trans (if_pos rfl))
  · rename_i hid
    exact propertiesOf_overlaid_of_ne hid _

/-- An overlay that is taken out of a document leaves the properties of the others as they are. -/
theorem propertiesOf_lifted (root : ViewId) (h : id ≠ overlay) :
    (s.onDocument root fun d => { d with overlays := d.overlays.erase overlay }
      ).editor.propertiesOf id = s.editor.propertiesOf id :=
  propertiesOf_onDocument fun d => by rw [Table.get?_erase_of_ne _ h]

end Session

/-! ## Acts on overlays -/

namespace Act

open Session

variable {s : Session} {id overlay : OverlayId} {view : ViewId}

/-- Changing the properties of an overlay changes those of no other one. -/
theorem run_changeProperties (h : s.editor.Overlaying) (hr : s.editor.Registry) {o : Overlay}
    (ho : s.editor.overlay overlay = .ok o) (f : PropertyList → PropertyList) :
    ∃ t, (changeProperties overlay f).run s = (.ok (), t) ∧ ∀ id, t.editor.propertiesOf id =
      if id = overlay then (f o.properties).entries else s.editor.propertiesOf id := by
  rw [changeProperties, run_ask_bind ho]
  cases hh : s.editor.overlayHomes.get? overlay with
  | none =>
      rw [Editor.overlay_of_unknown hh] at ho
      cases ho
  | some home =>
      rw [run_ask_bind (Editor.overlayHome_of_get hh)]
      cases home with
      | detached _ => exact ⟨_, rfl, fun id => propertiesOf_detached s id overlay _⟩
      | attached root =>
          obtain ⟨w, d, -, hs, -⟩ := h.attachedOverlay_eq hr hh
          exact ⟨_, run_changeShown hs _, fun id => propertiesOf_put hh hs.document _⟩

/-- Gives the value at a key of an overlay, whose properties are changed then. -/
def rewriteProperties (overlay : OverlayId) (key : String) (f : PropertyList → PropertyList) :
    Act (Option Value) := do
  let old ← ask (·.overlayGet overlay key)
  changeProperties overlay f
  return old

/-- Properties are changed of the overlays that have been made, and the others are refused. -/
theorem rewriteProperties_cases (h : s.editor.Overlaying) (hr : s.editor.Registry)
    (overlay : OverlayId) (key : String) (f : PropertyList → PropertyList) :
    (s.editor.overlayHomes.get? overlay = none ∧
      (rewriteProperties overlay key f).run s = (.error (.notOverlay overlay), s)) ∨
    ∃ (p : PropertyList) (t : Session), p.entries = s.editor.propertiesOf overlay ∧
      (rewriteProperties overlay key f).run s = (.ok (p.entries.lookup key), t) ∧
      ∀ id, t.editor.propertiesOf id =
        if id = overlay then (f p).entries else s.editor.propertiesOf id := by
  unfold rewriteProperties
  cases hh : s.editor.overlayHomes.get? overlay with
  | none =>
      have hget : s.editor.overlayGet overlay key = .error (.notOverlay overlay) := by
        rw [Editor.overlayGet, Editor.overlay_of_unknown hh]
        rfl
      exact Or.inl ⟨rfl, run_ask_bind_error hget _⟩
  | some home =>
      obtain ⟨o, ho, hproperties⟩ := h.overlay_properties hr hh
      obtain ⟨t, hrun, hothers⟩ := run_changeProperties h hr ho f
      have hget : s.editor.overlayGet overlay key = .ok (o.properties.entries.lookup key) := by
        rw [Editor.overlayGet, ho, ← o.properties.get?_eq_lookup]
        rfl
      refine Or.inr ⟨o.properties, t, hproperties, ?_, hothers⟩
      rw [run_ask_bind hget, run_bind_ok hrun, run_pure]

theorem propertiesOf_createRoot (h : s.editor.Overlaying) (hr : s.editor.Registry)
    (name : String) :
    (s.after (.createRoot name)).editor.propertiesOf id = s.editor.propertiesOf id := by
  refine Editor.propertiesOf_congr rfl fun root hroot => ?_
  obtain ⟨d, o, hd, -⟩ := (h.attached id root).mp hroot
  have hkept : (s.after (.createRoot name)).editor.documents.get? root =
      s.editor.documents.get? root :=
    Table.get?_insert_of_ne _ _ (Nat.ne_of_lt (hr.document_lt hd))
  rw [Editor.lying, hkept, Editor.lying]

theorem propertiesOf_makeOverlay (h : s.editor.Overlaying) (hr : s.editor.Registry)
    (p q : Nat) (front rear : Bool) :
    (s.after (.makeOverlay view p q front rear)).editor.propertiesOf id =
      s.editor.propertiesOf id := by
  rw [after, Op.act, run_map, makeOverlay]
  rcases hr.dead_or_shows view with hdead | ⟨v, root, d, hs⟩
  · rw [run_ask_bind_error (Editor.rootOf_of_dead hdead)]
  · obtain ⟨w, hw, -⟩ := hr.shows_root hs.document
    rw [run_ask_bind hs.rootOf_eq, run_ask_bind hw.document_eq]
    refine (propertiesOf_placed hs.document _).trans ?_
    split
    · rename_i hid
      have hnew : s.editor.overlayHomes.get? id = none := by
        cases hh : s.editor.overlayHomes.get? id with
        | none => rfl
        | some home => exact absurd ((h.numbered id).mp ⟨home, hh⟩) (hid ▸ Nat.lt_irrefl _)
      rw [Editor.propertiesOf, hnew]
      rfl
    · rfl

theorem propertiesOf_deleteOverlay (h : s.editor.Overlaying) (hr : s.editor.Registry)
    (overlay : OverlayId) :
    (s.after (.deleteOverlay overlay)).editor.propertiesOf id = s.editor.propertiesOf id := by
  rw [after, Op.act, run_quietly, deleteOverlay]
  cases hh : s.editor.overlayHomes.get? overlay with
  | none => rw [run_ask_bind_error (Editor.overlayHome_of_unknown hh)]
  | some home =>
      rw [run_ask_bind (Editor.overlayHome_of_get hh)]
      cases home with
      | detached _ => rfl
      | attached root =>
          obtain ⟨w, d, o, hs, ho, hproperties⟩ := h.attached_properties hr hh
          rw [run_ask_bind ho, run_bind_ok (run_changeShown hs _)]
          refine (propertiesOf_detached _ id overlay o).trans ?_
          split
          · rename_i hid
            rw [hid, hproperties]
          · rename_i hid
            exact propertiesOf_lifted root hid

theorem propertiesOf_deleteAllOverlays (h : s.editor.Overlaying) (hr : s.editor.Registry)
    (view : ViewId) :
    (s.after (.deleteAllOverlays view)).editor.propertiesOf id = s.editor.propertiesOf id := by
  rw [after, Op.act, run_quietly, deleteAllOverlays]
  rcases hr.dead_or_shows view with hdead | ⟨v, root, d, hs⟩
  · rw [run_ask_bind_error (Editor.document_of_dead hdead)]
  · rw [run_ask_bind hs.document_eq, run_bind_ok (run_changeShown hs _)]
    refine h.propertiesOf_detachAll hs.document ?_ (fun r hne => ?_) id
    · rfl
    · exact get?_onDocument_of_ne s hne _

/-- What is left of a document when an overlay has been taken from where it is. -/
theorem run_liftOverlay (h : s.editor.Overlaying) (hr : s.editor.Registry) {home : OverlayHome}
    (hh : s.editor.overlayHomes.get? overlay = some home) :
    ∃ o t, (liftOverlay overlay home).run s = (.ok o, t) ∧
      o.properties.entries = s.editor.propertiesOf overlay ∧
      (∀ id, id ≠ overlay → t.editor.propertiesOf id = s.editor.propertiesOf id) ∧
      ∀ {view : ViewId} {v : View} {root : ViewId} {d : Document},
        s.editor.Shows view v root d → ∃ c, t.editor.Shows view v root c := by
  cases home with
  | detached o =>
      exact ⟨o, s, rfl, (Editor.propertiesOf_detached hh).symm, fun _ _ => rfl,
        fun hs => ⟨_, hs⟩⟩
  | attached root =>
      obtain ⟨w, d, o, hs, ho, hproperties⟩ := h.attached_properties hr hh
      refine ⟨o, _, ?_, hproperties, fun id hid => propertiesOf_lifted root hid,
        fun hs => ⟨_, shows_onDocument hs root _⟩⟩
      rw [liftOverlay, run_ask_bind ho, run_bind_ok (run_changeShown hs _), run_pure]

theorem propertiesOf_moveOverlay (h : s.editor.Overlaying) (hr : s.editor.Registry)
    (overlay : OverlayId) (view : ViewId) (p q : Nat) :
    (s.after (.moveOverlay overlay view p q)).editor.propertiesOf id =
      s.editor.propertiesOf id := by
  rw [after, Op.act, run_quietly, moveOverlay]
  rcases hr.dead_or_shows view with hdead | ⟨v, root, d, hs⟩
  · rw [run_ask_bind_error (Editor.rootOf_of_dead hdead)]
  · obtain ⟨w, hw, -⟩ := hr.shows_root hs.document
    rw [run_ask_bind hs.rootOf_eq]
    cases hh : s.editor.overlayHomes.get? overlay with
    | none => rw [run_ask_bind_error (Editor.overlayHome_of_unknown hh)]
    | some home =>
        obtain ⟨o, t, hrun, hproperties, hothers, hshows⟩ := run_liftOverlay h hr hh
        obtain ⟨c, hc⟩ := hshows hw
        rw [run_ask_bind (Editor.overlayHome_of_get hh), run_bind_ok hrun,
          run_ask_bind hc.document_eq]
        refine (propertiesOf_placed hc.document _).trans ?_
        split
        · rename_i hid
          rw [hid, ← hproperties]
          rfl
        · rename_i hid
          exact hothers id hid

theorem propertiesOf_apply (d : Document) (c : Change) (id : OverlayId) :
    ((d.apply c).overlays.get? id).map Overlay.properties =
      (d.overlays.get? id).map Overlay.properties := by
  cases c with
  | insert pos text => exact (congrArg _ (Table.get?_map _ _ _)).trans (Option.map_map _ _ _)
  | delete start stop => exact (congrArg _ (Table.get?_map _ _ _)).trans (Option.map_map _ _ _)
  | property start stop key value => rfl

instance frame_propertiesOf (id : OverlayId) :
    Frame (Editor.Within (Editor.Same (·.propertiesOf id)))
      fun a => a ≠ .rehouse ∧ a ≠ .makeRoot ∧ a ≠ .makeOverlay where
  trans h h' := Eq.trans h' h
  besides {s t} hdocuments hhomes _ _ := by
    refine Editor.propertiesOf_congr (by rw [hhomes]) fun root _ => ?_
    rw [Editor.lying, Editor.lying, hdocuments]
  plain := by simp
  call _ _ _ _ := rfl
  amend := by
    intro a ha s root f hf
    refine propertiesOf_onDocument fun d => ?_
    have hfd := hf d
    generalize f d = c at hfd
    cases hfd with
    | apply d c => exact propertiesOf_apply d c id
    | overlay d os => exact absurd rfl ha.1
    | made d os => exact absurd rfl ha.2.2
    | _ => rfl
  erase h := absurd rfl h.1
  rehouse h := absurd rfl h.1
  makeRoot h := absurd rfl h.2.1
  makeIndirect _ s base place name := by
    exact propertiesOf_onDocument (f := fun d => d.addView s.editor.nextMarkers (d.extent place))
      fun d => rfl
  makeMarker _ _ _ _ := rfl
  makeOverlay h := absurd rfl h.2.2

/-- A root that is killed leaves its overlays behind with their properties. -/
theorem propertiesOf_kill (h : s.editor.Overlaying) (hw : s.editor.WellFormed) (view : ViewId) :
    (s.after (.kill view)).editor.propertiesOf id = s.editor.propertiesOf id := by
  rw [after, Op.act, run_quietly, kill]
  rcases hw.registry.dead_or_shows view with hdead | ⟨v, root, d, hs⟩
  · rw [run_ask_bind_error (Editor.view_of_dead hdead)]
  · rw [run_ask_bind hs.view_eq, run_ask_bind hs.document_eq]
    cases hb : v.base with
    | some base =>
        exact Respects.removeIndirect (R := Editor.Within (Editor.Same (·.propertiesOf id))) s view
          base v.markers
    | none =>
        obtain rfl : view = root := by
          have hroot := hs.root_eq
          rwa [hb, Option.getD_none] at hroot
        have hmoves : Moves [] s (s.edit (·.removeIndirects view)) :=
          moves_removeAll (nodup_indirectTo s.editor view) fun x hx => mem_indirectTo.mp hx
        have halone := overlaying_lasting.onward.leads hw (.of_moves hmoves) h
        obtain ⟨c, hc, hcd⟩ := document_removeAll (s.editor.indirectTo view) hs.document
        have hos : c.overlays = d.overlays := by
          change c.unmarked.overlays = d.unmarked.overlays
          rw [hcd]
        simp only [run_bind, run_change, run_unlockIf]
        refine Eq.trans ?_
          (Respects.removeIndirects (R := Editor.Within (Editor.Same (·.propertiesOf id))) s view)
        refine halone.propertiesOf_detachAll hc ?_ (fun r hne => ?_) id
        · rw [hos, editor_edit, editor_unlocked]
          rfl
        · rw [editor_edit, editor_unlocked]
          exact Table.get?_erase_of_ne _ hne

/-! ## Operations -/

/-- Nothing but a put on an overlay or a removal from it changes its properties. -/
theorem propertiesOf_after (h : s.editor.Overlaying) (hw : s.editor.WellFormed) (o : Op)
    (id : OverlayId) :
    (s.after o).editor.propertiesOf id =
      Op.rewrite id (s.editor.propertiesOf id) (answered (s, o)) := by
  have hr := hw.registry
  have hplain : o.effect ≠ .rehouse ∧ o.effect ≠ .makeRoot ∧ o.effect ≠ .makeOverlay →
      (s.after o).editor.propertiesOf id = s.editor.propertiesOf id :=
    fun heffect => o.respects (R := Editor.Within (Editor.Same (·.propertiesOf id))) heffect s
  cases o with
  | createRoot name => exact propertiesOf_createRoot h hr name
  | makeOverlay view p q front rear => exact propertiesOf_makeOverlay h hr p q front rear
  | kill view => exact propertiesOf_kill h hw view
  | deleteOverlay overlay => exact propertiesOf_deleteOverlay h hr overlay
  | deleteAllOverlays view => exact propertiesOf_deleteAllOverlays h hr view
  | moveOverlay overlay view p q => exact propertiesOf_moveOverlay h hr overlay view p q
  | overlayPut overlay key value =>
      rw [answered, after, Op.act, run_map]
      rcases rewriteProperties_cases h hr overlay key (·.put key value) with
        ⟨-, hrun⟩ | ⟨p, t, hp, hrun, hproperties⟩
      · rw [show overlayPut overlay key value = rewriteProperties overlay key _ from rfl, hrun]
        rfl
      · rw [show overlayPut overlay key value = rewriteProperties overlay key _ from rfl, hrun]
        change t.editor.propertiesOf id = if id = overlay then
          PropertyList.written key value (s.editor.propertiesOf id) else s.editor.propertiesOf id
        rw [hproperties, PropertyList.entries_put, hp]
        split
        · rename_i hid
          rw [hid]
        · rfl
  | overlayRemove overlay key =>
      rw [answered, after, Op.act, run_map]
      rcases rewriteProperties_cases h hr overlay key (·.remove key) with
        ⟨-, hrun⟩ | ⟨p, t, hp, hrun, hproperties⟩
      · rw [show overlayRemove overlay key = rewriteProperties overlay key _ from rfl, hrun]
        rfl
      · rw [show overlayRemove overlay key = rewriteProperties overlay key _ from rfl, hrun]
        change t.editor.propertiesOf id = if id = overlay then
          PropertyList.dropped key (s.editor.propertiesOf id) else s.editor.propertiesOf id
        rw [hproperties, PropertyList.entries_remove, hp]
        split
        · rename_i hid
          rw [hid]
        · rfl
  | _ => exact hplain (by simp [Op.effect])

end Act

/-- The overlay and the key that an operation asks for the value of. -/
def Op.keyNamed : Op → Option (OverlayId × String)
  | overlayPut overlay key _ | overlayRemove overlay key | overlayGet overlay key =>
      some (overlay, key)
  | _ => none

namespace Session

variable {s t : Session} {o : Op} {id : OverlayId} {starts : List (Session × Op)}
  {passed : List Session} {ops : List (Op × Except Error Reply)}

/-! ## Runs -/

/-- The overlays that operations made have the properties, no two of them with one key, that the
puts and removals among the operations gave them. -/
def Recounts (ops : List (Op × Except Error Reply)) (t : Session) : Prop :=
  ∀ id ∈ ops.filterMap Op.overlayMade,
    (∃ p, t.editor.overlayProperties id = .ok p ∧ p.entries = history id ops) ∧
      ((history id ops).map Prod.fst).Nodup ∧
      ∀ key, t.editor.overlayGet id key = .ok ((history id ops).lookup key)

/-- Homes and documents say the same about the overlays that operations made, and keep the
properties that the operations gave them. -/
structure Describes (ops : List (Op × Except Error Reply)) (t : Session) : Prop where
  overlaying : t.editor.Overlaying
  made : ops.filterMap Op.overlayMade = List.range t.editor.nextOverlay
  properties : ∀ id, t.editor.propertiesOf id = history id ops

namespace Describes

theorem home (h : t.Describes ops) (hid : id ∈ ops.filterMap Op.overlayMade) :
    ∃ home, t.editor.overlayHomes.get? id = some home := by
  rw [h.made, List.mem_range] at hid
  exact (h.overlaying.numbered id).mpr hid

theorem recounts (h : t.Describes ops) (hr : t.editor.Registry) : t.Recounts ops := by
  intro id hid
  obtain ⟨home, hh⟩ := h.home hid
  obtain ⟨o, ho, hproperties⟩ := h.overlaying.overlay_properties hr hh
  rw [h.properties id] at hproperties
  refine ⟨⟨o.properties, ?_, hproperties⟩, hproperties ▸ o.properties.distinct, fun key => ?_⟩
  · rw [Editor.overlayProperties, ho]
    rfl
  · rw [Editor.overlayGet, ho, ← hproperties, ← o.properties.get?_eq_lookup]
    rfl

theorem fresh (limits : Limits) (locks : Option LockProtocol) :
    (Session.fresh limits locks).Describes [] where
  overlaying := fresh_overlaying limits locks
  made := rfl
  properties _ := rfl

/-- What an operation passes through has as many overlays, with the same properties, as what it
leads to. -/
theorem op (h : s.Describes ops) (hrest : s.AtRest) (ht : t ∈ s.moments o) :
    t.Describes (ops ++ [answered (s, o)]) where
  overlaying := overlaying_lasting.onward.op hrest ht h.overlaying
  made := by
    obtain ⟨k, hmade, hnext⟩ := counts_overlays.gives s o
    have hrange := @List.range'_append_1 0 s.editor.nextOverlay k
    rw [Nat.zero_add] at hrange
    rw [same_moments Editor.nextOverlay (by simp) ht, List.filterMap_append, hmade,
      h.made, hnext, List.range_eq_range', List.range_eq_range', hrange]
  properties id := by
    rw [same_moments (·.propertiesOf id) (by simp) ht,
      Act.propertiesOf_after h.overlaying hrest.wellFormed, h.properties, history, history,
      List.foldl_append, List.foldl_cons, List.foldl_nil]

end Describes

theorem Walk.describes (hwalk : s.Walk starts passed t) (hrest : s.AtRest)
    (h : s.Describes []) : t.Describes (starts.map answered) := by
  induction hwalk with
  | rest => exact h
  | op hwalk o ih =>
      rw [List.map_append]
      exact ih.op (hwalk.atRest hrest) (after_mem_moments _ o)
  | switch hwalk ht ih =>
      rcases ht with rfl | ⟨view, v, -, rfl⟩
      · exact ih
      · exact ⟨ih.overlaying.congr (fun _ _ => Iff.rfl) rfl rfl, ih.made, ih.properties⟩

/-- What gives the value of a property gives the one that the operations so far have left. -/
theorem Describes.reply (h : s.Describes ops) (hr : s.editor.Registry)
    (hid : id ∈ ops.filterMap Op.overlayMade) {key : String} (ho : o.keyNamed = some (id, key)) :
    (o.act.run s).1 = .ok (.property ((history id ops).lookup key)) := by
  obtain ⟨home, hh⟩ := h.home hid
  obtain ⟨-, -, hget⟩ := h.recounts hr id hid
  have hrewrite : ∀ f, ((Act.rewriteProperties id key f).run s).1 =
      .ok ((history id ops).lookup key) := by
    intro f
    rcases Act.rewriteProperties_cases h.overlaying hr id key f with
      ⟨hnone, -⟩ | ⟨p, t, hp, hrun, -⟩
    · rw [hh] at hnone
      cases hnone
    · rw [hrun, hp, h.properties id]
  cases o with
  | overlayPut _ _ value =>
      cases ho
      rw [Op.act, Act.run_map]
      exact congrArg (Except.map Reply.property) (hrewrite (·.put key value))
  | overlayRemove _ _ =>
      cases ho
      rw [Op.act, Act.run_map]
      exact congrArg (Except.map Reply.property) (hrewrite (·.remove key))
  | overlayGet _ _ =>
      cases ho
      rw [Op.act, Act.run_map, Act.run_ask, hget]
      rfl
  | _ => cases ho

/-- At every moment of a run, within an undo too, each overlay made so far has the properties that
the successful puts and removals among the operations have left, taken in turn from none: a put over
a present key keeps its place, a new key comes last, and a removal keeps the order of the others.
Puts, removals and questions give the value that was left at the key, and whatever is neither a put
on the overlay nor a removal from it leaves its properties as they are. -/
theorem properties_recounted (limits : Limits) (locks : Option LockProtocol) (steps : List Step) :
    let start := fresh limits locks
    let run := takeAll steps start
    let starts := runStarts steps start
    allPerformed steps run.1 = starts.map answered ∧
    (∀ earlier s o later, starts = earlier ++ (s, o) :: later →
      let before := earlier.map answered
      s.Recounts before ∧
      (∀ t ∈ s.moments o, t.Recounts (before ++ [answered (s, o)])) ∧
      ∀ id ∈ before.filterMap Op.overlayMade,
        (∀ key, o.keyNamed = some (id, key) →
          (o.act.run s).1 = .ok (.property ((history id before).lookup key))) ∧
        ((∀ key value, o ≠ .overlayPut id key value) → (∀ key, o ≠ .overlayRemove id key) →
          ∀ t ∈ s.moments o,
            t.editor.overlayProperties id = s.editor.overlayProperties id)) ∧
    run.2.Recounts (starts.map answered) := by
  intro start run starts
  have hrest := fresh_atRest limits locks
  have hwalk := walk_all steps start hrest
  have hlast := hwalk.describes hrest (.fresh limits locks)
  refine ⟨performed_all steps start, ?_, hlast.recounts (hwalk.atRest hrest).wellFormed.registry⟩
  intro earlier s o later hsplit before
  obtain ⟨passed, hcut⟩ := hwalk.cut hsplit
  have hs : s.AtRest := hcut.atRest hrest
  have hdescribes : s.Describes before := hcut.describes hrest (.fresh limits locks)
  have hregistry := hs.wellFormed.registry
  have hmoments : ∀ t ∈ s.moments o, t.Recounts (before ++ [answered (s, o)]) := by
    intro t ht
    have hsettled := settled_lasting.onward.op hs ht ⟨hregistry, hs.wellFormed.marking⟩
    exact (hdescribes.op hs ht).recounts hsettled.1
  refine ⟨hdescribes.recounts hregistry, hmoments, fun id hid =>
    ⟨fun key ho => hdescribes.reply hregistry hid ho, fun hput hremove t ht => ?_⟩⟩
  have hkept : history id (before ++ [answered (s, o)]) = history id before := by
    rw [history, List.foldl_append]
    exact Op.rewrite_eq hput hremove _ _
  have hmade : id ∈ (before ++ [answered (s, o)]).filterMap Op.overlayMade := by
    rw [List.filterMap_append]
    exact List.mem_append_left _ hid
  obtain ⟨⟨p, hp, hentries⟩, -⟩ := hdescribes.recounts hregistry id hid
  obtain ⟨⟨q, hq, hentries'⟩, -⟩ := hmoments t ht id hmade
  rw [hp, hq, PropertyList.eq_of_entries (hentries'.trans (hkept.trans hentries.symm))]

/-- A run that changes the properties of an overlay in one text, in another one, and after the death
of that one, and takes the overlay back to the first text. -/
def wanderingOverlay : List Step :=
  [.op (.createRoot "v"), .op (.createRoot "w"), .op (.insert 0 "abc".toList),
    .op (.makeOverlay 0 0 2 false false), .op (.overlayPut 0 "face" (.int 1)),
    .op (.overlayPut 0 "size" (.int 2)), .op (.moveOverlay 0 1 0 0),
    .op (.overlayPut 0 "face" (.int 3)), .op (.kill 1),
    .withCurrent 0 [.op (.overlayRemove 0 "size"), .op (.overlayPut 0 "rank" (.int 4)),
      .op (.moveOverlay 0 0 1 2)] none,
    .op (.undo 0)]

theorem wanderingOverlay_recounted :
    (∃ p, (takeAll wanderingOverlay (fresh .default none)).2.editor.overlayProperties 0 = .ok p ∧
      p.entries = [("face", .int 3), ("rank", .int 4)]) ∧
    ∃ s o, (runStarts wanderingOverlay (fresh .default none))[9]? = some (s, o) ∧
      o.keyNamed = some (0, "size") ∧
      (o.act.run s).1 = .ok (.property (some (.int 2))) := by
  obtain ⟨-, hops, hlast⟩ := properties_recounted .default none wanderingOverlay
  constructor
  · obtain ⟨⟨p, hp, hentries⟩, -⟩ := hlast 0 (by decide +kernel)
    refine ⟨p, hp, hentries.trans ?_⟩
    decide +kernel
  · have hlength : 9 < (runStarts wanderingOverlay (fresh .default none)).length := by
      decide +kernel
    have hkey : (runStarts wanderingOverlay (fresh .default none))[9].2.keyNamed =
        some (0, "size") := by decide +kernel +revert
    have hsplit := (List.take_append_drop 9 (runStarts wanderingOverlay (fresh .default none))).symm
    rw [List.drop_eq_getElem_cons hlength] at hsplit
    have hget := List.getElem?_eq_getElem hlength
    generalize (runStarts wanderingOverlay (fresh .default none))[9] = x at hkey hsplit hget
    obtain ⟨s, o⟩ := x
    obtain ⟨-, -, hknown⟩ := hops _ _ _ _ hsplit
    refine ⟨s, o, hget, hkey, ((hknown 0 ?_).1 "size" hkey).trans ?_⟩
    · decide +kernel
    · refine congrArg (fun value => Except.ok (Reply.property value)) ?_
      decide +kernel

end Session

end Editing
