import Editing.Proofs.Session.Moments
import Editing.Proofs.Session.Repointing

/-!
# Editing through one view or another

The views of a text share all of it but what they make accessible, their points and whether they are
protected. So through two views that show the whole text and take changes, every edit does the same;
an insertion at the same point and an undo do the same but for where they leave the two points.
-/

namespace Editing

/-- What can be asked of the text of a view. -/
inductive Edit where
  | insert (text : Text)
  | deleteRegion (p q : Nat)
  | erase
  | noteProperty (pos length : Nat) (key : String) (value : Value)
  | insertRaw (pos : Nat) (text : Text)
  | deleteRaw (start stop : Nat)
  | notePropertyRaw (start stop : Nat) (key : String) (value : Value)

/-- The operation that makes an edit through a view. -/
def Edit.through (view : ViewId) : Edit → Op
  | insert text => .insert view text
  | deleteRegion p q => .deleteRegion view p q
  | erase => .erase view
  | noteProperty pos length key value => .noteProperty view pos length key value
  | insertRaw pos text => .insertRaw view pos text
  | deleteRaw start stop => .deleteRaw view start stop
  | notePropertyRaw start stop key value => .notePropertyRaw view start stop key value

namespace Session

variable {s : Session} {a b root : ViewId} {v w : View} {d : Document}

theorem widened_of_wide (hs : s.editor.Shows a v root d) (hseats : d.Seats v.markers)
    (hwide : d.IsWide v.markers) : s.widened root v = s := by
  have hlow : d.setPosition v.markers.low 0 = d :=
    congrArg (fun ms => { d with markers := ms })
      (Markers.setPosition_self (m := ⟨0, false, .view⟩) (hwide.low ▸ hseats.low))
  have hhigh : d.setPosition v.markers.high d.length = d :=
    congrArg (fun ms => { d with markers := ms })
      (Markers.setPosition_self (m := ⟨d.length, true, .view⟩) (hwide.high ▸ hseats.high))
  exact onDocument_self hs.document (by rw [hlow, hhigh])

/-- Two operations give the same reply, and leave sessions that differ at most in where two views of
a root have their points. -/
def AlikeButPoints (s : Session) (root : ViewId) (v w : View) (o o' : Op) : Prop :=
  (o'.act.run s).1 = (o.act.run s).1 ∧
    ∃ x y, s.after o' = (s.after o).repointed root v.markers.point w.markers.point x y

end Session

namespace Act

variable {s : Session} {a b root : ViewId} {v w : View} {d : Document}

theorem makeChange_through (hs : s.editor.Shows a v root d) (ht : s.editor.Shows b w root d)
    (ha : s.editor.isProtected a = .ok false) (hb : s.editor.isProtected b = .ok false)
    (c : Change) : (makeChange a c).run s = (makeChange b c).run s := by
  rw [hs.isProtected_eq] at ha
  rw [ht.isProtected_eq] at hb
  rw [run_makeChange hs, run_makeChange ht, Except.ok.inj ha, Except.ok.inj hb]

theorem deleteRaw_through (hs : s.editor.Shows a v root d) (ht : s.editor.Shows b w root d)
    (ha : s.editor.isProtected a = .ok false) (hb : s.editor.isProtected b = .ok false)
    (start stop : Nat) : (deleteRaw a start stop).run s = (deleteRaw b start stop).run s := by
  rw [run_deleteRaw hs, run_deleteRaw ht, makeChange_through hs ht ha hb]

theorem deleteRegion_through (hs : s.editor.Shows a v root d) (ht : s.editor.Shows b w root d)
    (ha : s.editor.isProtected a = .ok false) (hb : s.editor.isProtected b = .ok false)
    (hv : d.IsWide v.markers) (hw : d.IsWide w.markers) (p q : Nat) :
    (deleteRegion a p q).run s = (deleteRegion b p q).run s := by
  rw [run_deleteRegion hs, run_deleteRegion ht, hv.low, hv.high, hw.low, hw.high,
    deleteRaw_through hs ht ha hb]

theorem erase_through (hs : s.editor.Shows a v root d) (ht : s.editor.Shows b w root d)
    (ha : s.editor.isProtected a = .ok false) (hb : s.editor.isProtected b = .ok false)
    (hseats : d.Seats v.markers) (hseats' : d.Seats w.markers) (hv : d.IsWide v.markers)
    (hw : d.IsWide w.markers) : (erase a).run s = (erase b).run s := by
  have hchange := makeChange_through hs ht ha hb (.delete 0 d.length)
  rw [hs.isProtected_eq] at ha
  rw [ht.isProtected_eq] at hb
  rw [run_erase hs, run_erase ht, Except.ok.inj ha, Except.ok.inj hb,
    Session.widened_of_wide hs hseats hv, Session.widened_of_wide ht hseats' hw, hchange]
  rfl

theorem makeOverlay_through (ha : s.editor.rootOf a = .ok root) (hb : s.editor.rootOf b = .ok root)
    (p q : Nat) (front rear : Bool) :
    (makeOverlay a p q front rear).run s = (makeOverlay b p q front rear).run s := by
  have hfirst : (makeOverlay a p q front rear).run s = _ := run_ask_bind ha _
  have hother : (makeOverlay b p q front rear).run s = _ := run_ask_bind hb _
  rw [hfirst, hother]

/-- What is inserted at the same point is the same, and only one point moves behind it. -/
theorem insert_through (hs : s.editor.Shows a v root d) (ht : s.editor.Shows b w root d)
    (ha : s.editor.isProtected a = .ok false) (hb : s.editor.isProtected b = .ok false)
    (hv : d.Seats v.markers) (hw : d.Seats w.markers)
    (hpoint : (d.extent v.markers).point = (d.extent w.markers).point) (text : Text) :
    ∃ x y, (insert b text).run s =
      (((insert a text).run s).1,
        ((insert a text).run s).2.repointed root v.markers.point w.markers.point x y) := by
  have hself : ∃ x y, s.repointed root v.markers.point w.markers.point x y = s := by
    obtain ⟨x, y, hself⟩ := d.exists_repointed_self v.markers.point w.markers.point
    exact ⟨x, y, Session.repointed_self hs.document hself⟩
  rw [run_insert hs hv, run_insert ht hw, ← hpoint, ← makeChange_through hs ht ha hb]
  rcases makeChange_cases hs (.insert (d.extent v.markers).point text) with
    ⟨e, hrun⟩ | ⟨path, reason, hrun⟩ | ⟨-, -, hrun⟩
  · obtain ⟨x, y, hself⟩ := hself
    exact ⟨x, y, by rw [hrun, hself]⟩
  · obtain ⟨x, y, hself⟩ := hself
    refine ⟨x, y, ?_⟩
    rw [hrun]
    exact congrArg (fun t => (_, Session.called t _)) hself.symm
  · have hshown := Session.shows_revised (c := .insert (d.extent v.markers).point text) hs
    have hshown' := Session.shows_revised (c := .insert (d.extent v.markers).point text) ht
    obtain ⟨x, y, hself⟩ := (d.revised (.insert (d.extent v.markers).point
      text)).exists_repointed_self v.markers.point w.markers.point
    refine ⟨x, (d.extent v.markers).point + text.length, ?_⟩
    rw [hrun]
    simp only [run_changeShown hshown, run_changeShown hshown']
    rw [← Session.setPosition_repointed hshown.document x y,
      Session.repointed_self hshown.document hself]

/-- An undo takes the same group back in the same way, whichever view it goes through. -/
theorem undo_through (h : s.AtRest) (hs : s.editor.Shows a v root d)
    (ht : s.editor.Shows b w root d) (hv : d.IsWide v.markers) (hw : d.IsWide w.markers) :
    ∃ x y, (undo b).run s =
      (((undo a).run s).1,
        ((undo a).run s).2.repointed root v.markers.point w.markers.point x y) := by
  obtain ⟨x, y, hdocument⟩ := d.exists_repointed_self v.markers.point w.markers.point
  have hbegun : d.begun.repointed v.markers.point w.markers.point x y = d.begun :=
    congrArg Document.begun hdocument
  have hself := Session.repointed_self hs.document hdocument
  have hself' := Session.repointed_self
    (Session.get?_onDocument_self hs.document fun _ => d.begun) hbegun
  obtain ⟨r, g, t, _, _, _, ⟨-, -, x', y', rfl, -⟩, hrun, hrun'⟩ :=
    (Session.parallel_repointed a v b w root).run_undo h.wellFormed h.wellFormed hs ht rfl
      ⟨hv, hw, x, y, hself.symm, hdocument.symm⟩
      ⟨⟨hv.low, hv.high⟩, ⟨hw.low, hw.high⟩, x, y, hself'.symm, hbegun.symm⟩
  refine ⟨x', y', ?_⟩
  rw [hrun, hrun']
  simp only [Session.repointed, Session.onDocument_onDocument]
  rfl

end Act

namespace Session

variable {s : Session} {a b root : ViewId} {v w : View}

/-- It does not matter through which of two views of the whole text an edit or an overlay is made,
as long as both views take changes: the reply and the session are the same. An undo, and an
insertion where the points are the same, differ at most in where the two points are afterwards. -/
theorem edits_through_any_view (h : s.Reachable) (hv : s.editor.views.get? a = some v)
    (hw : s.editor.views.get? b = some w) (ha : s.editor.rootOf a = .ok root)
    (hb : s.editor.rootOf b = .ok root) (hawide : s.editor.isNarrowed a = .ok false)
    (hbwide : s.editor.isNarrowed b = .ok false) (hafree : s.editor.isProtected a = .ok false)
    (hbfree : s.editor.isProtected b = .ok false) :
    (∀ edit : Edit, (∀ text, edit ≠ .insert text) →
      (edit.through a).act.run s = (edit.through b).act.run s) ∧
    (∀ p q front rear, (Op.makeOverlay a p q front rear).act.run s =
      (Op.makeOverlay b p q front rear).act.run s) ∧
    s.AlikeButPoints root v w (.undo a) (.undo b) ∧
    (s.editor.point a = s.editor.point b →
      ∀ text, s.AlikeButPoints root v w (.insert a text) (.insert b text)) := by
  have hrest := h.atRest
  have hregistry := hrest.wellFormed.registry
  obtain ⟨v', d, hs⟩ := hregistry.shows_of_rootOf ha
  obtain ⟨w', d', ht⟩ := hregistry.shows_of_rootOf hb
  obtain rfl := Option.some.inj (hs.live.symm.trans hv)
  obtain rfl := Option.some.inj (ht.live.symm.trans hw)
  obtain rfl := Option.some.inj (hs.document.symm.trans ht.document)
  have hseats := hrest.wellFormed.marking.seated a _ root d hs
  have hseats' := hrest.wellFormed.marking.seated b _ root d ht
  have hwide := hs.isWide hawide
  have hwide' := ht.isWide hbwide
  refine ⟨fun edit hinsert => ?_, fun p q front rear => ?_, ?_, fun hpoint text => ?_⟩
  · cases edit with
    | insert text => exact absurd rfl (hinsert text)
    | deleteRegion p q =>
        simp only [Edit.through, Op.act, Act.run_map,
          Act.deleteRegion_through hs ht hafree hbfree hwide hwide']
    | erase =>
        simp only [Edit.through, Op.act, Act.run_quietly,
          Act.erase_through hs ht hafree hbfree hseats hseats' hwide hwide']
    | noteProperty pos length key value =>
        simp only [Edit.through, Op.act, Act.run_quietly, Act.run_noteProperty,
          Act.makeChange_through hs ht hafree hbfree]
    | insertRaw pos text =>
        simp only [Edit.through, Op.act, Act.run_map, Act.run_insertRaw,
          Act.makeChange_through hs ht hafree hbfree]
    | deleteRaw start stop =>
        simp only [Edit.through, Op.act, Act.run_map, Act.deleteRaw_through hs ht hafree hbfree]
    | notePropertyRaw start stop key value =>
        simp only [Edit.through, Op.act, Act.notePropertyRaw, Act.run_quietly,
          Act.makeChange_through hs ht hafree hbfree]
  · simp only [Op.act, Act.run_map, Act.makeOverlay_through ha hb]
  · obtain ⟨x, y, hrun⟩ := Act.undo_through hrest hs ht hwide hwide'
    refine ⟨?_, x, y, ?_⟩
    · rw [Op.act, Op.act, Act.run_quietly, Act.run_quietly, hrun]
    · rw [after_undo_eq, after_undo_eq, hrun]
  · have hsame : (d.extent v'.markers).point = (d.extent w'.markers).point := by
      rw [Editor.point, Editor.point, hs.extent_eq, ht.extent_eq] at hpoint
      exact Except.ok.inj hpoint
    obtain ⟨x, y, hrun⟩ := Act.insert_through hs ht hafree hbfree hseats hseats' hsame text
    refine ⟨?_, x, y, ?_⟩
    · rw [Op.act, Op.act, Act.run_map, Act.run_map, hrun]
    · rw [after, after, Op.act, Op.act, Act.run_map, Act.run_map, hrun]

/-- Two views of one text, with a change to take back and a property noted. -/
def twoViews : List Step :=
  [.op (.createRoot "v"), .op (.createIndirect 0 "w"), .op (.insert 0 ['a', 'b']),
    .op (.notePropertyRaw 0 0 1 "face" .nil), .op (.goto 0 0)]

theorem twoViews_edited :
    let s := (takeAll twoViews (fresh .default none)).2
    s.after (.erase 0) = s.after (.erase 1) ∧
    ((Op.undo 1).act.run s).1 = ((Op.undo 0).act.run s).1 ∧
    (s.after (.undo 0)).editor.text 0 = .ok [] ∧
    ∃ v w x y, s.editor.views.get? 0 = some v ∧ s.editor.views.get? 1 = some w ∧
      s.after (.insert 1 ['c']) =
        (s.after (.insert 0 ['c'])).repointed 0 v.markers.point w.markers.point x y := by
  intro s
  have hreachable : s.Reachable := reachable_takeAll twoViews (.fresh .default none)
  obtain ⟨v, hv⟩ := Option.isSome_iff_exists.mp
    (show (s.editor.views.get? 0).isSome = true by decide +kernel)
  obtain ⟨w, hw⟩ := Option.isSome_iff_exists.mp
    (show (s.editor.views.get? 1).isSome = true by decide +kernel)
  obtain ⟨hsame, -, hundo, hinsert⟩ := edits_through_any_view hreachable hv hw
    (show s.editor.rootOf 0 = .ok 0 by decide +kernel)
    (show s.editor.rootOf 1 = .ok 0 by decide +kernel)
    (show s.editor.isNarrowed 0 = .ok false by decide +kernel)
    (show s.editor.isNarrowed 1 = .ok false by decide +kernel)
    (show s.editor.isProtected 0 = .ok false by decide +kernel)
    (show s.editor.isProtected 1 = .ok false by decide +kernel)
  refine ⟨?_, hundo.1, by decide +kernel, ?_⟩
  · exact congrArg Prod.snd (hsame .erase fun _ h => by cases h)
  · obtain ⟨-, x, y, heq⟩ :=
      hinsert (show s.editor.point 0 = s.editor.point 1 by decide +kernel) ['c']
    exact ⟨v, w, x, y, hv, hw, heq⟩

end Session

end Editing
