import Editing.Proofs.Session.Through

/-!
# Texts that refuse edits

While all views of a root are read-only, an edit through one of them is nothing, or out of bounds,
or refused: in any case the whole session is as it was, the text as well as the markers, the records
and the accessible parts, and those around are not told anything.
-/

namespace Editing

variable {root view : ViewId} {v : View} {d : Document} {s : Session}

/-- All views of the root are read-only, and that is not disregarded. -/
def Editor.Sealed (e : Editor) (root : ViewId) : Prop :=
  e.inhibitReadOnly = false ∧
    ∀ view ∈ e.viewList, e.rootOf view = .ok root → e.isReadOnly view = .ok true

instance (e : Editor) (root : ViewId) : Decidable (e.Sealed root) :=
  inferInstanceAs (Decidable (_ ∧ _))

/-- What comes of a change of a text of the given length that takes no changes. -/
def Change.refusal (c : Change) (root : ViewId) (length : Nat) : Except Error Unit :=
  match c.rangeError length with
  | some e => .error e
  | none => if c.isVoid then .ok () else .error (.readOnly root)

theorem Change.refusal_of_asked {c : Change} {length : Nat} (hrange : c.rangeError length = none)
    (hvoid : c.isVoid = false) : c.refusal root length = .error (.readOnly root) := by
  rw [refusal, hrange, hvoid]
  rfl

namespace Edit

/-- Whether the edit is within the bounds of an accessible part and a text, and asks for something
to be inserted, deleted or noted. -/
def Asks (x : Extent) (length : Nat) : Edit → Prop
  | insert text => text ≠ []
  | deleteRegion p q => p ≠ q ∧ (x.low ≤ p ∧ p ≤ x.high) ∧ x.low ≤ q ∧ q ≤ x.high
  | erase => True
  | noteProperty pos n _ _ => pos + n ≤ length ∧ pos + n ≤ maxPosition
  | insertRaw pos text => pos ≤ length ∧ text ≠ []
  | deleteRaw start stop => start < stop ∧ stop ≤ length
  | notePropertyRaw start stop _ _ => start ≤ stop ∧ stop ≤ length

/-- The edit through the view leaves the session as it was. It fails if it asks for anything. -/
structure Refused (edit : Edit) (view : ViewId) (s : Session) : Prop where
  kept : s.after (edit.through view) = s
  fails : ∀ x length, s.editor.extent view = .ok x → s.editor.size view = .ok length →
    edit.Asks x length → ∃ r, ((edit.through view).act.run s).1 = .error (.readOnly r) ∧
      (Error.readOnly r).kind = .invalidArgument

end Edit

namespace Session

/-- The view shows a document of the root that takes no changes through it. -/
structure Guards (s : Session) (view : ViewId) (v : View) (root : ViewId) (d : Document) :
    Prop where
  shows : s.editor.Shows view v root d
  seats : d.Seats v.markers
  idle : d.log.replaying = false
  readOnly : v.readOnly = true
  heeded : s.editor.inhibitReadOnly = false

theorem AtRest.guards (h : s.AtRest) (hsealed : s.editor.Sealed root)
    (hroot : s.editor.rootOf view = .ok root) : ∃ v d, s.Guards view v root d := by
  obtain ⟨v, d, hs⟩ := h.wellFormed.registry.shows_of_rootOf hroot
  obtain ⟨heeded, hviews⟩ := hsealed
  have hreadOnly := hviews view (Table.mem_keys.mpr ⟨v, hs.live⟩) hroot
  rw [Editor.isReadOnly, hs.view_eq] at hreadOnly
  exact ⟨v, d, hs, h.wellFormed.marking.seated view v root d hs, h.idle root d hs.document,
    Except.ok.inj hreadOnly, heeded⟩

end Session

namespace Act

variable {α β : Type} {act : Act α} {asks : Prop} {e : Error}

/-- The act changes nothing, and it fails with the error if something is asked for. -/
def Declines (s : Session) (asks : Prop) (e : Error) (act : Act α) : Prop :=
  ∃ r, act.run s = (r, s) ∧ (asks → r = .error e)

namespace Declines

theorem map (f : α → β) (h : Declines s asks e act) : Declines s asks e (f <$> act) := by
  obtain ⟨r, hrun, hr⟩ := h
  refine ⟨r.map f, ?_, fun hasks => ?_⟩
  · rw [run_map, hrun]
  · rw [hr hasks]
    rfl

theorem quietly (h : Declines s asks e act) : Declines s asks e (Op.quietly act) := by
  obtain ⟨r, hrun, hr⟩ := h
  refine ⟨r.map fun _ => .done, ?_, fun hasks => ?_⟩
  · rw [run_quietly, hrun]
  · rw [hr hasks]
    rfl

theorem imp {asks' : Prop} (h : Declines s asks e act) (himp : asks' → asks) :
    Declines s asks' e act := by
  obtain ⟨r, hrun, hr⟩ := h
  exact ⟨r, hrun, fun hasks => hr (himp hasks)⟩

end Declines

end Act

namespace Session.Guards

open Act

theorem run_makeChange (h : s.Guards view v root d) (c : Change) :
    (makeChange view c).run s = (c.refusal root d.length, s) := by
  rw [Act.run_makeChange h.shows, Change.refusal]
  cases c.rangeError d.length with
  | some e => rfl
  | none =>
      simp only [h.readOnly, h.heeded, h.idle, Bool.not_false, Bool.and_true, and_true]
      cases hvoid : c.isVoid with
      | false => rfl
      | true =>
          have hfree : s.hindered? root d c = none := if_pos hvoid
          have hsame : s.revised root d c = s := if_pos hvoid
          simp only [hfree, hsame]
          rfl

/-- To move point to where it is changes nothing. -/
theorem setPosition_point (h : s.Guards view v root d) :
    s.onDocument root (·.setPosition v.markers.point (d.extent v.markers).point) = s := by
  refine onDocument_self h.shows.document ?_
  exact congrArg (fun ms => { d with markers := ms })
    (Markers.setPosition_self (m := ⟨(d.extent v.markers).point, false, .view⟩) h.seats.point)

theorem makeChange (h : s.Guards view v root d) (c : Change) :
    Declines s (c.rangeError d.length = none ∧ c.isVoid = false) (.readOnly root)
      (makeChange view c) :=
  ⟨_, h.run_makeChange c, fun hasks => Change.refusal_of_asked hasks.1 hasks.2⟩

theorem insert (h : s.Guards view v root d) (text : Text) :
    Declines s (text ≠ []) (.readOnly root) (insert view text) := by
  have hrange : (Change.insert (d.extent v.markers).point text).rangeError d.length = none :=
    if_neg (Nat.not_lt.mpr (Nat.le_trans h.seats.le_high h.seats.high_le))
  rw [Declines, run_insert h.shows h.seats, h.run_makeChange]
  by_cases htext : text = []
  · subst htext
    refine ⟨.ok 0, ?_, fun hne => absurd rfl hne⟩
    rw [Change.refusal, hrange]
    simp only [Change.isVoid, List.isEmpty_nil, if_true, run_changeShown h.shows, List.length_nil,
      Nat.add_zero, h.setPosition_point]
  · rw [Change.refusal_of_asked hrange (List.isEmpty_eq_false_iff.mpr htext)]
    exact ⟨_, rfl, fun _ => rfl⟩

theorem insertRaw (h : s.Guards view v root d) (pos : Nat) (text : Text) :
    Declines s (pos ≤ d.length ∧ text ≠ []) (.readOnly root) (insertRaw view pos text) := by
  rw [Declines, run_insertRaw, h.run_makeChange]
  refine ⟨_, rfl, ?_⟩
  rintro ⟨hpos, htext⟩
  have hrange : (Change.insert pos text).rangeError d.length = none := if_neg (by omega)
  rw [Change.refusal_of_asked hrange (List.isEmpty_eq_false_iff.mpr htext)]
  rfl

theorem deleteRaw (h : s.Guards view v root d) (start stop : Nat) :
    Declines s (start < stop ∧ stop ≤ d.length) (.readOnly root) (deleteRaw view start stop) := by
  rw [Declines, run_deleteRaw h.shows, h.run_makeChange]
  refine ⟨_, rfl, ?_⟩
  rintro ⟨hlt, hstop⟩
  have hrange : (Change.delete start stop).rangeError d.length = none := if_neg (by omega)
  rw [Change.refusal_of_asked hrange (beq_eq_false_iff_ne.mpr (Nat.ne_of_lt hlt))]
  rfl

theorem deleteRegion (h : s.Guards view v root d) (p q : Nat) :
    Declines s ((Edit.deleteRegion p q).Asks (d.extent v.markers) d.length) (.readOnly root)
      (deleteRegion view p q) := by
  have hhigh := h.seats.high_le
  rw [Declines, run_deleteRegion h.shows]
  split
  · rename_i hout
    refine ⟨_, rfl, ?_⟩
    rintro ⟨-, ⟨hp, hp'⟩, hq, hq'⟩
    rw [Position.ordered] at hout
    split at hout <;> omega
  · refine (h.deleteRaw _ _).imp ?_
    rintro ⟨hne, ⟨-, hp⟩, -, hq⟩
    rw [Position.ordered]
    split <;> omega

theorem erase (h : s.Guards view v root d) :
    Declines s True (.readOnly view) (erase view) := by
  rw [Declines, run_erase h.shows, h.readOnly, h.heeded]
  exact ⟨_, rfl, fun _ => rfl⟩

theorem noteProperty (h : s.Guards view v root d) (pos n : Nat) (key : String) (value : Value) :
    Declines s (pos + n ≤ d.length ∧ pos + n ≤ maxPosition) (.readOnly root)
      (noteProperty view pos n key value) := by
  rw [Declines, run_noteProperty]
  split
  · exact ⟨_, rfl, fun hasks => by omega⟩
  · exact (h.makeChange _).imp fun hasks => ⟨if_neg (by omega), rfl⟩

/-- Whatever the edit, nothing changes, and what it asks for is refused. -/
theorem edit (h : s.Guards view v root d) (edit : Edit) :
    ∃ r, Declines s (edit.Asks (d.extent v.markers) d.length) (.readOnly r)
      (edit.through view).act := by
  cases edit with
  | insert text => exact ⟨root, .map _ (h.insert text)⟩
  | deleteRegion p q => exact ⟨root, .map _ (h.deleteRegion p q)⟩
  | erase => exact ⟨view, .quietly h.erase⟩
  | noteProperty pos n key value => exact ⟨root, .quietly (h.noteProperty pos n key value)⟩
  | insertRaw pos text => exact ⟨root, .map _ (h.insertRaw pos text)⟩
  | deleteRaw start stop => exact ⟨root, .map _ (h.deleteRaw start stop)⟩
  | notePropertyRaw start stop key value =>
      refine ⟨root, .quietly ((h.makeChange _).imp ?_)⟩
      rintro ⟨hle, hstop⟩
      exact ⟨if_neg (by omega), rfl⟩

end Session.Guards

/-- An edit through a view of a sealed root changes nothing, whatever its arguments are. -/
theorem Session.AtRest.refused (h : s.AtRest) (hsealed : s.editor.Sealed root)
    (hroot : s.editor.rootOf view = .ok root) (edit : Edit) : edit.Refused view s := by
  obtain ⟨v, d, hguards⟩ := h.guards hsealed hroot
  obtain ⟨r, reply, hrun, hreply⟩ := hguards.edit edit
  constructor
  · rw [Session.after, hrun]
  · intro x length hx hlength hasks
    rw [hguards.shows.extent_eq] at hx
    rw [Editor.size, hguards.shows.document_eq] at hlength
    obtain rfl := Except.ok.inj hx
    obtain rfl := Except.ok.inj hlength
    exact ⟨r, by rw [hrun, hreply hasks], rfl⟩

end Editing
