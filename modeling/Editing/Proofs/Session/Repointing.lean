import Editing.Proofs.Session.Visible
import Mathlib.Data.List.Basic

/-!
# Moving points

Where the points of the views of a text are makes no difference to what a change does to the rest,
or the taking back of a record. So two undos through views of the whole text, from sessions that
differ in the points of these views only, go the same way and leave sessions that differ in the
points only.
-/

namespace Editing

namespace Markers

variable {ms : Markers} {p q : MarkerId} {x y : Nat}

theorem setPosition_setPosition (ms : Markers) (p : MarkerId) (x y : Nat) :
    setPosition (setPosition ms p x) p y = setPosition ms p y := by
  apply Table.ext_get?
  intro k
  simp only [setPosition, Table.get?_modify]
  split
  · rw [Option.map_map]
    rfl
  · rfl

theorem setPosition_comm (h : p ≠ q) :
    setPosition (setPosition ms p x) q y = setPosition (setPosition ms q y) p x := by
  apply Table.ext_get?
  intro k
  simp only [setPosition, Table.get?_modify]
  by_cases hp : k = p
  · have hq : k ≠ q := fun hq => h (hp.symm.trans hq)
    rw [if_neg hq, if_pos hp, if_pos hp, if_neg hq]
  · rw [if_neg hp, if_neg hp]

theorem setPosition_self {m : Marker} (h : ms.get? p = some m) :
    setPosition ms p m.position = ms := by
  apply Table.ext_get?
  intro k
  rw [setPosition, Table.get?_modify]
  split
  · rename_i hk
    rw [hk, h]
    rfl
  · rfl

theorem exists_setPosition_self (ms : Markers) (p : MarkerId) : ∃ x, setPosition ms p x = ms := by
  cases hp : ms.get? p with
  | some m => exact ⟨m.position, setPosition_self hp⟩
  | none =>
      refine ⟨0, Table.ext_get? fun k => (Table.get?_modify _ _ _ _).trans ?_⟩
      split
      · rename_i hk
        rw [hk, hp]
        rfl
      · rfl

/-- Only the markers of users are noted when they move. -/
theorem adjustments_setPosition (h : ∀ m, ms.get? p = some m → m.kind = .view)
    (x start stop : Nat) :
    adjustments (setPosition ms p x) start stop = adjustments ms start stop := by
  rw [adjustments, adjustments, setPosition, Table.modify, Table.mapEntries, List.filterMap_map]
  apply List.filterMap_congr
  rintro ⟨k, m⟩ hm
  simp only [Function.comp_apply]
  by_cases hk : k = p
  · have hkind := h m (hk ▸ Table.mem_entries.mp hm)
    rw [if_pos hk, if_neg (by simp [hkind]), if_neg (by simp [hkind])]
  · rw [if_neg hk]

end Markers

namespace Document

variable {d : Document} {p q : MarkerId}

/-- The marker is the point of a view. -/
def HasPoint (d : Document) (p : MarkerId) : Prop :=
  ∃ x, d.markers.get? p = some ⟨x, false, .view⟩

theorem HasPoint.setPosition (h : d.HasPoint p) (q : MarkerId) (y : Nat) :
    (d.setPosition q y).HasPoint p := by
  obtain ⟨x, hx⟩ := h
  by_cases hp : p = q
  · exact ⟨y, (Table.get?_modify _ _ _ _).trans (by rw [if_pos hp, hx, Option.map_some])⟩
  · exact ⟨x, (Table.get?_modify _ _ _ _).trans (by rw [if_neg hp, hx])⟩

theorem exists_setPosition_self (d : Document) (p : MarkerId) : ∃ x, d.setPosition p x = d := by
  obtain ⟨x, hx⟩ := Markers.exists_setPosition_self d.markers p
  exact ⟨x, congrArg (fun ms => { d with markers := ms }) hx⟩

theorem setPosition_setPosition (d : Document) (p : MarkerId) (x y : Nat) :
    (d.setPosition p x).setPosition p y = d.setPosition p y :=
  congrArg (fun ms => { d with markers := ms }) (Markers.setPosition_setPosition _ _ _ _)

theorem setPosition_comm (h : p ≠ q) (x y : Nat) :
    (d.setPosition p x).setPosition q y = (d.setPosition q y).setPosition p x :=
  congrArg (fun ms => { d with markers := ms }) (Markers.setPosition_comm h)

theorem map_setPosition (h : d.HasPoint p) {f : Marker → Marker}
    (hf : ∀ m, f m = { m with position := (f m).position }) (x : Nat) :
    (Markers.setPosition d.markers p x).map f =
      Markers.setPosition (d.markers.map f) p (f ⟨x, false, .view⟩).position := by
  obtain ⟨y, hy⟩ := h
  apply Table.ext_get?
  intro k
  simp only [Markers.setPosition, Table.get?_modify, Table.get?_map]
  split
  · rename_i hk
    rw [hk, hy]
    simp only [Option.map_some]
    rw [hf, hf ⟨y, _, _⟩]
  · rfl

/-- A change takes the point of a view along, wherever it is, and is else the same. -/
theorem apply_setPosition (h : d.HasPoint p) (c : Change) (x : Nat) :
    ∃ x', (d.setPosition p x).apply c = (d.apply c).setPosition p x' := by
  cases c with
  | insert pos text =>
      exact ⟨_, congrArg (fun ms => { d.insert pos text with markers := ms })
        (map_setPosition h (f := (·.afterInsert pos text.length)) (fun _ => rfl) x)⟩
  | delete start stop =>
      have hview : ∀ m, d.markers.get? p = some m → m.kind = .view := by
        obtain ⟨y, hy⟩ := h
        intro m hm
        rw [← Option.some.inj (hy.symm.trans hm)]
      have hrecord : (d.setPosition p x).deletionRecord start stop =
          d.deletionRecord start stop := by
        rw [deletionRecord, deletionRecord]
        change Record.delete start (d.text.slice start stop) (if d.log.acceptsRecords then
          Markers.adjustments (Markers.setPosition d.markers p x) start stop else []) = _
        rw [Markers.adjustments_setPosition hview]
      have hmap := map_setPosition h (f := (·.afterDelete start stop)) (fun _ => rfl) x
      refine ⟨_, Eq.trans ?_ (congrArg (fun ms => { d.delete start stop with markers := ms }) hmap)⟩
      rw [apply, delete, hrecord]
      rfl
  | property start stop key value => exact ⟨x, rfl⟩

theorem revised_setPosition (h : d.HasPoint p) (c : Change) (x : Nat) :
    ∃ x', (d.setPosition p x).revised c = (d.revised c).setPosition p x' := by
  rw [revised, revised]
  split
  · exact ⟨x, rfl⟩
  · exact apply_setPosition (d := { d with locked := d.locked || d.wanted.isSome }) h c x

theorem position?_setPosition_of_ne (h : q ≠ p) (d : Document) (x : Nat) :
    Markers.position? (d.setPosition p x).markers q = Markers.position? d.markers q :=
  congrArg _ ((Table.get?_modify _ _ _ _).trans (if_neg h))

theorem readjust_setPosition {a : MarkerAdjustment} (h : a.marker ≠ p) (d : Document) (x : Nat) :
    (d.setPosition p x).readjust a = (d.readjust a).setPosition p x := by
  rw [readjust, readjust, position?_setPosition_of_ne h]
  cases Markers.position? d.markers a.marker with
  | none => rfl
  | some pos => exact setPosition_comm (Ne.symm h) x _

theorem readjustAll_setPosition {as : List MarkerAdjustment} (h : ∀ a ∈ as, a.marker ≠ p)
    (d : Document) (x : Nat) :
    as.foldl readjust (d.setPosition p x) = (as.foldl readjust d).setPosition p x := by
  induction as generalizing d with
  | nil => rfl
  | cons a as ih =>
      rw [List.foldl_cons, List.foldl_cons, readjust_setPosition (h a List.mem_cons_self),
        ih fun b hb => h b (List.mem_cons_of_mem a hb)]

theorem readjustable_setPosition {as : List MarkerAdjustment} (h : ∀ a ∈ as, a.marker ≠ p)
    (d : Document) (pos x : Nat) :
    (d.setPosition p x).readjustable pos as = d.readjustable pos as := by
  apply List.filter_congr
  intro a ha
  rw [position?_setPosition_of_ne (h a ha)]

/-- The document with the points of two views put elsewhere. -/
def repointed (p q : MarkerId) (x y : Nat) (d : Document) : Document :=
  (d.setPosition p x).setPosition q y

theorem exists_repointed_self (p q : MarkerId) (d : Document) :
    ∃ x y, d.repointed p q x y = d := by
  obtain ⟨x, hx⟩ := d.exists_setPosition_self p
  obtain ⟨y, hy⟩ := d.exists_setPosition_self q
  exact ⟨x, y, by rw [repointed, hx, hy]⟩

/-- It makes no difference which of two points is moved, if both have been moved before. -/
theorem repointed_setPosition (d : Document) (p q : MarkerId) (x y pos : Nat) :
    (d.repointed p q x y).setPosition q pos = (d.setPosition p pos).repointed p q x pos := by
  rw [repointed, repointed, setPosition_setPosition, setPosition_setPosition]

theorem revised_repointed (hp : d.HasPoint p) (hq : d.HasPoint q) (c : Change) (x y : Nat) :
    ∃ x' y', (d.repointed p q x y).revised c = (d.revised c).repointed p q x' y' := by
  obtain ⟨x', hx⟩ := revised_setPosition hp c x
  obtain ⟨y', hy⟩ := revised_setPosition (hq.setPosition p x) c y
  exact ⟨x', y', by rw [repointed, hy, hx, repointed]⟩

theorem readjustAll_repointed {as : List MarkerAdjustment}
    (h : ∀ a ∈ as, a.marker ≠ p ∧ a.marker ≠ q) (d : Document) (x y : Nat) :
    as.foldl readjust (d.repointed p q x y) = (as.foldl readjust d).repointed p q x y := by
  rw [repointed, readjustAll_setPosition fun a ha => (h a ha).2,
    readjustAll_setPosition fun a ha => (h a ha).1, repointed]

theorem readjustable_repointed {as : List MarkerAdjustment}
    (h : ∀ a ∈ as, a.marker ≠ p ∧ a.marker ≠ q) (d : Document) (pos x y : Nat) :
    (d.repointed p q x y).readjustable pos as = d.readjustable pos as := by
  rw [repointed, readjustable_setPosition fun a ha => (h a ha).2,
    readjustable_setPosition fun a ha => (h a ha).1]

end Document

namespace Session

variable {s : Session} {a b root : ViewId} {v w : View} {d : Document} {p q : MarkerId}
  {x y : Nat} {r : Record} {rs : List Record}

/-- The session with the points of two views of a root put elsewhere. -/
def repointed (s : Session) (root : ViewId) (p q : MarkerId) (x y : Nat) : Session :=
  s.onDocument root (·.repointed p q x y)

theorem repointed_self (hd : s.editor.documents.get? root = some d)
    (h : d.repointed p q x y = d) : s.repointed root p q x y = s := onDocument_self hd h

theorem onDocument_repointed {f : Document → Document} {x' y' : Nat}
    (hd : s.editor.documents.get? root = some d)
    (hf : f (d.repointed p q x y) = (f d).repointed p q x' y') :
    (s.repointed root p q x y).onDocument root f =
      (s.onDocument root f).repointed root p q x' y' :=
  onDocument_swap hd hf

/-- It makes no difference which of the two points goes to a position. -/
theorem setPosition_repointed (hd : s.editor.documents.get? root = some d) (x y pos : Nat) :
    (s.repointed root p q x y).onDocument root (·.setPosition q pos) =
      (s.onDocument root (·.setPosition p pos)).repointed root p q x pos :=
  onDocument_swap hd (d.repointed_setPosition p q x y pos)

theorem revised_repointed (hd : s.editor.documents.get? root = some d) (hp : d.HasPoint p)
    (hq : d.HasPoint q) (c : Change) (x y : Nat) :
    ∃ x' y', (d.repointed p q x y).revised c = (d.revised c).repointed p q x' y' ∧
      (s.repointed root p q x y).revised root (d.repointed p q x y) c =
        (s.revised root d c).repointed root p q x' y' := by
  obtain ⟨x', y', hrevised⟩ := Document.revised_repointed hp hq c x y
  have haside : Aside (·.repointed p q x y) d := ⟨rfl, rfl, rfl, fun _ => rfl⟩
  exact ⟨x', y', hrevised, revised_onDocument hd haside hrevised⟩

/-- Through another view a record is taken back in the same way, but for the points. -/
theorem replayed_repointed (hs : s.editor.Shows a v root d) (hp : d.HasPoint v.markers.point)
    (hq : d.HasPoint w.markers.point)
    (hr : ∀ pos text as, r = .delete pos text as → ∀ m ∈ as,
      m.marker ≠ v.markers.point ∧ m.marker ≠ w.markers.point) (x y : Nat) :
    ∃ x' y', (d.repointed v.markers.point w.markers.point x y).replayed w.markers.point r =
        (d.replayed v.markers.point r).repointed v.markers.point w.markers.point x' y' ∧
      (s.repointed root v.markers.point w.markers.point x y).replayed root w
          (d.repointed v.markers.point w.markers.point x y) r =
        (s.replayed root v d r).repointed root v.markers.point w.markers.point x' y' := by
  cases r with
  | insert pos n =>
      obtain ⟨x', y', hd, hs'⟩ := revised_repointed hs.document hp hq (.delete pos (pos + n)) x y
      refine ⟨x', pos, ?_, ?_⟩
      · rw [Document.replayed, hd, Document.repointed_setPosition]
        rfl
      · rw [replayed, hs']
        exact setPosition_repointed (shows_revised hs).document x' y' pos
  | delete pos text as =>
      obtain ⟨x', y', hd, hs'⟩ := revised_repointed hs.document hp hq (.insert pos text) x y
      have has := hr pos text as rfl
      have hadjust := Document.readjustable_repointed has d pos x y
      have hall : ∀ m ∈ d.readjustable pos as,
          m.marker ≠ v.markers.point ∧ m.marker ≠ w.markers.point :=
        fun m hm => has m (List.mem_filter.mp hm).1
      have hshown := shows_revised (c := .insert pos text) hs
      refine ⟨x', pos, ?_, ?_⟩
      · rw [Document.replayed, hd, hadjust, Document.readjustAll_repointed hall,
          Document.repointed_setPosition]
        rfl
      · rw [replayed, hs', hadjust,
          onDocument_repointed hshown.document (Document.readjustAll_repointed hall _ _ _)]
        exact setPosition_repointed (shows_onDocument_self hshown _).document x' y' pos
  | property start stop key value => exact ⟨x, y, rfl, rfl⟩
  | boundary => exact ⟨x, y, rfl, rfl⟩

theorem isHidden_of_wide {c : Document} {ids other : ViewMarkers} (h : d.IsWide ids)
    (h' : c.IsWide other) (hlen : c.length = d.length) (r : Record) :
    r.isHidden (c.extent other) = r.isHidden (d.extent ids) := by
  rw [Record.isHidden, Record.isHidden, h.low, h.high, h'.low, h'.high, hlen]

theorem parallel_repointed (a : ViewId) (v : View) (b : ViewId) (w : View) (root : ViewId) :
    Parallel a v b w root fun s d t c => d.IsWide v.markers ∧ c.IsWide w.markers ∧
      ∃ x y, t = s.repointed root v.markers.point w.markers.point x y ∧
        c = d.repointed v.markers.point w.markers.point x y where
  hidden := by
    rintro s _ d _ ⟨hv, hw, x, y, rfl, rfl⟩ r
    exact isHidden_of_wide hv hw rfl r
  hindered := by
    rintro s _ d _ ⟨-, -, x, y, rfl, rfl⟩
    rfl
  called := by
    rintro s _ d _ ⟨hv, hw, x, y, rfl, rfl⟩ call
    exact ⟨hv, hw, x, y, rfl, rfl⟩
  replayed := by
    rintro s _ d _ r rs ⟨hv, hw, x, y, rfl, rfl⟩ h h' hallows
    have hvisible := hallows.visible
    have hvisible' := (isHidden_of_wide hv hw rfl r).trans hvisible
    have hshown : s.editor.Shows b w root d :=
      ⟨h'.shows.live, h'.shows.root_eq, h.shows.document⟩
    have hseats := h.wellFormed.marking.seated b w root d hshown
    obtain ⟨x', y', hd, hs⟩ := replayed_repointed h.shows ⟨_, h.seats.point⟩
      ⟨_, hseats.point⟩ (fun pos text as hr m hm =>
        ⟨(h.outside hr m hm).point, (h'.outside hr m hm).point⟩) x y
    exact ⟨h.wide_replayed hv (h.seats.fits hvisible),
      h'.wide_replayed hw (h'.seats.fits hvisible'), x', y', hs, hd⟩

end Session

end Editing
