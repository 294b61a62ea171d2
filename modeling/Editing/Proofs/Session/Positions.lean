import Editing.Proofs.Session.Enduring

/-!
# Positions in order

Three stores hold positions in a text: the markers of views, the markers of the user, and overlays.
At every moment of a run all of them lie within the text, the point of a view lies between its
bounds, and an overlay starts no later than it ends. So what a view shows is what its markers say.
-/

namespace Editing

/-! ## Overlays lie within the text -/

namespace Overlay

theorem afterInsert_le (o : Overlay) (pos length : Nat) {n : Nat} (h : o.stop ≤ n) :
    (o.afterInsert pos length).start ≤ (o.afterInsert pos length).stop ∧
      (o.afterInsert pos length).stop ≤ n + length :=
  ⟨Nat.min_le_right _ _, Position.afterInsert_le h⟩

theorem afterDelete_le {o : Overlay} {start stop n : Nat} (hs : start ≤ stop) (hn : stop ≤ n)
    (hle : o.start ≤ o.stop) (h : o.stop ≤ n) :
    (o.afterDelete start stop).start ≤ (o.afterDelete start stop).stop ∧
      (o.afterDelete start stop).stop ≤ n - (stop - start) :=
  ⟨Position.afterDelete_mono hs hle, Position.afterDelete_le hs hn h⟩

end Overlay

namespace Document

/-- Every overlay of the document starts no later than it ends, within the text. -/
def Covered (d : Document) : Prop :=
  ∀ id o, d.overlays.get? id = some o → o.start ≤ o.stop ∧ o.stop ≤ d.length

namespace Covered

variable {d : Document}

theorem insert (h : d.Covered) (pos : Nat) (s : Text) : (d.insert pos s).Covered := by
  intro id o ho
  have hmap : (d.insert pos s).overlays.get? id =
      (d.overlays.get? id).map (·.afterInsert pos s.length) := Table.get?_map _ _ _
  have hlength : (d.insert pos s).length = d.length + s.length := Text.length_insert _ _ _
  rw [hmap] at ho
  obtain ⟨o, hold, rfl⟩ := Option.map_eq_some_iff.mp ho
  rw [hlength]
  exact o.afterInsert_le pos s.length (h id o hold).2

theorem delete (h : d.Covered) {start stop : Nat} (hs : start ≤ stop) (hstop : stop ≤ d.length) :
    (d.delete start stop).Covered := by
  intro id o ho
  have hmap : (d.delete start stop).overlays.get? id =
      (d.overlays.get? id).map (·.afterDelete start stop) := Table.get?_map _ _ _
  have hlength : (d.delete start stop).length = d.length - (stop - start) := by
    change (d.text.remove start stop).length = _
    rw [Text.length_remove, Text.length_slice,
      Nat.min_eq_left (show stop ≤ d.text.length from hstop)]
    rfl
  rw [hmap] at ho
  obtain ⟨o, hold, rfl⟩ := Option.map_eq_some_iff.mp ho
  rw [hlength]
  exact Overlay.afterDelete_le hs hstop (h id o hold).1 (h id o hold).2

theorem place (h : d.Covered) (id : OverlayId) {o : Overlay} (hle : o.start ≤ o.stop)
    (hin : o.stop ≤ d.length) : Covered { d with overlays := d.overlays.insert id o } := by
  intro other p hp
  rw [Table.get?_insert] at hp
  split at hp
  · cases hp
    exact ⟨hle, hin⟩
  · exact h other p hp

end Covered

theorem covered_enduring : Enduring Covered where
  empty _ _ h := by cases h
  mark _ _ h := h
  relog _ _ h := h
  apply d c hrange h := by
    cases c with
    | insert pos s => exact Covered.insert h pos s
    | delete start stop =>
        obtain ⟨hs, hstop⟩ := Change.delete_le hrange
        exact Covered.delete h hs hstop
    | property start stop key value => exact h
  save _ h := h
  visit _ _ h := h
  place _ id _ hle hin h := h.place id hle hin
  put _ id o _ ho h := h.place id (h id o ho).1 (h id o ho).2
  erase _ id h other o ho := by
    rw [Table.get?_erase] at ho
    split at ho
    · cases ho
    · exact h other o ho
  clear _ _ _ _ h := by cases h

end Document

/-! ## Runs -/

namespace Session

variable {s : Session}

/-- A marker of the user lies within the text of its document. -/
theorem Settled.user_le (h : s.Settled) {root : ViewId} {d : Document} {marker : MarkerId}
    {m : Marker} (hd : s.editor.documents.get? root = some d)
    (hm : d.markers.get? marker = some m) (hkind : m.kind = .user) : m.position ≤ d.length := by
  obtain ⟨u, view, hu, hhome⟩ := h.2.known root d marker m hd hm hkind
  obtain ⟨v, c, hs, p, hp, hle⟩ := h.2.homed marker u ⟨view, root⟩ hu hhome
  obtain rfl := Option.some.inj (hs.document.symm.trans hd)
  obtain rfl := Option.some.inj (hp.symm.trans hm)
  exact hle

/-- At every moment of a run, and for every live root: the markers of each of its views lie in its
document with the point between the bounds and the bounds within the text, and the view shows just
what they say; the user's markers lie within the text; and so do overlays, whose starts are not
after their ends. -/
theorem positions_in_order (limits : Limits) (locks : Option LockProtocol) (steps : List Step)
    {t : Session}
    (ht : t ∈ (takeAll steps (fresh limits locks)).2 :: runMoments steps (fresh limits locks))
    {root : ViewId} (hroot : root ∈ t.editor.rootList) :
    ∃ d, t.editor.documents.get? root = some d ∧
      (∀ view v, t.editor.views.get? view = some v → t.editor.rootOf view = .ok root →
        ∃ low point high : Marker,
          d.markers.get? v.markers.low = some low ∧ d.markers.get? v.markers.point = some point ∧
          d.markers.get? v.markers.high = some high ∧
          low.kind = .view ∧ point.kind = .view ∧ high.kind = .view ∧
          low.position ≤ point.position ∧ point.position ≤ high.position ∧
          high.position ≤ d.length ∧
          t.editor.extent view = .ok ⟨point.position, low.position, high.position⟩) ∧
      (∀ marker m, d.markers.get? marker = some m → m.kind = .user → m.position ≤ d.length) ∧
      ∀ overlay o, d.overlays.get? overlay = some o → o.start ≤ o.stop ∧ o.stop ≤ d.length := by
  have hsettled := run_settled ht
  have hcovered := Document.covered_enduring.lasting.run steps _ (fresh_atRest limits locks)
    (fresh_every limits locks) t ht
  obtain ⟨w, hw, hb⟩ := Act.mem_rootList.mp hroot
  obtain ⟨d, hd⟩ := hsettled.1.owned root w hw hb
  refine ⟨d, hd, ?_, ?_, hcovered root d hd⟩
  · intro view v hv hrootOf
    obtain ⟨v', c, hs⟩ := hsettled.1.shows_of_rootOf hrootOf
    obtain rfl := Option.some.inj (hs.live.symm.trans hv)
    obtain rfl := Option.some.inj (hs.document.symm.trans hd)
    have hseats := hsettled.2.seated view v' root c hs
    exact ⟨_, _, _, hseats.low, hseats.point, hseats.high, rfl, rfl, rfl, hseats.low_le,
      hseats.le_high, hseats.high_le, hs.extent_eq⟩
  · exact fun marker m hm hkind => hsettled.user_le hd hm hkind

/-- A run with a narrowed indirect view, a marker and an overlay, whose undo stops on the way. -/
def crowdedRun : List Step :=
  [.op (.createRoot "v"), .op (.insert 0 "abc".toList), .op (.createIndirect 0 "w"),
    .op (.narrow 1 1 2), .op .makeMarker, .op (.placeMarker 6 0 2),
    .op (.makeOverlay 0 3 1 false false), .op (.closeGroup 0), .op (.insertRaw 1 0 ['x']),
    .op (.insertRaw 1 4 ['y']), .op (.narrow 0 3 5), .op (.undo 0)]

theorem crowdedRun_in_order :
    0 ∈ (takeAll crowdedRun (fresh .default none)).2.editor.rootList ∧
      (takeAll crowdedRun (fresh .default none)).2.editor.extent 1 = .ok ⟨3, 2, 3⟩ ∧
      (takeAll crowdedRun (fresh .default none)).2.editor.overlayEnd 0 = .ok (some 4) ∧
      ∃ d, (takeAll crowdedRun (fresh .default none)).2.editor.documents.get? 0 = some d ∧
        (∀ marker m, d.markers.get? marker = some m → m.kind = .user → m.position ≤ d.length) ∧
        ∀ overlay o, d.overlays.get? overlay = some o → o.start ≤ o.stop ∧ o.stop ≤ d.length := by
  have hroot : 0 ∈ (takeAll crowdedRun (fresh .default none)).2.editor.rootList := by
    decide +kernel
  obtain ⟨d, hd, -, husers, hoverlays⟩ :=
    positions_in_order .default none crowdedRun List.mem_cons_self hroot
  exact ⟨hroot, by decide +kernel, by decide +kernel, d, hd, husers, hoverlays⟩

end Session

end Editing
