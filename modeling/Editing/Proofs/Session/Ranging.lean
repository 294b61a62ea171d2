import Editing.Proofs.Session.Answering
import Editing.Proofs.Session.Positions
import Editing.Proofs.Session.Visible

/-!
# Overlays by place

The overlays of a text are asked for by the region that they meet, by the character that they
cover, or all together. An empty overlay covers no character, so where it lies at the border of two
regions it counts for the later one, and for the earlier one only if the accessible part ends there.
Cutting a region in two still neither loses an overlay nor adds one, and the region of the whole
text has all of them.
-/

namespace Editing

namespace Overlay

variable {o : Overlay} {start stop textEnd : Nat}

theorem covers_iff {pos : Nat} : o.covers pos = true ↔ o.start ≤ pos ∧ pos < o.stop := by
  simp [covers]

theorem meets_iff :
    o.meets start stop textEnd = true ↔
      (start < o.stop ∧ o.start < stop) ∨
        o.start = o.stop ∧ (start = o.stop ∨ stop = textEnd ∧ o.stop = stop) := by
  simp [meets, isEmpty]

/-- Every overlay within the text meets the whole of it. -/
theorem meets_whole {length : Nat} (hle : o.start ≤ o.stop) (hin : o.stop ≤ length) :
    o.meets 0 length length = true := by
  rw [meets_iff]
  rcases Nat.lt_or_eq_of_le hle with hlt | hempty
  · exact Or.inl ⟨by omega, by omega⟩
  · -- An empty overlay lies at the start, inside or at the end of the text.
    rcases Nat.eq_zero_or_pos o.stop with hstart | hpos
    · exact Or.inr ⟨hempty, Or.inl hstart.symm⟩
    · rcases Nat.lt_or_eq_of_le hin with hinside | hend
      · exact Or.inl ⟨hpos, by omega⟩
      · exact Or.inr ⟨hempty, Or.inr ⟨rfl, hend⟩⟩

/-- Two regions side by side, of which the later one is not empty, meet what they meet together. -/
theorem meets_adjacent (hle : o.start ≤ o.stop) {a b c : Nat} (hab : a ≤ b) (hbc : b < c) :
    o.meets a c textEnd = true ↔ o.meets a b textEnd = true ∨ o.meets b c textEnd = true := by
  rw [meets_iff, meets_iff, meets_iff]
  rcases Nat.lt_or_eq_of_le hle with hlt | hempty
  · have hne : o.start ≠ o.stop := Nat.ne_of_lt hlt
    simp only [hne, false_and, or_false]
    omega
  · simp only [hempty, true_and]
    omega

/-- The overlays that cover a character are those that meet it and are not empty. -/
theorem covers_iff_meets {pos : Nat} :
    o.covers pos = true ↔ o.meets pos (pos + 1) textEnd = true ∧ o.start ≠ o.stop := by
  rw [covers_iff, meets_iff]
  constructor
  · rintro ⟨hstart, hstop⟩
    exact ⟨Or.inl ⟨hstop, Nat.lt_succ_of_le hstart⟩, by omega⟩
  · rintro ⟨⟨hstop, hstart⟩ | ⟨hempty, -⟩, hne⟩
    · exact ⟨Nat.le_of_lt_succ hstart, hstop⟩
    · exact absurd hempty hne

end Overlay

namespace Overlays

variable {os : Overlays} {p : Overlay → Bool} {id : OverlayId}

theorem mem_select : id ∈ os.select p ↔ ∃ o, os.get? id = some o ∧ p o = true := by
  simp only [select, List.mem_map, List.mem_filter]
  constructor
  · rintro ⟨⟨i, o⟩, ⟨hmem, hp⟩, rfl⟩
    exact ⟨o, Table.mem_entries.mp hmem, hp⟩
  · rintro ⟨o, ho, hp⟩
    exact ⟨(id, o), ⟨Table.mem_entries.mpr ho, hp⟩, rfl⟩

theorem select_ascending (os : Overlays) (p : Overlay → Bool) :
    (os.select p).Pairwise (· < ·) :=
  List.pairwise_map.mpr (os.ascending.filter _)

/-- A test that all overlays pass selects all of them. -/
theorem select_eq_keys (h : ∀ id o, os.get? id = some o → p o = true) : os.select p = os.keys := by
  rw [select, Table.keys, List.filter_eq_self.mpr]
  rintro ⟨i, o⟩ hmem
  exact h i o (Table.mem_entries.mp hmem)

theorem overRegion_eq (os : Overlays) (p q textEnd : Nat) :
    os.overRegion p q textEnd = os.select fun o =>
      o.meets (Position.ordered p q).1 (Position.ordered p q).2 textEnd := rfl

theorem overRegion_of_le (os : Overlays) {a b : Nat} (hab : a ≤ b) (textEnd : Nat) :
    os.overRegion a b textEnd = os.select fun o => o.meets a b textEnd := by
  rw [overRegion_eq, Position.ordered, if_pos hab]

theorem overRegion_comm (os : Overlays) (p q textEnd : Nat) :
    os.overRegion p q textEnd = os.overRegion q p textEnd := by
  rw [overRegion_eq, overRegion_eq, Position.ordered_comm]

theorem overRegion_ascending (os : Overlays) (p q textEnd : Nat) :
    (os.overRegion p q textEnd).Pairwise (· < ·) := by
  rw [overRegion_eq]
  exact os.select_ascending _

theorem mem_overRegion {a b textEnd : Nat} (hab : a ≤ b) :
    id ∈ os.overRegion a b textEnd ↔
      ∃ o, os.get? id = some o ∧ o.meets a b textEnd = true := by
  rw [overRegion_of_le os hab, mem_select]

theorem mem_atPosition {pos : Nat} :
    id ∈ os.atPosition pos ↔ ∃ o, os.get? id = some o ∧ o.covers pos = true :=
  mem_select

end Overlays

/-! ## What the questions find -/

namespace Editor

variable {e : Editor} {view root : ViewId} {v : View} {d : Document} {id : OverlayId} {o : Overlay}

namespace Shows

theorem size_eq (h : e.Shows view v root d) : e.size view = .ok d.length := by
  rw [Editor.size, h.document_eq]
  rfl

theorem overlaysIn_eq (h : e.Shows view v root d) (p q : Nat) :
    e.overlaysIn view p q = .ok (Overlays.overRegion d.overlays p q (d.extent v.markers).high) := by
  rw [overlaysIn, pointMax, h.extent_eq, h.document_eq]
  rfl

theorem overlaysAt_eq (h : e.Shows view v root d) (pos : Nat) :
    e.overlaysAt view pos = .ok (Overlays.atPosition d.overlays pos) := by
  rw [overlaysAt, h.document_eq]
  rfl

theorem overlayList_eq (h : e.Shows view v root d) :
    e.overlayList view = .ok d.overlays.keys := by
  rw [overlayList, h.document_eq]
  rfl

end Shows

namespace Overlaying

/-- An overlay that lies in the document of a root is at home there, and is found there. -/
theorem found (h : e.Overlaying) (hr : e.Registry) (hd : e.documents.get? root = some d)
    (ho : d.overlays.get? id = some o) :
    e.overlayHome id = .ok (.attached root) ∧ e.attachedOverlay root id = .ok o :=
  ⟨overlayHome_of_get ((h.attached id root).mpr ⟨d, o, hd, ho⟩), hr.attachedOverlay_eq hd ho⟩

theorem overlay_of_found (h : e.Overlaying) (hr : e.Registry) (hd : e.documents.get? root = some d)
    (ho : d.overlays.get? id = some o) : e.overlay id = .ok o := by
  obtain ⟨hhome, hattached⟩ := h.found hr hd ho
  rw [Editor.overlay, hhome]
  exact hattached

theorem bounds_of_found (h : e.Overlaying) (hr : e.Registry) (hd : e.documents.get? root = some d)
    (ho : d.overlays.get? id = some o) :
    e.overlayStart id = .ok (some o.start) ∧ e.overlayEnd id = .ok (some o.stop) := by
  obtain ⟨hhome, hattached⟩ := h.found hr hd ho
  have hlies : e.overlayInText id = .ok (some o) := by
    rw [overlayInText, hhome]
    simp only [bind, Except.bind, hattached]
    rfl
  rw [overlayStart, overlayEnd, hlies]
  exact ⟨rfl, rfl⟩

/-- The overlays of a document are those that are at home in its root. -/
theorem mem_keys_iff (h : e.Overlaying) (hd : e.documents.get? root = some d) :
    id ∈ d.overlays.keys ↔ e.overlayRoot id = .ok (some root) := by
  have hhome : e.overlayRoot id = .ok (some root) ↔
      e.overlayHomes.get? id = some (.attached root) := by
    rw [overlayRoot, overlayHome]
    cases e.overlayHomes.get? id with
    | none => simp [bind, Except.bind]
    | some home => cases home <;> simp [bind, Except.bind, pure, Except.pure]
  rw [Table.mem_keys, holds_of_get hd, ← h.attached id root, hhome]

end Overlaying

end Editor

namespace Session

variable {s : Session} {view : ViewId}

/-- What a live view shows, when the overlays of its document lie in the text and are at home. -/
theorem Reachable.survey (h : s.Reachable) (hlive : s.editor.isLive view = true) :
    s.editor.Overlaying ∧ s.editor.Registry ∧
      ∃ v root d, s.editor.Shows view v root d ∧ d.Covered := by
  have hregistry := h.atRest.wellFormed.registry
  obtain ⟨v, hv⟩ := Act.isLive_iff.mp hlive
  obtain ⟨root, d, hs⟩ := hregistry.shows_of_live hv
  exact ⟨overlaying_lasting.reachable fresh_overlaying h, hregistry, v, root, d, hs,
    Document.covered_enduring.lasting.reachable fresh_every h root d hs.document⟩

/-- The questions for overlays by place are answered for every live view, in ascending order. All
overlays are those at home in the root of the view, and a view that is not narrowed finds all of
them in the region of the whole text. A region, wherever it lies, has just the overlays of the two
regions into which it is cut, as long as the later one is not empty; its bounds may be given in
either order. The overlays that cover a character are those of its region that are not empty. -/
theorem overlays_found_by_place (h : s.Reachable) (hlive : s.editor.isLive view = true) :
    ∃ (root size : Nat) (all : List OverlayId) (meeting : Nat → Nat → List OverlayId)
      (covering : Nat → List OverlayId),
      s.editor.rootOf view = .ok root ∧ s.editor.size view = .ok size ∧
      s.editor.overlayList view = .ok all ∧
      (∀ p q, s.editor.overlaysIn view p q = .ok (meeting p q)) ∧
      (∀ pos, s.editor.overlaysAt view pos = .ok (covering pos)) ∧
      all.Pairwise (· < ·) ∧ (∀ p q, (meeting p q).Pairwise (· < ·)) ∧
      (∀ pos, (covering pos).Pairwise (· < ·)) ∧
      (∀ id, id ∈ all ↔ s.editor.overlayRoot id = .ok (some root)) ∧
      (s.editor.isNarrowed view = .ok false → meeting 0 size = all) ∧
      (∀ a b c, a ≤ b → b < c → ∀ id, id ∈ meeting a c ↔ id ∈ meeting a b ∨ id ∈ meeting b c) ∧
      (∀ p q, meeting p q = meeting q p) ∧
      ∀ pos id, id ∈ covering pos ↔
        id ∈ meeting pos (pos + 1) ∧ s.editor.overlayStart id ≠ s.editor.overlayEnd id := by
  obtain ⟨hoverlaying, hregistry, v, root, d, hs, hcovered⟩ := h.survey hlive
  refine ⟨root, d.length, d.overlays.keys,
    fun p q => Overlays.overRegion d.overlays p q (d.extent v.markers).high,
    fun pos => Overlays.atPosition d.overlays pos, hs.rootOf_eq, hs.size_eq, hs.overlayList_eq,
    hs.overlaysIn_eq, hs.overlaysAt_eq, d.overlays.keys_ascending,
    fun p q => Overlays.overRegion_ascending _ p q _, fun pos => Overlays.select_ascending _ _,
    fun id => hoverlaying.mem_keys_iff hs.document, fun hwide => ?_, fun a b c hab hbc id => ?_,
    fun p q => Overlays.overRegion_comm _ p q _, fun pos id => ?_⟩
  · change Overlays.overRegion d.overlays 0 d.length _ = _
    rw [(hs.isWide hwide).high, Overlays.overRegion_of_le _ (Nat.zero_le _)]
    refine Overlays.select_eq_keys fun id o ho => ?_
    obtain ⟨hle, hin⟩ := hcovered id o ho
    exact Overlay.meets_whole hle hin
  · rw [Overlays.mem_overRegion hab, Overlays.mem_overRegion (Nat.le_of_lt hbc),
      Overlays.mem_overRegion (Nat.le_trans hab (Nat.le_of_lt hbc)), ← exists_or]
    refine exists_congr fun o => ?_
    rw [← and_or_left]
    exact and_congr_right fun ho => Overlay.meets_adjacent (hcovered id o ho).1 hab hbc
  · rw [Overlays.mem_overRegion (Nat.le_succ pos), Overlays.mem_atPosition, ← exists_and_right]
    refine exists_congr fun o => ?_
    rw [and_assoc]
    refine and_congr_right fun ho => ?_
    obtain ⟨hstart, hstop⟩ := hoverlaying.bounds_of_found hregistry hs.document ho
    rw [Overlay.covers_iff_meets, hstart, hstop, ne_eq, ne_eq, Except.ok.injEq,
      Option.some.injEq]

/-- Of four overlays in a text, three are empty: at its start, at its end, and at the end of what an
indirect view shows. A fifth one is deleted. -/
def emptyAtBorders : List Op :=
  [.createRoot "v", .insert 0 "abcd".toList, .makeOverlay 0 0 0 false false,
    .makeOverlay 0 3 1 false false, .makeOverlay 0 9 4 true false, .makeOverlay 0 2 2 false true,
    .makeOverlay 0 0 4 false false, .deleteOverlay 4, .createIndirect 0 "part", .narrow 1 1 2]

theorem emptyAtBorders_found :
    let s := (fresh .default none).afterAll emptyAtBorders
    s.Reachable ∧ s.editor.isLive 0 = true ∧ s.editor.isNarrowed 0 = .ok false ∧
      s.editor.overlaysIn 0 0 4 = .ok [0, 1, 2, 3] ∧
      s.editor.isLive 1 = true ∧ s.editor.overlaysIn 1 1 2 = .ok [1, 3] ∧
      s.editor.overlaysIn 1 2 9 = .ok [1, 2, 3] ∧
      ∃ whole, s.editor.overlaysIn 1 9 1 = .ok whole ∧ whole.Pairwise (· < ·) ∧
        ∀ id, id ∈ whole ↔ id ∈ [1, 3] ∨ id ∈ [1, 2, 3] := by
  intro s
  have hreachable : s.Reachable := (Reachable.fresh .default none).afterAll emptyAtBorders
  have hroot : s.editor.isLive 0 = true := by decide +kernel
  have hindirect : s.editor.isLive 1 = true := by decide +kernel
  have hwide : s.editor.isNarrowed 0 = .ok false := by decide +kernel
  have hsize : s.editor.size 0 = .ok 4 := by decide +kernel
  have hlist : s.editor.overlayList 0 = .ok [0, 1, 2, 3] := by decide +kernel
  have hearlier : s.editor.overlaysIn 1 1 2 = .ok [1, 3] := by decide +kernel
  have hlater : s.editor.overlaysIn 1 2 9 = .ok [1, 2, 3] := by decide +kernel
  obtain ⟨-, n, all, meeting, -, -, hn, hall, hin, -, -, -, -, -, hcomplete, -⟩ :=
    overlays_found_by_place hreachable hroot
  obtain rfl := Except.ok.inj (hsize.symm.trans hn)
  obtain rfl := Except.ok.inj (hlist.symm.trans hall)
  obtain ⟨-, -, -, within, -, -, -, -, hwithin, -, -, hascending, -, -, -, hcut, hswap, -⟩ :=
    overlays_found_by_place hreachable hindirect
  have h12 := Except.ok.inj (hearlier.symm.trans (hwithin 1 2))
  have h29 := Except.ok.inj (hlater.symm.trans (hwithin 2 9))
  refine ⟨hreachable, hroot, hwide, by rw [hin, hcomplete hwide], hindirect, hearlier, hlater,
    within 9 1, hwithin 9 1, hascending 9 1, fun id => ?_⟩
  rw [hswap 9 1, h12, h29]
  exact hcut 1 2 9 (by decide) (by decide) id

end Session

end Editing
