import Editing.Proofs.Session.Ranging
import Mathlib.Logic.ExistsUnique

/-!
# The strongest overlay

Several overlays over one character may have the same property. The one whose value counts has the
greatest rank, and among equals the greatest number. Overlays come in the order of their numbers, so
the last one of the greatest rank is taken. What others there are, and in which order anything was
done, has no part in it.
-/

namespace Editing

namespace Overlays

variable {os : Overlays} {pos : Nat} {key : String} {value : Value} {id : OverlayId} {o : Overlay}

theorem strongest_eq_none {cs : List (Int × Value)} : strongest cs = none ↔ cs = [] := by
  cases cs with
  | nil => exact iff_of_true rfl rfl
  | cons c cs =>
      rw [strongest]
      refine iff_of_false (fun h => ?_) (List.cons_ne_nil c cs)
      cases hs : strongest cs with
      | none =>
          rw [hs] at h
          cases h
      | some d =>
          rw [hs] at h
          dsimp only at h
          split at h <;> cases h

/-- The strongest value is at least as strong as those before it and stronger than those after. -/
theorem exists_of_strongest {cs : List (Int × Value)} {c : Int × Value}
    (h : strongest cs = some c) :
    ∃ before after, cs = before ++ c :: after ∧ (∀ b ∈ before, b.1 ≤ c.1) ∧
      ∀ a ∈ after, a.1 < c.1 := by
  induction cs generalizing c with
  | nil => cases h
  | cons x cs ih =>
      rw [strongest] at h
      cases hs : strongest cs with
      | none =>
          rw [hs] at h
          cases h
          obtain rfl := strongest_eq_none.mp hs
          exact ⟨[], [], rfl, nofun, nofun⟩
      | some d =>
          rw [hs] at h
          obtain ⟨before, after, rfl, hbefore, hafter⟩ := ih hs
          dsimp only at h
          split at h
          · -- The first value is stronger than the strongest of the rest, and so than all of them.
            rename_i hlt
            cases h
            refine ⟨[], before ++ d :: after, rfl, nofun, fun a ha => ?_⟩
            rcases List.mem_append.mp ha with ha | ha
            · exact Int.lt_of_le_of_lt (hbefore a ha) hlt
            · rcases List.mem_cons.mp ha with rfl | ha
              · exact hlt
              · exact Int.lt_trans (hafter a ha) hlt
          · rename_i hle
            cases h
            refine ⟨x :: before, after, rfl, ?_, hafter⟩
            exact List.forall_mem_cons.mpr ⟨Int.not_lt.mp hle, hbefore⟩

/-- What an overlay, as an entry of a table, offers for a property at a position. -/
def offer (pos : Nat) (key : String) (e : OverlayId × Overlay) : Option (Int × Value) :=
  if e.2.covers pos then (e.2.properties.get? key).map fun v => (e.2.priority, v) else none

theorem offers_eq (os : Overlays) (pos : Nat) (key : String) :
    os.offers pos key = os.entries.filterMap (offer pos key) := rfl

theorem offer_eq_some {e : OverlayId × Overlay} {c : Int × Value} :
    offer pos key e = some c ↔
      e.2.covers pos = true ∧ e.2.properties.get? key = some c.2 ∧ e.2.priority = c.1 := by
  obtain ⟨rank, value⟩ := c
  rw [offer]
  split
  · rename_i hcovers
    simp only [hcovers, true_and, Option.map_eq_some_iff, Prod.mk.injEq]
    constructor
    · rintro ⟨v, hv, hrank, rfl⟩
      exact ⟨hv, hrank⟩
    · rintro ⟨hv, hrank⟩
      exact ⟨value, hv, hrank, rfl⟩
  · rename_i hcovers
    exact iff_of_false nofun fun h => hcovers h.1

/-- The property has no value where no overlay over the position has it. -/
theorem charProperty_eq_none :
    os.charProperty pos key = none ↔
      ∀ id o, os.get? id = some o → o.covers pos = true → o.properties.get? key = none := by
  rw [charProperty, Option.map_eq_none_iff, strongest_eq_none, offers_eq,
    List.filterMap_eq_nil_iff]
  constructor
  · intro h id o ho hcovers
    cases hv : o.properties.get? key with
    | none => rfl
    | some v =>
        have hoffer : offer pos key (id, o) = some (o.priority, v) :=
          offer_eq_some.mpr ⟨hcovers, hv, rfl⟩
        rw [h (id, o) (Table.mem_entries.mpr ho)] at hoffer
        cases hoffer
  · rintro h ⟨id, o⟩ hmem
    cases hoffer : offer pos key (id, o) with
    | none => rfl
    | some c =>
        obtain ⟨hcovers, hv, -⟩ := offer_eq_some.mp hoffer
        rw [h id o (Table.mem_entries.mp hmem) hcovers] at hv
        cases hv

/-- The value of a property is that of the overlay of the greatest rank and number. -/
theorem exists_of_charProperty (h : os.charProperty pos key = some value) :
    ∃ id o, os.get? id = some o ∧ o.covers pos = true ∧ o.properties.get? key = some value ∧
      ∀ other b v, os.get? other = some b → b.covers pos = true → b.properties.get? key = some v →
        b.priority < o.priority ∨ b.priority = o.priority ∧ other ≤ id := by
  obtain ⟨c, hc, rfl⟩ := Option.map_eq_some_iff.mp h
  obtain ⟨before, after, hsplit, hbefore, hafter⟩ := exists_of_strongest hc
  rw [offers_eq] at hsplit
  -- The strongest value comes from an entry with the smaller numbers before it.
  obtain ⟨earlier, rest, hentries, rfl, hrest⟩ := List.filterMap_eq_append_iff.mp hsplit
  obtain ⟨skipped, x, later, rfl, hskipped, hx, rfl⟩ := List.filterMap_eq_cons_iff.mp hrest
  obtain ⟨id, o⟩ := x
  obtain ⟨hcovers, hv, hrank⟩ := offer_eq_some.mp hx
  have hascending := os.ascending
  rw [hentries] at hascending
  have hmem : (id, o) ∈ os.entries := by
    rw [hentries]
    simp
  refine ⟨id, o, Table.mem_entries.mp hmem, hcovers, hv, fun other b v hb hbcovers hbv => ?_⟩
  have hoffer : offer pos key (other, b) = some (b.priority, v) :=
    offer_eq_some.mpr ⟨hbcovers, hbv, rfl⟩
  have hother := Table.mem_entries.mpr hb
  rw [hentries, ← List.append_assoc, List.mem_append, List.mem_cons] at hother
  rw [← List.append_assoc] at hascending
  obtain ⟨-, hcons, hcross⟩ := List.pairwise_append.mp hascending
  rw [hrank]
  rcases hother with hother | heq | hother
  · have hlt : other < id := hcross _ hother _ List.mem_cons_self
    rcases List.mem_append.mp hother with hother | hother
    · have hle : b.priority ≤ c.1 :=
        hbefore _ (List.mem_filterMap.mpr ⟨(other, b), hother, hoffer⟩)
      rcases Int.lt_or_eq_of_le hle with hweaker | hequal
      · exact Or.inl hweaker
      · exact Or.inr ⟨hequal, Nat.le_of_lt hlt⟩
    · rw [hskipped _ hother] at hoffer
      cases hoffer
  · cases heq
    exact Or.inr ⟨hrank, Nat.le_refl _⟩
  · exact Or.inl (hafter _ (List.mem_filterMap.mpr ⟨(other, b), hother, hoffer⟩))

end Overlays

namespace Editor

variable {e f : Editor} {root : ViewId} {d : Document} {id : OverlayId} {o : Overlay}
  {covering others : List OverlayId} {key : String}

/-- The rank of an overlay: its property of that name, if that is an integer, and zero otherwise. -/
def rankOf (e : Editor) (id : OverlayId) : Int :=
  match e.overlayGet id Overlay.priorityKey with
  | .ok (some (.int n)) => n
  | _ => 0

/-- One of several overlays has a value for a key, and has a rank. -/
def Offers (e : Editor) (covering : List OverlayId) (key : String) (id : OverlayId) (rank : Int)
    (value : Value) : Prop :=
  id ∈ covering ∧ e.overlayGet id key = .ok (some value) ∧ e.rankOf id = rank

/-- Of several overlays, the one that has a key and is greatest by its rank, then its number. -/
def Strongest (e : Editor) (covering : List OverlayId) (key : String) (id : OverlayId) : Prop :=
  ∃ rank value, e.Offers covering key id rank value ∧
    ∀ other r v, e.Offers covering key other r v → r < rank ∨ r = rank ∧ other ≤ id

theorem Strongest.unique {other : OverlayId} (h : e.Strongest covering key id)
    (hother : e.Strongest covering key other) : other = id := by
  obtain ⟨rank, value, hoffers, hgreatest⟩ := h
  obtain ⟨r, v, hoffers', hgreatest'⟩ := hother
  have hle := hgreatest other r v hoffers'
  have hge := hgreatest' id rank value hoffers
  rcases hle with hweaker | ⟨hequal, hle⟩
  · have hnot : ¬rank < r := Int.not_lt.mpr (Int.le_of_lt hweaker)
    exact absurd (hge.resolve_left hnot).1 (Int.ne_of_gt hweaker)
  · have hnot : ¬rank < r := hequal ▸ Int.lt_irrefl r
    exact Nat.le_antisymm hle (hge.resolve_left hnot).2

theorem Strongest.not_absent (h : e.Strongest covering key id) :
    ¬∀ i ∈ covering, e.overlayGet i key = .ok none := by
  intro habsent
  obtain ⟨rank, value, ⟨hmem, hvalue, -⟩, -⟩ := h
  rw [habsent id hmem] at hvalue
  cases hvalue

theorem Strongest.congr (h : e.Strongest covering key id)
    (hsame : ∀ i r v, f.Offers others key i r v ↔ e.Offers covering key i r v) :
    f.Strongest others key id := by
  obtain ⟨rank, value, hoffers, hgreatest⟩ := h
  exact ⟨rank, value, (hsame id rank value).mpr hoffers,
    fun other r v hother => hgreatest other r v ((hsame other r v).mp hother)⟩

namespace Overlaying

theorem overlayGet_of_found (h : e.Overlaying) (hr : e.Registry)
    (hd : e.documents.get? root = some d) (ho : d.overlays.get? id = some o) (key : String) :
    e.overlayGet id key = .ok (o.properties.get? key) := by
  rw [overlayGet, h.overlay_of_found hr hd ho]
  rfl

theorem rankOf_of_found (h : e.Overlaying) (hr : e.Registry)
    (hd : e.documents.get? root = some d) (ho : d.overlays.get? id = some o) :
    e.rankOf id = o.priority := by
  rw [rankOf, h.overlayGet_of_found hr hd ho, Overlay.priority]
  cases o.properties.get? Overlay.priorityKey with
  | none => rfl
  | some value => cases value <;> rfl

end Overlaying

end Editor

namespace Session

variable {s t : Session} {view w : ViewId} {pos q : Nat} {covering others : List OverlayId}
  {key : String}

/-- Either none of the overlays that cover a position has the property, or the value is the one that
the strongest of them has. -/
theorem Reachable.charProperty_cases (h : s.Reachable) (hlive : s.editor.isLive view = true)
    (hcovering : s.editor.overlaysAt view pos = .ok covering) (key : String) :
    (s.editor.charProperty view pos key = .ok none ∧
      ∀ id ∈ covering, s.editor.overlayGet id key = .ok none) ∨
    ∃ id v, s.editor.charProperty view pos key = .ok (some v) ∧
      s.editor.Strongest covering key id ∧ s.editor.overlayGet id key = .ok (some v) := by
  obtain ⟨hoverlaying, hregistry, v, root, d, hs, -⟩ := h.survey hlive
  rw [hs.overlaysAt_eq] at hcovering
  cases hcovering
  have hvalue : s.editor.charProperty view pos key =
      .ok (Overlays.charProperty d.overlays pos key) := by
    rw [Editor.charProperty, hs.document_eq]
    rfl
  have hget := fun {id : OverlayId} {o : Overlay} (ho : d.overlays.get? id = some o) =>
    hoverlaying.overlayGet_of_found hregistry hs.document ho key
  have hrank := fun {id : OverlayId} {o : Overlay} (ho : d.overlays.get? id = some o) =>
    hoverlaying.rankOf_of_found hregistry hs.document ho
  cases hfound : Overlays.charProperty d.overlays pos key with
  | none =>
      refine Or.inl ⟨by rw [hvalue, hfound], fun id hid => ?_⟩
      obtain ⟨o, ho, hcovers⟩ := Overlays.mem_atPosition.mp hid
      rw [hget ho, Overlays.charProperty_eq_none.mp hfound id o ho hcovers]
  | some value =>
      obtain ⟨id, o, ho, hcovers, hv, hgreatest⟩ := Overlays.exists_of_charProperty hfound
      have hhas : s.editor.overlayGet id key = .ok (some value) := by rw [hget ho, hv]
      have hmem : id ∈ Overlays.atPosition d.overlays pos :=
        Overlays.mem_atPosition.mpr ⟨o, ho, hcovers⟩
      refine Or.inr ⟨id, value, by rw [hvalue, hfound],
        ⟨o.priority, value, ⟨hmem, hhas, hrank ho⟩, ?_⟩, hhas⟩
      rintro other r v ⟨hother, hv, rfl⟩
      obtain ⟨b, hb, hbcovers⟩ := Overlays.mem_atPosition.mp hother
      rw [hget hb] at hv
      rw [hrank hb]
      exact hgreatest other b v hb hbcovers (Except.ok.inj hv)

/-- The value is the same where the same overlays offer the same values with the same ranks. -/
theorem Reachable.charProperty_congr (h : s.Reachable) (hlive : s.editor.isLive view = true)
    (hcovering : s.editor.overlaysAt view pos = .ok covering) (ht : t.Reachable)
    (hw : t.editor.isLive w = true) (hothers : t.editor.overlaysAt w q = .ok others)
    (hsame : ∀ id rank v,
      t.editor.Offers others key id rank v ↔ s.editor.Offers covering key id rank v) :
    t.editor.charProperty w q key = s.editor.charProperty view pos key := by
  rcases h.charProperty_cases hlive hcovering key with ⟨hvalue, habsent⟩ | ⟨id, v, hvalue, hid, hv⟩
  · rcases ht.charProperty_cases hw hothers key with ⟨hvalue', -⟩ | ⟨id, v, -, hid, -⟩
    · rw [hvalue, hvalue']
    · exact absurd habsent (hid.congr fun i r v => (hsame i r v).symm).not_absent
  · rcases ht.charProperty_cases hw hothers key with
      ⟨-, habsent⟩ | ⟨id', v', hvalue', hid', hv'⟩
    · exact absurd habsent (hid.congr hsame).not_absent
    · obtain rfl := hid.unique (hid'.congr fun i r v => (hsame i r v).symm)
      obtain ⟨rank, found, ⟨hmem, hfound, hrank⟩, -⟩ := hid'
      obtain rfl := Option.some.inj (Except.ok.inj (hfound.symm.trans hv'))
      obtain ⟨-, hboth, -⟩ := (hsame id' rank found).mp ⟨hmem, hfound, hrank⟩
      rw [hvalue, hvalue', ← hv, hboth]

/-- At every position of a live view a property has no value exactly if none of the overlays that
cover the position has the property. Otherwise one of those that have it is the strongest, and the
value is the one that it has, which may be nil. So the value is the same wherever the same overlays
offer the same values with the same ranks, whatever else there is and however it came about. -/
theorem charProperty_from_strongest (h : s.Reachable) (hlive : s.editor.isLive view = true)
    (pos : Nat) (key : String) :
    ∃ covering value, s.editor.overlaysAt view pos = .ok covering ∧
      s.editor.charProperty view pos key = .ok value ∧
      (value = none ↔ ∀ id ∈ covering, s.editor.overlayGet id key = .ok none) ∧
      (value ≠ none → ∃! id, s.editor.Strongest covering key id) ∧
      (∀ id, s.editor.Strongest covering key id → s.editor.overlayGet id key = .ok value) ∧
      ∀ t : Session, t.Reachable → ∀ w, t.editor.isLive w = true → ∀ q others,
        t.editor.overlaysAt w q = .ok others →
        (∀ id rank v, t.editor.Offers others key id rank v ↔
          s.editor.Offers covering key id rank v) →
        t.editor.charProperty w q key = .ok value := by
  obtain ⟨-, -, v, root, d, hs, -⟩ := h.survey hlive
  have hcovering := hs.overlaysAt_eq pos
  have hcongr : ∀ t : Session, t.Reachable → ∀ w, t.editor.isLive w = true → ∀ q others,
      t.editor.overlaysAt w q = .ok others →
      (∀ id rank v, t.editor.Offers others key id rank v ↔
        s.editor.Offers _ key id rank v) →
      t.editor.charProperty w q key = s.editor.charProperty view pos key :=
    fun t ht w hw q others hothers => h.charProperty_congr hlive hcovering ht hw hothers
  rcases h.charProperty_cases hlive hcovering key with ⟨hvalue, habsent⟩ | ⟨id, v, hvalue, hid, hv⟩
  · rw [hvalue] at hcongr
    exact ⟨_, none, hcovering, hvalue, ⟨fun _ => habsent, fun _ => rfl⟩, fun hne => absurd rfl hne,
      fun id hid => absurd habsent hid.not_absent, hcongr⟩
  · rw [hvalue] at hcongr
    refine ⟨_, some v, hcovering, hvalue,
      ⟨nofun, fun habsent => absurd habsent hid.not_absent⟩,
      fun _ => ⟨id, hid, fun other hother => hid.unique hother⟩, fun other hother => ?_, hcongr⟩
    rw [hid.unique hother, hv]

/-- Five overlays of which four cover the character at 1. Two of them share the greatest rank, one
has a priority that is no integer, and the one with the greatest priority lacks the property. The
oldest one was deleted and has come back. -/
def sharedRank : List Op :=
  [.createRoot "v", .insert 0 "abcd".toList, .makeOverlay 0 0 4 false false,
    .makeOverlay 0 0 2 false false, .makeOverlay 0 1 3 false false, .makeOverlay 0 0 4 false false,
    .makeOverlay 0 2 4 false false, .overlayPut 0 "face" (.str "old"),
    .overlayPut 0 "priority" (.int (-1)), .overlayPut 1 "priority" (.str "9"),
    .overlayPut 1 "face" (.str "odd"), .overlayPut 2 "face" .nil, .overlayPut 3 "priority" (.int 9),
    .overlayPut 4 "face" (.str "late"), .overlayPut 4 "priority" (.int 5), .deleteOverlay 0,
    .moveOverlay 0 0 3 1]

theorem sharedRank_strongest :
    let s := (fresh .default none).afterAll sharedRank
    s.Reachable ∧ s.editor.isLive 0 = true ∧ s.editor.overlaysAt 0 1 = .ok [0, 1, 2, 3] ∧
      s.editor.charProperty 0 1 "face" = .ok (some .nil) ∧
      (∃! id, s.editor.Strongest [0, 1, 2, 3] "face" id) ∧
      ∀ id, s.editor.Strongest [0, 1, 2, 3] "face" id →
        s.editor.overlayGet id "face" = .ok (some .nil) := by
  intro s
  have hreachable : s.Reachable := (Reachable.fresh .default none).afterAll sharedRank
  have hlive : s.editor.isLive 0 = true := by decide +kernel
  have hat : s.editor.overlaysAt 0 1 = .ok [0, 1, 2, 3] := by decide +kernel
  have hnil : s.editor.charProperty 0 1 "face" = .ok (some .nil) := by decide +kernel
  obtain ⟨covering, value, hcovering, hvalue, -, honce, hstrongest, -⟩ :=
    charProperty_from_strongest hreachable hlive 1 "face"
  obtain rfl := Except.ok.inj (hat.symm.trans hcovering)
  obtain rfl := Except.ok.inj (hnil.symm.trans hvalue)
  exact ⟨hreachable, hlive, hat, hnil, honce (Option.some_ne_none _), hstrongest⟩

end Session

end Editing
