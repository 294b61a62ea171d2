import Editing.Proofs.Machine.Undoing

/-!
# Markers sent beyond what words hold

Where an undo sends a marker to a place that a word with a sign does not hold, the undo has no
result in words. It takes a text as long as half of what such a word can count: a marker at its end
is left at its start by a deletion, and made to advance before the text is put back.
-/

namespace Editing

namespace Document

variable {exempt : Marker → MarkerAdjustment → Bool} {d : Document} {a : MarkerAdjustment}
  {as : List MarkerAdjustment}

theorem exists_of_not_receives (h : ¬d.Receives exempt a) :
    ∃ m, d.markers.get? a.marker = some m ∧ exempt m a = false ∧
      ¬(-(maxInteger : Int) - 1 ≤ m.position - a.amount ∧ m.position - a.amount ≤ maxInteger) :=
  Classical.byContradiction fun hnone => h fun m hm hexempt =>
    Classical.byContradiction fun hout => hnone ⟨m, hm, hexempt, hout⟩

theorem readjust?_eq_none (hlength : d.length ≤ maxInteger) (hplaced : d.Placed)
    (h : ¬d.Receives exempt a) : d.readjust? exempt a = none := by
  obtain ⟨m, hm, hexempt, hout⟩ := exists_of_not_receives h
  have hposition : m.position ≤ maxInteger := Nat.le_trans (hplaced a.marker m hm) hlength
  have hnone : Machine.signedSub m.position a.amount = none := if_neg hout
  simp only [readjust?, hm, hexempt, Bool.false_eq_true, if_false, Machine.signed_eq hposition,
    Option.bind_eq_bind, Option.bind_some, hnone, Option.bind_none]

/-- One marker that is sent too far is enough. -/
theorem readjustAll?_eq_none (hlength : d.length ≤ maxInteger) (hplaced : d.Placed)
    (honce : as.Pairwise fun a b => a.marker ≠ b.marker) (ha : a ∈ as)
    (h : ¬d.Receives exempt a) : readjustAll? exempt as d = none := by
  induction as generalizing d with
  | nil => cases ha
  | cons b as ih =>
      obtain ⟨hapart, honce⟩ := List.pairwise_cons.mp honce
      rw [readjustAll?]
      by_cases hb : d.Receives exempt b
      · rw [readjust?_eq hlength hplaced hb]
        have hne : a ≠ b := fun heq => h (heq ▸ hb)
        have ha := (List.mem_cons.mp ha).resolve_left hne
        have hsame : (d.readjust b).length = d.length :=
          congrArg List.length (d.text_readjustAll [b])
        refine ih (hsame ▸ hlength) (hplaced.readjust b) honce ha fun hreceives => h ?_
        have hother : ([b].foldl readjust d).markers.get? a.marker = d.markers.get? a.marker :=
          get?_readjustAll_of_ne fun c hc => by
            rw [List.mem_singleton.mp hc]
            exact hapart a ha
        intro m hm
        exact hreceives m (hother.trans hm)
      · rw [readjust?_eq_none hlength hplaced hb]
        rfl

end Document

namespace Machine

open Session (shows_revised)

variable {exempt : Marker → MarkerAdjustment → Bool} {s t : Session} {view root : ViewId} {v : View}
  {d : Document} {rs : List Record} {pos : Nat} {text : Text} {as : List MarkerAdjustment}
  {a : MarkerAdjustment}

theorem run_changeShown_of_none (hs : s.editor.Shows view v root d)
    {f : Document → Option Document} (hf : f d = none) : (changeShown view f).run s = none := by
  rw [changeShown, run_plainly_ask_bind, hs.document_eq]
  simp only [run_plainly_ask_bind, hs.rootOf_eq]
  rw [changeDocument, run_plainly_bind (Editing.Act.run_get s)]
  simp only [hs.document]
  exact run_bind_of_none (by rw [hf]; rfl)

/-- A record that sends a marker too far is not taken back in words, though it can be. -/
theorem run_replay_of_far (h : s.Replaying view v root d (.delete pos text as :: rs))
    (hfits : s.Every Document.Fits) (hm : (Record.delete pos text as).Measured)
    (hrun : (Editing.Act.replay view root (.delete pos text as)).run s = (.ok (), t))
    (hwithin : t.Every (Document.Within maxInteger)) (ha : a ∈ d.readjustable pos as)
    (hout : ¬Document.Receives exempt (d.revised (.insert pos text)) a) :
    (replay exempt view root (.delete pos text as)).run s = none := by
  obtain ⟨w, hw, -⟩ := h.wellFormed.registry.shows_root h.shows.document
  have hready : Ready s := ⟨h.wellFormed, hfits⟩
  have hlast : ((Editing.Act.replay view root (.delete pos text as)).run s).2.Every
      (Document.Within maxInteger) := by rwa [hrun]
  obtain ⟨_, hvisible, hrun⟩ := Editing.Act.exists_of_ask_bind hrun
  obtain ⟨b, hb, hrun⟩ := Editing.Act.exists_of_ask_bind hrun
  obtain rfl := Except.ok.inj (hw.document_eq.symm.trans hb)
  obtain ⟨_, u, hinsert, -⟩ := Editing.Act.exists_of_bind hrun
  have hagrees : (insertAt view pos text).run s = some (.ok (), u) :=
    (hready.insertAt fun _ => Suffices.within_of_replay h hvisible hlast).trans
      (congrArg some hinsert)
  have hlater := Suffices.within_of_replay h hvisible hlast hinsert
  obtain ⟨hrange, rfl⟩ := Editing.Act.revised_of_insertAt h.shows hinsert
  have hshort := hlater root _ (shows_revised h.shows).document
  have hplaced := (hfits root d h.shows.document).placed.revised hrange
  rw [replay, run_plainly_ask_bind, hvisible]
  simp only [run_plainly_ask_bind, hb]
  rw [run_bind_of_ok hagrees]
  exact run_bind_of_none (run_changeShown_of_none (shows_revised hw)
    (Document.readjustAll?_eq_none hshort hplaced (hm.pairwise.filter _) ha hout))

theorem run_attempt_of_none {α : Type} {act : Act α} (h : act.run s = none) :
    (attempt act).run s = none := by
  change (act s).bind (fun x => some (Except.ok x.1, x.2)) = none
  rw [show act s = none from h]
  rfl

/-- Where the first record of a group sends a marker too far, the undo has no result in words. -/
theorem run_undo_of_far (h : s.AtRest) (hmeasured : s.Every Document.Measured)
    (hfits : ∀ t ∈ s :: s.moments (.undo view), t.Every Document.Fits)
    (hs : s.editor.Shows view v root d) (hd : d.log.isEnabled = true)
    (hgroup : d.log.boundary.nextGroup.1 = .ok (.delete pos text as :: rs))
    (hrun : (Editing.Act.replay view root (.delete pos text as)).run
      (s.onDocument root fun _ => d.begun) = (.ok (), t))
    (ha : a ∈ d.readjustable pos as)
    (hout : ¬Document.Receives exempt (d.begun.revised (.insert pos text)) a) :
    (undo exempt view).run s = none := by
  obtain ⟨w, hw, -⟩ := h.wellFormed.registry.shows_root hs.document
  have hreplaying := Session.replaying_begun h.wellFormed hs hgroup
  have hm : (Record.delete pos text as).Measured := by
    rcases (h.wellFormed.admits hs.document).log.mem_of_group hgroup List.mem_cons_self with
      hboundary | hmem
    · cases hboundary
    · exact hmeasured root d hs.document _ hmem
  rw [Session.moments_undo h.wellFormed hs hd hgroup] at hfits
  have hbegun := hfits (s.onDocument root fun _ => d.begun) (by simp)
  have hstage : t.Every Document.Fits := by
    have hfirst := Session.first_mem_stages view root (.delete pos text as) rs
      (s.onDocument root fun _ => d.begun)
    rw [hrun] at hfirst
    exact hfits t (by simp [hfirst])
  have hreplay := run_replay_of_far hreplaying hbegun hm hrun
    (fun r c hc => (hstage r c hc).short) ha hout
  have htake := Editing.Act.run_takeGroup hw
  rw [hgroup] at htake
  rw [undo, run_plainly_ask_bind, hs.rootOf_eq]
  simp only [run_plainly_ask_bind, hw.document_eq, hd, Bool.not_true, Bool.false_eq_true, if_false]
  rw [run_plainly_bind htake, run_plainly_bind (Editing.Act.run_beginReplay hw)]
  exact run_bind_of_none (run_attempt_of_none (run_bind_of_none hreplay))

end Machine

/-! ## A marker at the end of a long text -/

namespace Document

/-- A document whose text has been inserted in a group of its own, with a marker of the user at its
end. -/
def marked (text : Text) : Document :=
  let shown := empty.addView ⟨0, 1, 2⟩ ⟨0, 0, 0⟩
  let inserted := (shown.insert 0 text).setPosition 0 (0 + text.length)
  { inserted with
    markers := inserted.markers.insert 3 ⟨min text.length inserted.length, false, .user⟩
    log := inserted.log.boundary }

/-- The document when its text has been deleted and the marker has been made to advance. -/
def stranded (text : Text) : Document :=
  { (marked text).delete 0 text.length with
    markers := Markers.setAdvances ((marked text).delete 0 text.length).markers 3 true }

variable {text : Text}

theorem text_marked (text : Text) : (marked text).text = text := by
  change [].take 0 ++ text ++ [].drop 0 = text
  rw [List.take_nil, List.drop_nil, List.nil_append, List.append_nil]

theorem length_marked (text : Text) : (marked text).length = text.length :=
  congrArg List.length (text_marked text)

theorem markers_marked (text : Text) : (marked text).markers.entries =
    [(0, ⟨text.length, false, .view⟩), (1, ⟨0, false, .view⟩), (2, ⟨text.length, true, .view⟩),
      (3, ⟨text.length, false, .user⟩)] := by
  have hentries : (marked text).markers.entries =
      [(0, ⟨0 + text.length, false, .view⟩), (1, ⟨0, false, .view⟩),
        (2, ⟨0 + text.length, true, .view⟩),
        (3, ⟨min text.length (marked text).length, false, .user⟩)] := rfl
  rw [hentries, length_marked, Nat.min_self, Nat.zero_add]

theorem extent_marked (text : Text) :
    (marked text).extent ⟨0, 1, 2⟩ = ⟨text.length, 0, text.length⟩ := by
  have hpoint : (marked text).markers.get? 0 = some ⟨text.length, false, .view⟩ :=
    Table.mem_entries.mp (by simp [markers_marked])
  have hlow : (marked text).markers.get? 1 = some ⟨0, false, .view⟩ :=
    Table.mem_entries.mp (by simp [markers_marked])
  have hhigh : (marked text).markers.get? 2 = some ⟨text.length, true, .view⟩ :=
    Table.mem_entries.mp (by simp [markers_marked])
  exact extent_of_markers hpoint hlow hhigh rfl (Nat.zero_le _) (Nat.le_refl _)
    (Nat.le_of_eq (length_marked text).symm)

theorem deletionRecord_marked (htext : text ≠ []) :
    (marked text).deletionRecord 0 text.length = .delete 0 text [⟨3, -(text.length : Int)⟩] := by
  have hlength := List.length_pos_iff.mpr htext
  have hslice : (marked text).text.slice 0 text.length = text := by
    rw [text_marked, Text.slice]
    simp
  have hadjustments : Markers.adjustments (marked text).markers 0 text.length =
      [⟨3, -(text.length : Int)⟩] := by
    rw [Markers.adjustments, markers_marked]
    simp [Marker.displacement, htext]
  rw [deletionRecord, hslice, hadjustments]
  rfl

theorem log_stranded (htext : text ≠ []) : (stranded text).log =
    ((UndoLog.empty.recordInsert 0 text.length).boundary).record
      (.delete 0 text [⟨3, -(text.length : Int)⟩]) := by
  rw [← deletionRecord_marked htext]
  rfl

theorem nextGroup_stranded (htext : text ≠ []) : (stranded text).log.boundary.nextGroup.1 =
    .ok [.delete 0 text [⟨3, -(text.length : Int)⟩]] := by
  rw [log_stranded htext]
  rfl

theorem length_stranded (text : Text) : (stranded text).length = 0 := by
  change ((marked text).text.remove 0 text.length).length = 0
  rw [text_marked, Text.length_remove, Text.length_slice, Nat.min_self, Nat.sub_zero, Nat.sub_self]

theorem marker_stranded (text : Text) :
    (stranded text).markers.get? 3 = some ⟨0, true, .user⟩ := by
  have hdeleted : ((marked text).delete 0 text.length).markers.get? 3 =
      ((marked text).markers.get? 3).map (·.afterDelete 0 text.length) := Table.get?_map _ _ _
  have hmarker : (marked text).markers.get? 3 = some ⟨text.length, false, .user⟩ :=
    Table.mem_entries.mp (by simp [markers_marked])
  change (Markers.setAdvances ((marked text).delete 0 text.length).markers 3 true).get? 3 = _
  rw [Markers.setAdvances, Table.get?_modify, if_pos rfl, hdeleted, hmarker]
  simp [Marker.afterDelete, Position.afterDelete]
end Document


namespace Session

/-- A document alone with a view, a marker of the user and no protocol for locks. -/
structure Alone (s : Session) (d : Document) : Prop where
  document : s.editor.documents.get? 0 = some d
  no_other : ∀ r, r ≠ 0 → s.editor.documents.get? r = none
  view : s.editor.views.get? 0 = some ⟨"v", none, ⟨0, 1, 2⟩, false⟩
  marker : ∃ b, s.editor.userMarkers.get? 3 = some ⟨some ⟨0, 0⟩, b⟩
  locks : s.locks = none

variable {s : Session} {d : Document} {Q : Document → Prop} {text : Text}

theorem get?_of_entries (h : s.editor.documents.entries = [(0, d)]) {root : ViewId} {c : Document}
    (hc : s.editor.documents.get? root = some c) : root = 0 ∧ c = d := by
  have hmem := Table.mem_entries.mpr hc
  rw [h] at hmem
  exact Prod.mk.inj (List.mem_singleton.mp hmem)

theorem every_of_entries (h : s.editor.documents.entries = [(0, d)]) (hd : Q d) : s.Every Q :=
  fun _ _ hc => (get?_of_entries h hc).2 ▸ hd

/-- A text is inserted, and a marker is put at its end. -/
def markedOps (text : Text) : List Op :=
  [.createRoot "v", .makeMarker, .insert 0 text, .placeMarker 3 0 text.length, .closeGroup 0]

theorem alone_marked (htext : text ≠ []) :
    ((fresh .default none).afterAll (markedOps text)).Alone (Document.marked text) := by
  obtain ⟨c, cs, rfl⟩ := List.exists_cons_of_ne_nil htext
  have hdocuments :
      ((fresh .default none).afterAll (markedOps (c :: cs))).editor.documents.entries =
        [(0, Document.marked (c :: cs))] := rfl
  have hviews : ((fresh .default none).afterAll (markedOps (c :: cs))).editor.views.entries =
      [(0, ⟨"v", none, ⟨0, 1, 2⟩, false⟩)] := rfl
  have hmarkers :
      ((fresh .default none).afterAll (markedOps (c :: cs))).editor.userMarkers.entries =
        [(3, ⟨some ⟨0, 0⟩, false⟩)] := rfl
  exact {
    document := Table.mem_entries.mp (hdocuments ▸ List.mem_singleton_self _)
    no_other := fun r hr => Option.eq_none_iff_forall_ne_some.mpr fun d hd =>
      hr (get?_of_entries hdocuments hd).1
    view := Table.mem_entries.mp (hviews ▸ List.mem_singleton_self _)
    marker := ⟨false, Table.mem_entries.mp (hmarkers ▸ List.mem_singleton_self _)⟩
    locks := rfl }

theorem moments_marked (htext : text ≠ []) :
    ∀ t ∈ runMoments ((markedOps text).map .op) (fresh .default none),
      t.Every (Document.Within text.length) := by
  obtain ⟨c, cs, rfl⟩ := List.exists_cons_of_ne_nil htext
  have hlength := Nat.le_of_eq (Document.length_marked (c :: cs))
  intro t ht
  change t ∈ [(fresh .default none).after (.createRoot "v"), _, _, _, _] at ht
  simp only [List.mem_cons, List.not_mem_nil, or_false] at ht
  rcases ht with rfl | rfl | rfl | rfl | rfl
  · exact every_of_entries rfl (Nat.zero_le _)
  · exact every_of_entries rfl (Nat.zero_le _)
  · exact every_of_entries rfl hlength
  · exact every_of_entries rfl hlength
  · exact every_of_entries rfl hlength

namespace Alone

variable (h : s.Alone d)
include h

theorem shows : s.editor.Shows 0 ⟨"v", none, ⟨0, 1, 2⟩, false⟩ 0 d := ⟨h.view, rfl, h.document⟩

theorem every (hd : Q d) : s.Every Q := by
  intro root c hc
  by_cases hroot : root = 0
  · subst hroot
    obtain rfl := Option.some.inj (h.document.symm.trans hc)
    exact hd
  · rw [h.no_other root hroot] at hc
    cases hc

theorem onDocument (f : Document → Document) : (s.onDocument 0 f).Alone (f d) where
  document := get?_onDocument_self h.document f
  no_other r hr := by rw [get?_onDocument_of_ne s hr, h.no_other r hr]
  view := h.view
  marker := h.marker
  locks := h.locks

theorem revised (c : Change) : (s.revised 0 d c).Alone (d.revised c) where
  document := (shows_revised h.shows).document
  no_other r hr := by rw [documents_revised_of_ne h.document hr, h.no_other r hr]
  view := by rw [views_revised, h.view]
  marker := by rw [userMarkers_revised]; exact h.marker
  locks := by rw [locks_revised, h.locks]

theorem after_deleteRegion {stop : Nat} (hlow : (d.extent ⟨0, 1, 2⟩).low = 0)
    (hhigh : stop ≤ (d.extent ⟨0, 1, 2⟩).high) :
    s.after (.deleteRegion 0 0 stop) = s.revised 0 d (.delete 0 stop) := by
  have hend := (d.extent_le ⟨0, 1, 2⟩).2.2
  have hrange : (Change.delete 0 stop).rangeError d.length = none := by
    rw [Change.rangeError, if_neg (by omega)]
  have hordered : Position.ordered 0 stop = (0, stop) := if_pos (Nat.zero_le stop)
  have hin : ¬((0 : Nat) < (d.extent ⟨0, 1, 2⟩).low ∨ (d.extent ⟨0, 1, 2⟩).high < stop) := by omega
  rw [after, Op.act, Act.run_map, Act.run_deleteRegion h.shows, hordered]
  simp only [hin, if_false]
  rw [Act.run_deleteRaw h.shows, Act.run_makeChange h.shows, hrange,
    hindered?_of_no_locks h.locks]
  simp only [Bool.false_and, Bool.false_eq_true, and_false, if_false]

/-- The insertion type of the marker can be changed. -/
theorem alone_advancing (b : Bool) : (s.after (.setMarkerAdvances 3 b)).Alone
    { d with markers := Markers.setAdvances d.markers 3 b } := by
  obtain ⟨old, hold⟩ := h.marker
  have hmarker : s.editor.userMarker 3 = .ok ⟨some ⟨0, 0⟩, old⟩ := by
    rw [Editor.userMarker, hold]
  have hset := h.onDocument fun d => { d with markers := Markers.setAdvances d.markers 3 b }
  have heq : s.after (.setMarkerAdvances 3 b) =
      (s.onDocument 0 fun d => { d with markers := Markers.setAdvances d.markers 3 b }).edit
        fun e => { e with userMarkers := e.userMarkers.modify 3 fun m => { m with advances := b } }
    := by
    rw [after, Op.act, Act.run_quietly, Act.setMarkerAdvances, Act.run_ask_bind hmarker]
    simp only [Act.run_bind, Act.run_changeShown h.shows, Act.run_change]
  rw [heq]
  refine ⟨hset.document, hset.no_other, hset.view, ⟨b, ?_⟩, hset.locks⟩
  rw [editor_edit, Table.get?_modify, if_pos rfl, userMarkers_onDocument, hold]
  rfl

theorem replayed_delete (pos : Nat) (text : Text) (as : List MarkerAdjustment) :
    (s.replayed 0 ⟨"v", none, ⟨0, 1, 2⟩, false⟩ d (.delete pos text as)).Alone
      (d.replayed 0 (.delete pos text as)) :=
  ((h.revised _).onDocument _).onDocument _

/-- A deletion of a whole text is taken back by an undo, which passes no longer text. -/
theorem undoes {as : List MarkerAdjustment} (hwell : s.editor.WellFormed)
    (hd : d.log.isEnabled = true) (hempty : d.length = 0)
    (hgroup : d.log.boundary.nextGroup.1 = .ok [.delete 0 text as]) :
    (∃ t, (Act.replay 0 0 (.delete 0 text as)).run (s.onDocument 0 fun _ => d.begun) =
      (.ok (), t)) ∧
      ∀ t ∈ s.moments (.undo 0), t.Every (Document.Within text.length) := by
  have hbegun := h.onDocument fun _ => d.begun
  have hreplaying := replaying_begun hwell h.shows hgroup
  have hvisible : (Record.delete 0 text as).isHidden (d.begun.extent ⟨0, 1, 2⟩) = false := by
    have hlength : d.begun.length = 0 := hempty
    obtain ⟨hlow, hpoint, hhigh⟩ := d.begun.extent_le ⟨0, 1, 2⟩
    simp only [Record.isHidden, Record.bounds, Bool.or_eq_false_iff, decide_eq_false_iff_not]
    omega
  have hrun : (Act.replay 0 0 (.delete 0 text as)).run (s.onDocument 0 fun _ => d.begun) =
      (.ok (), (s.onDocument 0 fun _ => d.begun).replayed 0 ⟨"v", none, ⟨0, 1, 2⟩, false⟩ d.begun
        (.delete 0 text as)) := by
    rw [Act.run_replay hreplaying, hvisible, Record.inverse, Option.bind_some,
      hindered?_of_no_locks hbegun.locks]
    rfl
  have hreplayed := hbegun.replayed_delete 0 text as
  have hwhole : (d.begun.replayed 0 (.delete 0 text as)).length = text.length := by
    rw [Document.length, Document.text_replayed]
    change (Text.insert d.text 0 text).length = text.length
    rw [Text.length_insert, show d.text.length = 0 from hempty, Nat.zero_add]
  have hnothing : d.length ≤ text.length := by omega
  have hwithin := Nat.le_of_eq hwhole
  refine ⟨⟨_, hrun⟩, fun t ht => ?_⟩
  have hafter : s.after (.undo 0) = ((s.onDocument 0 fun _ => d.begun).replayed 0
      ⟨"v", none, ⟨0, 1, 2⟩, false⟩ d.begun (.delete 0 text as)).onDocument 0 Document.ended := by
    rw [after_undo_eq, Act.run_undo_of_group hwell h.shows hd hgroup, Act.replayAll,
      Act.run_bind_ok hrun]
    rfl
  rw [moments_undo hwell h.shows hd hgroup, stages, hrun, hafter] at ht
  simp only [stages, List.cons_append, List.nil_append, List.mem_cons, List.not_mem_nil,
    or_false] at ht
  rcases ht with rfl | rfl | rfl | rfl
  · exact (h.onDocument _).every hnothing
  · exact hbegun.every hnothing
  · exact hreplayed.every hwithin
  · exact (hreplayed.onDocument _).every hwithin

end Alone

end Session

namespace Document
variable {text : Text}

theorem revised_marked (htext : text ≠ []) :
    (marked text).revised (.delete 0 text.length) = (marked text).delete 0 text.length := by
  have hlength := List.length_pos_iff.mpr htext
  have hvoid : (Change.delete 0 text.length).isVoid = false :=
    beq_eq_false_iff_ne.mpr (Nat.ne_of_lt hlength)
  have hwanted : (marked text).wanted = none := by
    rw [wanted]
    split
    · rfl
    · rfl
  rw [revised, hvoid, if_neg Bool.false_ne_true, hwanted, Option.isSome_none, Bool.or_false]
  rfl

end Document


namespace Session

variable {s : Session} {text : Text}

/-- A marker at the end of a text is left at its start when the text is deleted. -/
def deletedOps (text : Text) : List Op := markedOps text ++ [.deleteRegion 0 0 text.length]

/-- The marker is made to advance before the text is put back. -/
def farMarker (text : Text) : List Op := deletedOps text ++ [.setMarkerAdvances 3 true]

theorem alone_deleted (htext : text ≠ []) :
    ((fresh .default none).afterAll (deletedOps text)).Alone
      ((Document.marked text).delete 0 text.length) := by
  have hmarked := alone_marked htext
  have hextent := Document.extent_marked text
  rw [deletedOps, afterAll_concat, hmarked.after_deleteRegion (by rw [hextent])
    (Nat.le_of_eq (by rw [hextent])), ← Document.revised_marked htext]
  exact hmarked.revised _

theorem alone_farMarker (htext : text ≠ []) :
    ((fresh .default none).afterAll (farMarker text)).Alone (Document.stranded text) := by
  rw [farMarker, afterAll_concat]
  exact (alone_deleted htext).alone_advancing true

theorem undoes_farMarker (htext : text ≠ []) :
    (∃ t, (Act.replay 0 0 (.delete 0 text [⟨3, -(text.length : Int)⟩])).run
      (((fresh .default none).afterAll (farMarker text)).onDocument 0
        fun _ => (Document.stranded text).begun) = (.ok (), t)) ∧
      ∀ t ∈ ((fresh .default none).afterAll (farMarker text)).moments (.undo 0),
        t.Every (Document.Within text.length) := by
  have hreachable := (Reachable.fresh .default none).afterAll (farMarker text)
  refine (alone_farMarker htext).undoes hreachable.atRest.wellFormed ?_
    (Document.length_stranded text) (Document.nextGroup_stranded htext)
  rw [Document.log_stranded htext]
  rfl

/-- No text on the way is longer. -/
theorem moments_farMarker (htext : text ≠ []) :
    ∀ t ∈ runMoments ((farMarker text ++ [Op.undo 0]).map .op) (fresh .default none),
      t.Every (Document.Within text.length) := by
  have hdeleted := alone_deleted htext
  have hstranded := alone_farMarker htext
  have hempty : (Document.stranded text).length ≤ text.length :=
    Nat.le_trans (Nat.le_of_eq (Document.length_stranded text)) (Nat.zero_le _)
  intro t ht
  rw [runMoments_concat] at ht
  rcases List.mem_append.mp ht with ht | ht
  · rw [farMarker, runMoments_concat] at ht
    rcases List.mem_append.mp ht with ht | ht
    · rw [deletedOps, runMoments_concat] at ht
      rcases List.mem_append.mp ht with ht | ht
      · exact moments_marked htext t ht
      · rw [List.mem_singleton.mp ht, ← afterAll_concat]
        exact hdeleted.every hempty
    · rw [List.mem_singleton.mp ht, ← afterAll_concat]
      exact hstranded.every hempty
  · exact (undoes_farMarker htext).2 t ht

end Session

namespace Machine

variable {text : Text}

/-- The marker is sent as far behind the end of the text as the text is long. -/
theorem run_undo_farMarker (hlong : maxInteger / 2 < text.length)
    (hfits : ∀ t ∈ (Session.fresh .default none).afterAll (Session.farMarker text) ::
      ((Session.fresh .default none).afterAll (Session.farMarker text)).moments (.undo 0),
      t.Every Document.Fits) :
    (undo noneExempt 0).run ((Session.fresh .default none).afterAll (Session.farMarker text)) =
      none := by
  have htext : text ≠ [] := List.ne_nil_of_length_pos (Nat.zero_lt_of_lt hlong)
  have hreachable := (Session.Reachable.fresh .default none).afterAll (Session.farMarker text)
  have halone := Session.alone_farMarker htext
  have hmarker := Document.marker_stranded text
  have henabled : (Document.stranded text).log.isEnabled = true := by
    rw [Document.log_stranded htext]
    rfl
  obtain ⟨⟨t, hrun⟩, -⟩ := Session.undoes_farMarker htext
  refine run_undo_of_far hreachable.atRest hreachable.measured hfits halone.shows henabled
    (Document.nextGroup_stranded htext) hrun (a := ⟨3, -(text.length : Int)⟩) ?_ ?_
  · refine List.mem_filter.mpr ⟨List.mem_singleton_self _, ?_⟩
    rw [Markers.position?, hmarker]
    rfl
  · have hbegun : (Document.stranded text).begun.markers.get? 3 = some ⟨0, true, .user⟩ := hmarker
    have hvoid : (Change.insert 0 text).isVoid = false := List.isEmpty_eq_false_iff.mpr htext
    have hshifted : ((Document.stranded text).begun.revised (.insert 0 text)).markers.get? 3 =
        some ⟨0 + text.length, true, .user⟩ := by
      rw [Document.revised, hvoid, if_neg Bool.false_ne_true]
      exact (Table.get?_map _ _ _).trans (congrArg (Option.map _) hbegun)
    intro hreceives
    have hend := (hreceives _ hshifted rfl).2
    simp only at hend
    omega

end Machine

end Editing
