import Editing.History.Reverting
import Editing.Proofs.Session.Operations

/-!
# Records taken back

Taking back a record is one change, the inverse of the recorded one, after which the markers that a
deletion had moved are put where they were. It is refused, with nothing changed, when it lies
outside the accessible part or when the lock of the file is refused.
-/

namespace Editing

namespace Record

/-- The change that takes back the change of a record, if it was one of the text. -/
def inverse : Record → Option Change
  | insert pos n => some (.delete pos (pos + n))
  | delete pos text _ => some (.insert pos text)
  | property .. => none
  | boundary => none

/-- The part of the text that must be accessible when the record is taken back. -/
def bounds : Record → Option (Nat × Nat)
  | insert pos n => some (pos, pos + n)
  | delete pos _ _ => some (pos, pos)
  | property start stop _ _ => some (start, stop)
  | boundary => none

/-- Whether taking back the record is refused in an accessible part. -/
def isHidden (x : Extent) (r : Record) : Bool :=
  match r.bounds with
  | none => false
  | some (start, stop) => start < x.low || x.high < stop

end Record

namespace Document

/-- The document after a record has been taken back, with point where its change was. -/
def replayed (d : Document) (point : MarkerId) : Record → Document
  | .insert pos n => (d.revised (.delete pos (pos + n))).setPosition point pos
  | .delete pos text as =>
      ((d.readjustable pos as).foldl readjust (d.revised (.insert pos text))).setPosition point pos
  | .property .. => d
  | .boundary => d

variable {d : Document}

theorem readjust_eq (d : Document) (a : MarkerAdjustment) :
    ∃ pos, d.readjust a = d ∨ d.readjust a = d.setPosition a.marker pos := by
  rw [readjust]
  split
  · exact ⟨0, Or.inl rfl⟩
  · exact ⟨_, Or.inr rfl⟩

theorem unmarked_readjustAll (d : Document) (as : List MarkerAdjustment) :
    (as.foldl readjust d).unmarked = d.unmarked := by
  induction as generalizing d with
  | nil => rfl
  | cons a as ih =>
      obtain ⟨pos, heq | heq⟩ := d.readjust_eq a
      · rw [List.foldl_cons, ih, heq]
      · rw [List.foldl_cons, ih, heq]
        rfl

@[simp] theorem text_readjustAll (d : Document) (as : List MarkerAdjustment) :
    (as.foldl readjust d).text = d.text := by
  change (as.foldl readjust d).unmarked.text = d.unmarked.text
  rw [unmarked_readjustAll]

@[simp] theorem log_readjustAll (d : Document) (as : List MarkerAdjustment) :
    (as.foldl readjust d).log = d.log := by
  change (as.foldl readjust d).unmarked.log = d.unmarked.log
  rw [unmarked_readjustAll]

theorem overlays_readjustAll (d : Document) (as : List MarkerAdjustment) :
    (as.foldl readjust d).overlays = d.overlays := by
  change (as.foldl readjust d).unmarked.overlays = d.unmarked.overlays
  rw [unmarked_readjustAll]

theorem get?_readjustAll_of_ne {as : List MarkerAdjustment} {id : MarkerId}
    (h : ∀ a ∈ as, a.marker ≠ id) : (as.foldl readjust d).markers.get? id = d.markers.get? id := by
  induction as generalizing d with
  | nil => rfl
  | cons a as ih =>
      rw [List.foldl_cons, ih fun b hb => h b (List.mem_cons_of_mem a hb)]
      obtain ⟨pos, heq | heq⟩ := d.readjust_eq a
      · rw [heq]
      · rw [heq]
        exact (Table.get?_modify _ _ _ _).trans (if_neg (Ne.symm (h a List.mem_cons_self)))

end Document

theorem Text.remove_self (t : Text) (pos : Nat) : t.remove pos pos = t := by
  rw [Text.remove, Nat.max_self, List.take_append_drop]

namespace Document

variable {d : Document}

theorem text_replayed (d : Document) (point : MarkerId) (r : Record) :
    (d.replayed point r).text = r.revert d.text := by
  cases r with
  | insert pos n =>
      change (d.revised (.delete pos (pos + n))).text = Text.remove d.text pos (pos + n)
      rw [revised]
      split
      · rename_i hvoid
        have hn : pos = pos + n := by simpa [Change.isVoid] using hvoid
        rw [← hn, Text.remove_self]
      · rfl
  | delete pos text as =>
      change ((d.readjustable pos as).foldl readjust (d.revised (.insert pos text))).text =
        Text.insert d.text pos text
      rw [text_readjustAll, revised]
      split
      · rename_i hvoid
        rw [List.isEmpty_iff.mp (show text.isEmpty = true from hvoid), Text.insert_nil]
      · rfl
  | property _ _ _ _ => rfl
  | boundary => rfl

theorem log_replayed (d : Document) (point : MarkerId) (r : Record) :
    (d.replayed point r).log =
      match r.inverse with
      | some c => (d.revised c).log
      | none => d.log := by
  cases r with
  | insert pos n => rfl
  | delete pos text as => exact log_readjustAll _ _
  | property _ _ _ _ => rfl
  | boundary => rfl

/-- A change does nothing else to the log than to record itself. -/
theorem log_apply (d : Document) (c : Change) :
    (∃ r, (d.apply c).log = d.log.record r) ∨
      ∃ pos n, (d.apply c).log = d.log.recordInsert pos n := by
  cases c with
  | insert pos text => exact Or.inr ⟨pos, text.length, rfl⟩
  | delete start stop => exact Or.inl ⟨d.deletionRecord start stop, rfl⟩
  | property start stop key value => exact Or.inl ⟨.property start stop key value, rfl⟩

theorem log_revised (d : Document) (c : Change) :
    (d.revised c).log = d.log ∨ (∃ r, (d.revised c).log = d.log.record r) ∨
      ∃ pos n, (d.revised c).log = d.log.recordInsert pos n := by
  rw [revised]
  split
  · exact Or.inl rfl
  · exact Or.inr (log_apply _ c)

theorem replaying_apply (d : Document) (c : Change) :
    (d.apply c).log.replaying = d.log.replaying := by
  rcases d.log_apply c with ⟨r, hlog⟩ | ⟨pos, n, hlog⟩
  · rw [hlog, UndoLog.replaying_record]
  · rw [hlog, UndoLog.replaying_recordInsert]

theorem replaying_revised (d : Document) (c : Change) :
    (d.revised c).log.replaying = d.log.replaying := by
  rcases d.log_revised c with hlog | ⟨r, hlog⟩ | ⟨pos, n, hlog⟩
  · rw [hlog]
  · rw [hlog, UndoLog.replaying_record]
  · rw [hlog, UndoLog.replaying_recordInsert]

theorem replaying_replayed (d : Document) (point : MarkerId) (r : Record) :
    (d.replayed point r).log.replaying = d.log.replaying := by
  rw [log_replayed]
  cases r.inverse with
  | none => rfl
  | some c => exact replaying_revised d c

end Document

namespace Session

/-- The session after a record has been taken back through a view. -/
def replayed (s : Session) (root : ViewId) (v : View) (d : Document) : Record → Session
  | .insert pos n =>
      (s.revised root d (.delete pos (pos + n))).onDocument root (·.setPosition v.markers.point pos)
  | .delete pos text as =>
      ((s.revised root d (.insert pos text)).onDocument root fun shown =>
        (d.readjustable pos as).foldl Document.readjust shown).onDocument root
          (·.setPosition v.markers.point pos)
  | .property start stop key value => s.called (.restore root start stop key value)
  | .boundary => s

variable {s : Session} {view root : ViewId} {v : View} {d : Document} {r : Record}
    {rs : List Record}

@[simp] theorem userMarkers_replayed (s : Session) (root : ViewId) (v : View) (d : Document)
    (r : Record) : (s.replayed root v d r).editor.userMarkers = s.editor.userMarkers := by
  cases r <;> simp [replayed]

theorem shows_replayed (hs : s.editor.Shows view v root d) (r : Record) :
    (s.replayed root v d r).editor.Shows view v root (d.replayed v.markers.point r) := by
  cases r with
  | insert pos n => exact shows_onDocument_self (shows_revised hs) _
  | delete pos text as =>
      exact shows_onDocument_self (shows_onDocument_self (shows_revised hs) _) _
  | property start stop key value => exact hs
  | boundary => exact hs

theorem documents_replayed_of_ne (hd : s.editor.documents.get? root = some d) (r : Record)
    {other : ViewId} (hne : other ≠ root) :
    (s.replayed root v d r).editor.documents.get? other = s.editor.documents.get? other := by
  cases r with
  | insert pos n => rw [replayed, get?_onDocument_of_ne _ hne, documents_revised_of_ne hd hne]
  | delete pos text as =>
      rw [replayed, get?_onDocument_of_ne _ hne, get?_onDocument_of_ne _ hne,
        documents_revised_of_ne hd hne]
  | property start stop key value => rfl
  | boundary => rfl

/-- An undo through the view is under way, and these records are left to be taken back. -/
structure Replaying (s : Session) (view : ViewId) (v : View) (root : ViewId) (d : Document)
    (rs : List Record) : Prop where
  wellFormed : s.editor.WellFormed
  shows : s.editor.Shows view v root d
  replaying : d.log.replaying = true
  noted : ∀ a ∈ Record.adjusted rs, ∃ u, s.editor.userMarkers.get? a.marker = some u

namespace Replaying

theorem seats (h : s.Replaying view v root d rs) : d.Seats v.markers :=
  h.wellFormed.marking.seated view v root d h.shows

/-- The markers that a record puts back are none of a view's. -/
theorem outside (h : s.Replaying view v root d (r :: rs)) {pos : Nat} {text : Text}
    {as : List MarkerAdjustment} (hr : r = .delete pos text as) :
    ∀ a ∈ as, v.markers.Outside a.marker := by
  intro a ha
  subst hr
  obtain ⟨u, hu⟩ := h.noted a (List.mem_append_left _ ha)
  exact h.wellFormed.marking.foreign a.marker u view v hu h.shows.live

end Replaying

end Session

namespace Document

variable {d : Document} {ids : ViewMarkers} {r : Record}

theorem Seats.fits (h : d.Seats ids) (hr : r.isHidden (d.extent ids) = false) :
    r.fits d.length = true := by
  have hhigh := h.high_le
  cases r with
  | insert pos n =>
      simp only [Record.isHidden, Record.bounds, Bool.or_eq_false_iff, decide_eq_false_iff_not,
        Nat.not_lt] at hr
      exact decide_eq_true (Nat.le_trans hr.2 hhigh)
  | delete pos text as =>
      simp only [Record.isHidden, Record.bounds, Bool.or_eq_false_iff, decide_eq_false_iff_not,
        Nat.not_lt] at hr
      exact decide_eq_true (Nat.le_trans hr.2 hhigh)
  | property start stop key value =>
      simp only [Record.isHidden, Record.bounds, Bool.or_eq_false_iff, decide_eq_false_iff_not,
        Nat.not_lt] at hr
      exact decide_eq_true (Nat.le_trans hr.2 hhigh)
  | boundary => rfl

theorem rangeError_inverse (hf : r.fits d.length = true) {c : Change} (hc : r.inverse = some c) :
    c.rangeError d.length = none := by
  cases r with
  | insert pos n =>
      cases hc
      have hstop : pos + n ≤ d.length := of_decide_eq_true hf
      simp only [Change.rangeError]
      rw [if_neg (by omega)]
  | delete pos text as =>
      cases hc
      have hstop : pos ≤ d.length := of_decide_eq_true hf
      simp only [Change.rangeError]
      rw [if_neg (by omega)]
  | property _ _ _ _ => cases hc
  | boundary => cases hc

/-- What is deleted from the accessible part leaves its start there. -/
theorem extent_revised_delete (hs : d.Seats ids) {start stop : Nat}
    (h1 : (d.extent ids).low ≤ start) (h2 : start ≤ stop) (h3 : stop ≤ (d.extent ids).high) :
    ((d.revised (.delete start stop)).extent ids).low ≤ start ∧
      start ≤ ((d.revised (.delete start stop)).extent ids).high := by
  rw [revised]
  split
  · exact ⟨h1, Nat.le_trans h2 h3⟩
  · have hshift := d.shifted_delete h2 (Nat.le_trans h3 hs.high_le)
    change ((d.delete start stop).extent ids).low ≤ start ∧
        start ≤ ((d.delete start stop).extent ids).high
    rw [hshift.extent_eq hs]
    simp only [Position.afterDelete]
    constructor
    · rw [if_neg (by omega), if_neg (by omega)]
      exact h1
    · split
      · omega
      · split <;> omega

/-- What is inserted into the accessible part lies there. -/
theorem extent_revised_insert (hs : d.Seats ids) {pos : Nat} (text : Text)
    (h1 : (d.extent ids).low ≤ pos) (h2 : pos ≤ (d.extent ids).high) :
    ((d.revised (.insert pos text)).extent ids).low ≤ pos ∧
      pos ≤ ((d.revised (.insert pos text)).extent ids).high := by
  rw [revised]
  split
  · exact ⟨h1, h2⟩
  · change ((d.insert pos text).extent ids).low ≤ pos ∧ pos ≤ ((d.insert pos text).extent ids).high
    rw [(d.shifted_insert pos text).extent_eq hs]
    simp only [Position.afterInsert]
    constructor
    · rw [if_neg (by simp; omega)]
      exact h1
    · split <;> omega

theorem extent_readjustAll {as : List MarkerAdjustment} (has : ∀ a ∈ as, ids.Outside a.marker) :
    (as.foldl readjust d).extent ids = d.extent ids :=
  extent_congr (get?_readjustAll_of_ne fun a ha => (has a ha).point)
    (get?_readjustAll_of_ne fun a ha => (has a ha).low)
    (get?_readjustAll_of_ne fun a ha => (has a ha).high) (by rw [length, text_readjustAll, length])

end Document

/-- Putting markers of the user back leaves the bounds and the point of the view. -/
theorem Session.Replaying.extent_readjusted {s : Session} {view root : ViewId} {v : View}
    {d : Document}
    {pos : Nat} {text : Text} {as : List MarkerAdjustment} {rs : List Record}
    (h : s.Replaying view v root d (.delete pos text as :: rs)) :
    ((d.readjustable pos as).foldl Document.readjust (d.revised (.insert pos text))).extent
    v.markers =
      (d.revised (.insert pos text)).extent v.markers :=
  Document.extent_readjustAll fun a ha => h.outside rfl a (List.mem_filter.mp ha).1

namespace Act

variable {s : Session} {view root : ViewId} {v : View} {d : Document} {r : Record}
    {rs : List Record}

/-- During an undo no view is protected. -/
theorem run_makeChange_replaying (h : s.Replaying view v root d rs) {c : Change}
    (hrange : c.rangeError d.length = none) :
    (makeChange view c).run s =
      match s.hindered? root d c with
      | some (path, reason) => (.error (.lockRefused reason), s.called (.lockRefused root path))
      | none => (.ok (), s.revised root d c) := by
  rw [run_makeChange h.shows, hrange, h.replaying]
  have hne : ¬(c.isVoid = false ∧ (v.readOnly && !s.editor.inhibitReadOnly && !true) = true) := by
    rw [Bool.not_true, Bool.and_false]
    exact fun hc => Bool.false_ne_true hc.2
  apply (if_neg hne).trans
  cases s.hindered? root d c with
  | none => rfl
  | some refusal => rfl

theorem run_replay_insert {pos n : Nat} (h : s.Replaying view v root d (.insert pos n :: rs)) :
    (replay view root (.insert pos n)).run s =
      if (Record.insert pos n).isHidden (d.extent v.markers) then (.error .hiddenChange, s)
      else
        match s.hindered? root d (.delete pos (pos + n)) with
        | some (path, reason) => (.error (.lockRefused reason), s.called (.lockRefused root path))
        | none => (.ok (), s.replayed root v d (.insert pos n)) := by
  have hrefuse := h.shows.refuseHidden_eq pos (pos + n)
  by_cases hidden : pos < (d.extent v.markers).low ∨ (d.extent v.markers).high < pos + n
  · rw [replay, run_ask_bind_error (by rw [hrefuse, if_pos hidden]), if_pos]
    simpa [Record.isHidden, Record.bounds] using hidden
  · have hshown : ¬ (Record.insert pos n).isHidden (d.extent v.markers) = true := by
      simpa [Record.isHidden, Record.bounds] using hidden
    rw [if_neg hshown]
    rw [not_or, Nat.not_lt, Nat.not_lt] at hidden
    have hseats := h.seats
    have hrange := Document.rangeError_inverse (hseats.fits (Bool.eq_false_iff.mpr hshown)) rfl
    obtain ⟨hlow, hhigh⟩ :=
      Document.extent_revised_delete hseats hidden.1 (Nat.le_add_right pos n) hidden.2
    rw [replay, run_ask_bind (by rw [hrefuse, if_neg (by omega)]), run_bind,
      run_makeChange_replaying h hrange]
    cases s.hindered? root d (.delete pos (pos + n)) with
    | some refusal => rfl
    | none =>
        simp only [run_bind, run_goto (Session.shows_revised h.shows), run_pure,
          Position.clamp_of_mem hlow hhigh]
        rfl

theorem run_replay_delete {pos : Nat} {text : Text} {as : List MarkerAdjustment}
    (h : s.Replaying view v root d (.delete pos text as :: rs)) :
    (replay view root (.delete pos text as)).run s =
      if (Record.delete pos text as).isHidden (d.extent v.markers) then (.error .hiddenChange, s)
      else
        match s.hindered? root d (.insert pos text) with
        | some (path, reason) => (.error (.lockRefused reason), s.called (.lockRefused root path))
        | none => (.ok (), s.replayed root v d (.delete pos text as)) := by
  have hrefuse := h.shows.refuseHidden_eq pos pos
  by_cases hidden : pos < (d.extent v.markers).low ∨ (d.extent v.markers).high < pos
  · rw [replay, run_ask_bind_error (by rw [hrefuse, if_pos hidden]), if_pos]
    simpa [Record.isHidden, Record.bounds] using hidden
  · have hshown : ¬ (Record.delete pos text as).isHidden (d.extent v.markers) = true := by
      simpa [Record.isHidden, Record.bounds] using hidden
    rw [if_neg hshown]
    have hopen := hidden
    rw [not_or, Nat.not_lt, Nat.not_lt] at hidden
    have hseats := h.seats
    obtain ⟨w, hw, -⟩ := h.wellFormed.registry.shows_root h.shows.document
    have hrange := Document.rangeError_inverse (hseats.fits (Bool.eq_false_iff.mpr hshown)) rfl
    rw [replay, run_ask_bind (by rw [hrefuse, if_neg hopen]), run_ask_bind hw.document_eq, run_bind,
      run_insertAt h.shows, if_neg hopen, run_makeChange_replaying h hrange]
    cases s.hindered? root d (.insert pos text) with
    | some refusal => rfl
    | none =>
        have hrevised := Session.shows_revised (c := .insert pos text) h.shows
        have hroot := Session.shows_revised (c := .insert pos text) hw
        have hadjusted := Session.shows_onDocument_self hrevised fun shown =>
          (d.readjustable pos as).foldl Document.readjust shown
        obtain ⟨hlow, hhigh⟩ := Document.extent_revised_insert hseats text hidden.1 hidden.2
        simp only [run_bind, run_changeShown hroot, run_goto hadjusted, run_pure,
          h.extent_readjusted, Position.clamp_of_mem hlow hhigh]
        rfl

/-- A record is taken back unless it is hidden or the lock of the file is refused. -/
theorem run_replay (h : s.Replaying view v root d (r :: rs)) :
    (replay view root r).run s =
      if r.isHidden (d.extent v.markers) then (.error .hiddenChange, s)
      else
        match r.inverse.bind (s.hindered? root d) with
        | some (path, reason) => (.error (.lockRefused reason), s.called (.lockRefused root path))
        | none => (.ok (), s.replayed root v d r) := by
  cases r with
  | insert pos n => exact run_replay_insert h
  | delete pos text as => exact run_replay_delete h
  | property start stop key value =>
      have hrefuse := h.shows.refuseHidden_eq start stop
      by_cases hidden : start < (d.extent v.markers).low ∨ (d.extent v.markers).high < stop
      · rw [replay, run_ask_bind_error (by rw [hrefuse, if_pos hidden]), if_pos]
        simpa [Record.isHidden, Record.bounds] using hidden
      · rw [replay, run_ask_bind (by rw [hrefuse, if_neg hidden]), if_neg]
        · rfl
        · simpa [Record.isHidden, Record.bounds] using hidden
  | boundary => rfl

end Act

namespace Session

variable {s : Session} {view root : ViewId} {v : View} {d : Document} {r : Record}
    {rs : List Record}

/-- Nothing stands in the way of taking back a record: it is accessible, and the lock of the file is
granted if it is needed. -/
structure Allows (s : Session) (root : ViewId) (v : View) (d : Document) (r : Record) : Prop where
  visible : r.isHidden (d.extent v.markers) = false
  granted : r.inverse.bind (s.hindered? root d) = none

namespace Replaying

theorem leads_replayed (h : s.Replaying view v root d (r :: rs)) (ha : s.Allows root v d r) :
    s.Leads (s.replayed root v d r) := by
  have hseats := h.seats
  cases r with
  | insert pos n =>
      obtain ⟨hvisible, hgrant⟩ := ha
      have hrange := Document.rangeError_inverse (hseats.fits hvisible) rfl
      simp only [Record.isHidden, Record.bounds, Bool.or_eq_false_iff, decide_eq_false_iff_not,
        Nat.not_lt] at hvisible
      obtain ⟨hlow, hhigh⟩ :=
        Document.extent_revised_delete hseats hvisible.1 (Nat.le_add_right pos n) hvisible.2
      exact (Act.leads_revised h.shows hrange hgrant).quiet_right
        (.of_quiet (.goto (shows_revised h.shows) hlow hhigh))
  | delete pos text as =>
      obtain ⟨hvisible, hgrant⟩ := ha
      have hrange := Document.rangeError_inverse (hseats.fits hvisible) rfl
      simp only [Record.isHidden, Record.bounds, Bool.or_eq_false_iff, decide_eq_false_iff_not,
        Nat.not_lt] at hvisible
      obtain ⟨hlow, hhigh⟩ := Document.extent_revised_insert hseats text hvisible.1 hvisible.2
      have hnoted : ∀ a ∈ d.readjustable pos as,
          ∃ u, (s.revised root d (.insert pos text)).editor.userMarkers.get? a.marker = some u := by
        intro a ha
        rw [userMarkers_revised]
        exact h.noted a (List.mem_append_left _ (List.mem_filter.mp ha).1)
      have hadjusted := shows_onDocument_self (shows_revised (c := .insert pos text) h.shows)
        fun shown => (d.readjustable pos as).foldl Document.readjust shown
      refine ((Act.leads_revised h.shows hrange hgrant).quiet_right
        (.of_quiet (.readjust hnoted))).quiet_right (.of_quiet (.goto hadjusted ?_ ?_))
      · rw [h.extent_readjusted]
        exact hlow
      · rw [h.extent_readjusted]
        exact hhigh
  | property start stop key value => exact .of_move (.restore s root start stop key value)
  | boundary => exact .refl s

theorem next (h : s.Replaying view v root d (r :: rs)) (ha : s.Allows root v d r) :
    (s.replayed root v d r).Replaying view v root (d.replayed v.markers.point r) rs where
  wellFormed := (h.leads_replayed ha).wellFormed h.wellFormed
  shows := shows_replayed h.shows r
  replaying := (Document.replaying_replayed d _ r).trans h.replaying
  noted a hmem := by
    rw [userMarkers_replayed]
    apply h.noted a
    rw [← List.singleton_append, Record.adjusted_append]
    exact List.mem_append_right _ hmem

theorem leads_replay (h : s.Replaying view v root d (r :: rs)) :
    s.Leads ((Act.replay view root r).run s).2 := by
  rw [Act.run_replay h]
  split
  · exact .refl s
  · rename_i hvisible
    cases hgrant : r.inverse.bind (s.hindered? root d) with
    | none => exact h.leads_replayed ⟨Bool.not_eq_true _ ▸ hvisible, hgrant⟩
    | some refusal => exact .of_move (.refused s root refusal.1)

end Replaying

/-- The session after several records have been taken back. -/
def replayedAll (root : ViewId) (v : View) : Session → Document → List Record → Session
  | s, _, [] => s
  | s, d, r :: rs => replayedAll root v (s.replayed root v d r) (d.replayed v.markers.point r) rs

/-- Nothing stands in the way of taking back several records, one after the other. -/
def AllowsAll (root : ViewId) (v : View) : Session → Document → List Record → Prop
  | _, _, [] => True
  | s, d, r :: rs =>
      s.Allows root v d r ∧
      AllowsAll root v (s.replayed root v d r) (d.replayed v.markers.point r) rs

/-- A record that is not taken back, and the error that tells why. -/
inductive Blocks (s : Session) (root : ViewId) (v : View) (d : Document) (r : Record) :
    Error → Session → Prop
  | hidden (h : r.isHidden (d.extent v.markers) = true) : Blocks s root v d r .hiddenChange s
  | refused {path : Path} {reason : Failure} (hvisible : r.isHidden (d.extent v.markers) = false)
      (h : r.inverse.bind (s.hindered? root d) = some (path, reason)) :
      Blocks s root v d r (.lockRefused reason) (s.called (.lockRefused root path))

end Session

/-- The document after several records have been taken back. -/
def Document.replayedAll (point : MarkerId) : Document → List Record → Document
  | d, [] => d
  | d, r :: rs => replayedAll point (d.replayed point r) rs

theorem Document.text_replayedAll (point : MarkerId) (d : Document) (rs : List Record) :
    (d.replayedAll point rs).text = Record.revertAll rs d.text := by
  induction rs generalizing d with
  | nil => rfl
  | cons r rs ih => rw [replayedAll, ih, text_replayed, Record.revertAll_cons]

namespace Session

variable {s : Session} {view root : ViewId} {v : View} {d : Document} {r : Record}
    {rs : List Record}

@[simp] theorem userMarkers_replayedAll (root : ViewId) (v : View) (s : Session) (d : Document)
    (rs : List Record) : (s.replayedAll root v d rs).editor.userMarkers = s.editor.userMarkers := by
  induction rs generalizing s d with
  | nil => rfl
  | cons r rs ih => rw [replayedAll, ih, userMarkers_replayed]

theorem documents_replayedAll_of_ne (hs : s.editor.Shows view v root d) (rs : List Record)
    {other : ViewId} (hne : other ≠ root) :
    (s.replayedAll root v d rs).editor.documents.get? other = s.editor.documents.get? other := by
  induction rs generalizing s d with
  | nil => rfl
  | cons r rs ih =>
      rw [replayedAll, ih (shows_replayed hs r), documents_replayed_of_ne hs.document r hne]

namespace Replaying

theorem nextAll {done rest : List Record} (h : s.Replaying view v root d (done ++ rest))
    (ha : AllowsAll root v s d done) :
    (s.replayedAll root v d done).Replaying view v root (d.replayedAll v.markers.point done)
    rest := by
  induction done generalizing s d with
  | nil => exact h
  | cons r done ih => exact ih (h.next ha.1) ha.2

theorem finish (h : s.Replaying view v root d rs) (ha : AllowsAll root v s d rs) :
    (s.replayedAll root v d rs).Replaying view v root (d.replayedAll v.markers.point rs) [] := by
  rw [← List.append_nil rs] at h
  exact h.nextAll ha

/-- Records are taken back in turn, up to the first that something stands in the way of. -/
theorem run_replayAll (h : s.Replaying view v root d rs) :
    (AllowsAll root v s d rs ∧
    (Act.replayAll view root rs).run s = (.ok (), s.replayedAll root v d rs)) ∨
      ∃ done r rest e t, rs = done ++ r :: rest ∧ AllowsAll root v s d done ∧
        (s.replayedAll root v d done).Blocks root v (d.replayedAll v.markers.point done) r e t ∧
        (Act.replayAll view root rs).run s = (.error e, t) := by
  induction rs generalizing s d with
  | nil => exact Or.inl ⟨trivial, rfl⟩
  | cons r rs ih =>
      have hrun := Act.run_replay h
      cases hvisible : r.isHidden (d.extent v.markers) with
      | true =>
          rw [hvisible, if_pos rfl] at hrun
          exact Or.inr ⟨[], r, rs, .hiddenChange, s, rfl, trivial, .hidden hvisible,
            Act.run_bind_error hrun⟩
      | false =>
          rw [hvisible, if_neg Bool.false_ne_true] at hrun
          cases hgrant : r.inverse.bind (s.hindered? root d) with
          | some refusal =>
              rw [hgrant] at hrun
              exact Or.inr ⟨[], r, rs, _, _, rfl, trivial, .refused hvisible hgrant,
                Act.run_bind_error hrun⟩
          | none =>
              rw [hgrant] at hrun
              have ha : s.Allows root v d r := ⟨hvisible, hgrant⟩
              have hall : (Act.replayAll view root (r :: rs)).run s =
                  (Act.replayAll view root rs).run (s.replayed root v d r) := Act.run_bind_ok hrun
              rw [hall]
              rcases ih (h.next ha) with ⟨hrest, heq⟩ |
                ⟨done, x, rest, e, t, hsplit, hdone, hblocks, heq⟩
              · exact Or.inl ⟨⟨ha, hrest⟩, heq⟩
              · exact Or.inr
                  ⟨r :: done, x, rest, e, t, by rw [hsplit, List.cons_append], ⟨ha, hdone⟩,
                  hblocks, heq⟩

end Replaying

theorem Blocks.editor_eq {e : Error} {t : Session} (h : s.Blocks root v d r e t) :
    t.editor = s.editor := by
  cases h with
  | hidden _ => rfl
  | refused _ _ => rfl

/-! ## Taking records back in two sessions -/

/-- A relation between two sessions, each with the document of a root, that shows the same to two
views and lasts while the same records are taken back through the one and through the other. -/
structure Parallel (a : ViewId) (v : View) (b : ViewId) (w : View) (root : ViewId)
    (R : Session → Document → Session → Document → Prop) : Prop where
  hidden : ∀ {s t : Session} {d c : Document}, R s d t c → ∀ r : Record,
    r.isHidden (c.extent w.markers) = r.isHidden (d.extent v.markers)
  hindered : ∀ {s t : Session} {d c : Document}, R s d t c → t.hindered? root c = s.hindered? root d
  called : ∀ {s t : Session} {d c : Document}, R s d t c → ∀ call : Call,
    R (s.called call) d (t.called call) c
  replayed : ∀ {s t : Session} {d c : Document} {r : Record} {rs : List Record}, R s d t c →
    s.Replaying a v root d (r :: rs) → t.Replaying b w root c (r :: rs) → s.Allows root v d r →
    R (s.replayed root v d r) (d.replayed v.markers.point r) (t.replayed root w c r)
      (c.replayed w.markers.point r)

/-- Records are taken back in both sessions in the same way, up to the same one. -/
theorem Parallel.run_replayAll {a b : ViewId} {w : View} {t : Session} {c : Document}
    {R : Session → Document → Session → Document → Prop} (hR : Parallel a v b w root R)
    (h : s.Replaying a v root d rs) (h' : t.Replaying b w root c rs) (hrel : R s d t c) :
    ((Act.replayAll b root rs).run t).1 = ((Act.replayAll a root rs).run s).1 ∧
      ∃ d' c', ((Act.replayAll a root rs).run s).2.editor.Shows a v root d' ∧
        R ((Act.replayAll a root rs).run s).2 d' ((Act.replayAll b root rs).run t).2 c' := by
  induction rs generalizing s d t c with
  | nil => exact ⟨rfl, d, c, h.shows, hrel⟩
  | cons r rs ih =>
      have hrun := Act.run_replay h
      have hrun' := Act.run_replay h'
      have hhidden := hR.hidden hrel r
      have hhindered := hR.hindered hrel
      rw [hhidden, hhindered] at hrun'
      rw [Act.replayAll, Act.replayAll]
      cases hvisible : r.isHidden (d.extent v.markers) with
      | true =>
          rw [hvisible, if_pos rfl] at hrun hrun'
          rw [Act.run_bind_error hrun, Act.run_bind_error hrun']
          exact ⟨rfl, d, c, h.shows, hrel⟩
      | false =>
          rw [hvisible, if_neg Bool.false_ne_true] at hrun hrun'
          cases hgrant : r.inverse.bind (s.hindered? root d) with
          | some refusal =>
              rw [hgrant] at hrun hrun'
              rw [Act.run_bind_error hrun, Act.run_bind_error hrun']
              exact ⟨rfl, d, c, h.shows, hR.called hrel _⟩
          | none =>
              rw [hgrant] at hrun hrun'
              have hallows : s.Allows root v d r := ⟨hvisible, hgrant⟩
              have hallows' : t.Allows root w c r :=
                ⟨hhidden.trans hvisible, hhindered.symm ▸ hgrant⟩
              rw [Act.run_bind_ok hrun, Act.run_bind_ok hrun']
              exact ih (h.next hallows) (h'.next hallows') (hR.replayed hrel h h' hallows)

end Session

end Editing
