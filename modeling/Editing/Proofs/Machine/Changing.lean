import Editing.Proofs.Machine.Agreeing
import Editing.Proofs.Machine.Readjusting

/-!
# Changes made in words

Every act that edits a text agrees with the act in words, as long as the document fits into words
before the change and its text does so after it.
-/

namespace Editing

/-- A document is ready to be changed when no lock is refused for it. -/
theorem Act.refused?_of_lockForChange {s t : Session} {root : ViewId} {d : Document} {a : Unit}
    (h : (lockForChange root d).run s = (.ok a, t)) :
    s.refused? root d = none ∧ t = s.prepared root d := by
  rw [run_lockForChange] at h
  cases hrefused : s.refused? root d with
  | none =>
      rw [hrefused] at h
      exact ⟨rfl, (Prod.mk.inj h).2.symm⟩
  | some refusal =>
      rw [hrefused] at h
      cases h

namespace Machine.Agrees

open Editing.Act (run_makeChange run_announceChange refused?_of_lockForChange)

variable {s t : Session} {view root : ViewId} {v : View} {d : Document}

theorem changeDocument (hd : s.editor.documents.get? root = some d)
    {f : Document → Option Document} {g : Document → Document} (hf : f d = some (g d)) :
    Agrees (changeDocument root f) (Editing.Act.changeDocument root g) s := by
  have hsame : s.onDocument root (fun _ => g d) = s.onDocument root g :=
    Session.onDocument_congr hd rfl
  have hchange : Agrees (Machine.plainly (Editing.Act.changeDocument root fun _ => g d))
      (Editing.Act.changeDocument root g) s := by
    rw [Agrees, run_plainly, Editing.Act.run_changeDocument, Editing.Act.run_changeDocument, hsame]
  have hcomputed : Agrees
      (compute (f d) >>= fun c => Machine.plainly (Editing.Act.changeDocument root fun _ => c))
      (Editing.Act.changeDocument root g) s := compute_bind hf hchange
  rw [Agrees, Machine.changeDocument, run_plainly_bind (Editing.Act.run_get s)]
  simp only [hd]
  exact hcomputed

theorem changeShown (hs : s.editor.Shows view v root d) {f : Document → Option Document}
    {g : Document → Document} (hf : f d = some (g d)) :
    Agrees (changeShown view f) (Editing.Act.changeShown view g) s :=
  ask_bind fun _ _ => ask_bind fun r hr => by
    obtain rfl := Except.ok.inj (hs.rootOf_eq.symm.trans hr)
    exact changeDocument hs.document hf

theorem makeChange (hs : s.editor.Shows view v root d) (hfits : d.Fits)
    (hl : d.log.WellFormed) {c : Change}
    (hnext : (Editing.Act.makeChange view c).run s = (.ok (), s.revised root d c) →
      (d.revised c).Within maxInteger) :
    Agrees (makeChange view c) (Editing.Act.makeChange view c) s := by
  refine ask_bind fun b hb => ask_bind fun r hr => ask_bind fun isProtected hp => ?_
  obtain rfl := Except.ok.inj (hs.document_eq.symm.trans hb)
  obtain rfl := Except.ok.inj (hs.rootOf_eq.symm.trans hr)
  obtain rfl := Except.ok.inj (hs.isProtected_eq.symm.trans hp)
  have hrun := run_makeChange hs c
  cases hrange : c.rangeError d.length with
  | some e => exact throw e s
  | none =>
      rw [hrange] at hrun
      simp only at hrun ⊢
      split
      · exact pure () s
      · rename_i hvoid
        rw [Bool.not_eq_true] at hvoid
        split
        · exact throw _ s
        · rename_i hopen
          refine (plainly _ s).bind fun _ t ht => (plainly _ t).bind fun _ u hu => ?_
          obtain ⟨hrefused, rfl⟩ := refused?_of_lockForChange ht
          obtain ⟨-, rfl⟩ := Prod.mk.inj ((run_announceChange root d _).symm.trans hu)
          have hhindered : s.hindered? root d c = none := by
            rw [Session.hindered?, hvoid, if_neg Bool.false_ne_true, hrefused]
          rw [if_neg (fun hclosed => hopen hclosed.2), hhindered] at hrun
          have hshort := hnext hrun
          rw [Document.revised, hvoid, if_neg Bool.false_ne_true] at hshort
          have hlater : ((s.prepared root d).announced root d).editor.documents.get? root =
              some { d with locked := d.locked || d.wanted.isSome } := by
            rw [Session.editor_announced, Session.documents_prepared hs.document, if_pos rfl]
          have hlocked : Document.Fits { d with locked := d.locked || d.wanted.isSome } :=
            ⟨hfits.short, hfits.placed, hfits.covered, hfits.recorded⟩
          exact changeDocument hlater (hlocked.changed?_eq hl hrange hshort)

end Machine.Agrees

namespace Session

variable {s t : Session} {root : ViewId} {P : Document → Prop}

/-- What all documents have once one of them is changed, in a way that does not give it to them,
they had before. -/
theorem Every.of_onDocument {f : Document → Document} (h : (s.onDocument root f).Every P)
    (hf : ∀ d, P (f d) → P d) : s.Every P := by
  intro r d hd
  by_cases hr : r = root
  · subst hr
    exact hf d (h r _ (get?_onDocument_self hd f))
  · exact h r d (by rw [get?_onDocument_of_ne _ hr, hd])

end Session

namespace Document

variable {d : Document}

theorem length_revised_insert (d : Document) (pos : Nat) (text : Text) :
    (d.revised (.insert pos text)).length = d.length + text.length := by
  rw [revised]
  split
  · rename_i hvoid
    rw [List.isEmpty_iff.mp (show text.isEmpty = true from hvoid)]
    rfl
  · exact Text.length_insert _ _ _

theorem length_revised_delete_le (d : Document) (start stop : Nat) :
    (d.revised (.delete start stop)).length ≤ d.length := by
  rw [revised]
  split
  · exact Nat.le_refl _
  · change (d.text.remove start stop).length ≤ d.text.length
    rw [Text.length_remove]
    exact Nat.sub_le _ _

theorem Placed.revised (h : d.Placed) {c : Change} (hrange : c.rangeError d.length = none) :
    (d.revised c).Placed := by
  rw [Document.revised]
  split
  · exact h
  · have hlocked : Placed { d with locked := d.locked || d.wanted.isSome } := h
    exact hlocked.apply hrange

theorem Within.mono {m n : Nat} (h : d.Within m) (hle : m ≤ n) : d.Within n := Nat.le_trans h hle

/-- Other markers fit as well if they stand within the text. -/
theorem Fits.remark (h : d.Fits) {ms : Markers} (hplaced : Placed { d with markers := ms }) :
    Fits { d with markers := ms } := ⟨h.short, hplaced, h.covered, h.recorded⟩

end Document

theorem Act.revised_of_insertAt {s t : Session} {view root : ViewId} {v : View} {d : Document}
    {pos : Nat} {text : Text} (hs : s.editor.Shows view v root d)
    (h : (insertAt view pos text).run s = (.ok (), t)) :
    (Change.insert pos text).rangeError d.length = none ∧
      t = s.revised root d (.insert pos text) := by
  obtain ⟨_, -, hchange⟩ := exists_of_ask_bind h
  obtain ⟨hamended, heq⟩ := Session.amended_of_change hs hchange
  exact ⟨hamended.range, heq⟩

namespace Machine

open Editing.Act (run_bind_ok run_ask_bind run_changeShown)

/-- A session whose numbers fit into words. -/
structure Ready (s : Session) : Prop where
  wellFormed : s.editor.WellFormed
  fits : s.Every Document.Fits

/-- No word fails to hold the position before one that is not the first. -/
theorem Agrees.atLineStart (view : ViewId) (s : Session) :
    Agrees (atLineStart view) (Editing.Act.ask (·.atLineStart view)) s := by
  rw [Agrees, Machine.atLineStart, run_plainly_ask_bind, Editing.Act.run_ask, Editor.atLineStart]
  cases s.editor.extent view with
  | error e => rfl
  | ok x =>
      simp only [run_plainly_ask_bind]
      cases s.editor.document view with
      | error e => rfl
      | ok d =>
          simp only [Text.isLineStart?_eq]
          have hanswer : (x.point == x.low || d.text.isLineStart x.point) =
              if x.point = x.low then true else d.text.isLineStart x.point := by
            split
            · rename_i hlow
              rw [hlow, beq_self_eq_true, Bool.true_or]
            · rename_i hlow
              rw [beq_eq_false_iff_ne.mpr hlow, Bool.false_or]
          change _ = some (Except.ok (x.point == x.low || d.text.isLineStart x.point), s)
          rw [hanswer]
          split
          · rfl
          · rfl

namespace Ready

variable {s t : Session} {view root : ViewId} {v : View} {d : Document}

theorem makeChange (h : Ready s) {c : Change}
    (hshort : ∀ t, (Editing.Act.makeChange view c).run s = (.ok (), t) →
      t.Every (Document.Within maxInteger)) :
    Agrees (makeChange view c) (Editing.Act.makeChange view c) s := by
  rcases h.wellFormed.registry.dead_or_shows view with hdead | ⟨v, root, d, hs⟩
  · refine .ask_bind fun d hd => ?_
    rw [Editor.document_of_dead hdead] at hd
    cases hd
  · refine .makeChange hs (h.fits root d hs.document) (h.wellFormed.admits hs.document).log ?_
    exact fun hrun => hshort _ hrun root _ (Session.shows_revised hs).document

theorem insertRaw (h : Ready s) {pos : Nat} {text : Text}
    (hshort : ((Editing.Act.insertRaw view pos text).run s).2.Every (Document.Within maxInteger)) :
    Agrees (insertRaw view pos text) (Editing.Act.insertRaw view pos text) s := by
  refine (h.makeChange fun t ht => ?_).bind fun _ _ _ => .pure _ _
  rwa [Editing.Act.insertRaw, run_bind_ok ht] at hshort

theorem deleteRaw (h : Ready s) {start stop : Nat}
    (hshort : ((Editing.Act.deleteRaw view start stop).run s).2.Every
      (Document.Within maxInteger)) :
    Agrees (deleteRaw view start stop) (Editing.Act.deleteRaw view start stop) s := by
  refine .ask_bind fun d hd => (h.makeChange fun t ht => ?_).bind fun _ _ _ => .pure _ _
  rwa [Editing.Act.deleteRaw, run_ask_bind hd, run_bind_ok ht] at hshort

theorem insertAt (h : Ready s) {pos : Nat} {text : Text}
    (hshort : ∀ t, (Editing.Act.insertAt view pos text).run s = (.ok (), t) →
      t.Every (Document.Within maxInteger)) :
    Agrees (insertAt view pos text) (Editing.Act.insertAt view pos text) s :=
  .ask_bind fun _ hrange => h.makeChange fun t ht =>
    hshort t (by rw [Editing.Act.insertAt, run_ask_bind hrange, ht])

theorem insert (h : Ready s) {text : Text}
    (hshort : ((Editing.Act.insert view text).run s).2.Every (Document.Within maxInteger)) :
    Agrees (insert view text) (Editing.Act.insert view text) s := by
  refine .ask_bind fun v hv => .ask_bind fun point hpoint => ?_
  rcases h.wellFormed.registry.dead_or_shows view with hdead | ⟨w, root, d, hs⟩
  · rw [Editor.view_of_dead hdead] at hv
    cases hv
  · obtain rfl := Except.ok.inj (hs.view_eq.symm.trans hv)
    have hlater : ∀ t, (Editing.Act.insertAt view point text).run s = (.ok (), t) →
        t.Every (Document.Within maxInteger) := by
      intro t ht
      obtain ⟨-, rfl⟩ := Editing.Act.revised_of_insertAt hs ht
      rw [Editing.Act.insert, run_ask_bind hs.view_eq, run_ask_bind hpoint, run_bind_ok ht,
        run_bind_ok (run_changeShown (Session.shows_revised hs) _)] at hshort
      exact hshort.of_onDocument fun _ => id
    refine (h.insertAt hlater).bind fun _ t ht => .compute_bind ?_ ((Agrees.plainly _ t).bind
      fun _ _ _ => .pure _ _)
    obtain ⟨hrange, rfl⟩ := Editing.Act.revised_of_insertAt hs ht
    have hpos := Change.insert_le hrange
    have hlonger := hlater _ ht root _ (Session.shows_revised hs).document
    rw [Document.Within, Document.length_revised_insert] at hlonger
    have hmax := maxInteger_le_maxPosition
    exact add_eq (by omega)

/-- Erasing makes the whole text accessible first, which puts the bounds of the view at its ends. -/
theorem erase (h : Ready s)
    (hshort : ((Editing.Act.erase view).run s).2.Every (Document.Within maxInteger)) :
    Agrees (erase view) (Editing.Act.erase view) s := by
  refine .ask_bind fun _ hopen => (Agrees.plainly _ s).bind fun _ t ht => .ask_bind fun n hn => ?_
  rcases h.wellFormed.registry.dead_or_shows view with hdead | ⟨v, root, d, hs⟩
  · rw [Editor.refuseReadOnly_of_dead hdead] at hopen
    cases hopen
  · rw [Editing.Act.run_widen hs] at ht
    cases ht
    have hready : Ready (s.widened root v) := by
      have hfits := h.fits root d hs.document
      refine ⟨(Session.Move.widen hs).wellFormed h.wellFormed, h.fits.onShown hs.document ?_⟩
      exact hfits.remark
        ((hfits.placed.setPosition _ (Nat.zero_le _)).setPosition _ (Nat.le_refl _))
    refine (hready.deleteRaw ?_).bind fun _ _ _ => .pure _ _
    rw [Editing.Act.erase, run_ask_bind hopen, run_bind_ok (Editing.Act.run_widen hs),
      run_ask_bind hn, Editing.Act.run_bind] at hshort
    rcases hrun : (Editing.Act.deleteRaw view 0 n).run (s.widened root v) with ⟨_ | _, u⟩
    · rwa [hrun] at hshort
    · rwa [hrun] at hshort

theorem deleteRegion (h : Ready s) {p q : Nat}
    (hshort : ((Editing.Act.deleteRegion view p q).run s).2.Every (Document.Within maxInteger)) :
    Agrees (deleteRegion view p q) (Editing.Act.deleteRegion view p q) s := by
  refine .ask_bind fun range hrange => h.deleteRaw ?_
  rwa [Editing.Act.deleteRegion, run_ask_bind hrange] at hshort

/-- A length that is too great for a note of a property is refused in words too. -/
theorem noteProperty (h : Ready s) {pos length : Nat} {key : String} {value : Value}
    (hshort : ((Editing.Act.noteProperty view pos length key value).run s).2.Every
      (Document.Within maxInteger)) :
    Agrees (noteProperty view pos length key value)
      (Editing.Act.noteProperty view pos length key value) s := by
  rw [Editing.Act.run_noteProperty] at hshort
  rw [Machine.noteProperty, Editing.Act.noteProperty]
  by_cases hover : maxPosition < pos + length
  · have hnone : add pos length = none := if_neg (Nat.not_le.mpr hover)
    rw [if_pos hover, hnone]
    exact .throw _ s
  · rw [if_neg hover] at hshort ⊢
    rw [add_eq (Nat.not_lt.mp hover)]
    exact h.makeChange fun t ht => by rwa [ht] at hshort

end Ready

end Machine

end Editing
