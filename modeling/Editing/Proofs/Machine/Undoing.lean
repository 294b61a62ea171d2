import Editing.Proofs.Machine.Changing

/-!
# Undos in words

An undo takes back records of texts that have been in words before, so where the change of a record
was, it fits into words again. The markers that it puts back need texts short enough for what is
exempt.
-/

namespace Editing

namespace Machine

variable {exempt : Marker → MarkerAdjustment → Bool} {limit : Nat}

/-- With what is exempt, putting markers back stays within words, in texts of so many characters. -/
structure Suffices (exempt : Marker → MarkerAdjustment → Bool) (limit : Nat) : Prop where
  limit_le : limit ≤ maxInteger
  receives : ∀ {d : Document} {pos : Nat} {text : Text} {as : List MarkerAdjustment}
    {a : MarkerAdjustment}, a ∈ d.readjustable pos as → (Record.delete pos text as).Measured →
    pos + text.length ≤ limit → Document.Receives exempt (d.revised (.insert pos text)) a

theorem turned_suffices : Suffices turnedExempt maxInteger where
  limit_le := Nat.le_refl _
  receives := Document.receives_turned

theorem none_suffices : Suffices noneExempt (maxInteger / 2) where
  limit_le := by decide
  receives ha hm hend := Document.receives_all ha hm (by omega)

end Machine

/-- The records of the group that is undone next have been on the log. -/
theorem UndoLog.WellFormed.mem_of_group {l : UndoLog} (h : l.WellFormed) {group : List Record}
    (hgroup : l.boundary.nextGroup.1 = .ok group) {r : Record} (hr : r ∈ group) :
    r = .boundary ∨ r ∈ l.records := by
  have hmem := (h.boundary.mem_of_nextGroup hgroup).2.2 r hr
  rw [h.records_boundary] at hmem
  split at hmem
  · exact Record.mem_close hmem
  · exact Or.inr hmem

namespace Session

variable {s t : Session} {view root : ViewId} {v : View} {d : Document} {r : Record}
  {rs : List Record}

/-- When a record has been taken back, the undo goes on with the rest. -/
theorem Replaying.goes_on (h : s.Replaying view v root d (r :: rs))
    (hrun : (Act.replay view root r).run s = (.ok (), t)) : ∃ c, t.Replaying view v root c rs := by
  rw [Act.run_replay h] at hrun
  split at hrun
  · cases hrun
  · rename_i hvisible
    cases hgrant : r.inverse.bind (s.hindered? root d) with
    | some refusal =>
        rw [hgrant] at hrun
        cases hrun
    | none =>
        rw [hgrant] at hrun
        cases hrun
        exact ⟨_, h.next ⟨Bool.not_eq_true _ ▸ hvisible, hgrant⟩⟩

/-- The sessions that an undo of a group passes through. -/
theorem moments_undo (h : s.editor.WellFormed) (hs : s.editor.Shows view v root d)
    (hd : d.log.isEnabled = true) {group : List Record}
    (hgroup : d.log.boundary.nextGroup.1 = .ok group) :
    s.moments (.undo view) =
      (s.onDocument root fun c => { c with log := d.log.boundary.nextGroup.2 }) ::
        (s.onDocument root fun _ => d.begun) ::
        ((s.onDocument root fun _ => d.begun).stages view root group ++ [s.after (.undo view)]) := by
  obtain ⟨w, hw, -⟩ := h.registry.shows_root hs.document
  have htake := Act.run_takeGroup hw
  rw [hgroup] at htake
  simp only [moments, passages, hs.undoEnabled_eq, hd, hs.rootOf_eq, htake, Act.run_beginReplay hw]
  rfl

theorem first_mem_stages (view root : ViewId) (r : Record) (rs : List Record) (s : Session) :
    ((Act.replay view root r).run s).2 ∈ stages view root (r :: rs) s := by
  rw [stages]
  rcases (Act.replay view root r).run s with ⟨_ | _, t⟩
  · exact List.mem_singleton_self t
  · exact List.mem_cons_self

end Session

namespace Machine.Suffices

open Editing.Act (run_bind_ok run_ask_bind run_changeShown run_goto)
open Session (shows_revised)

variable {exempt : Marker → MarkerAdjustment → Bool} {limit : Nat} {s : Session}
  {view root : ViewId} {v : View} {d : Document} {r : Record} {rs : List Record}
  (hexempt : Suffices exempt limit)

theorem replay_insert {pos n : Nat} (h : s.Replaying view v root d (.insert pos n :: rs))
    (hfits : s.Every Document.Fits) (hr : (Record.insert pos n).Fits) :
    Agrees (replay exempt view root (.insert pos n)) (Editing.Act.replay view root (.insert pos n))
      s := by
  have hend : pos + n ≤ maxPosition := Nat.le_trans hr maxInteger_le_maxPosition
  refine .compute_bind (add_eq hend) (.ask_bind fun _ _ => Agrees.bind ?_ fun _ t _ =>
    (Agrees.plainly _ t).bind fun _ u _ => .pure _ u)
  refine .makeChange h.shows (hfits root d h.shows.document)
    (h.wellFormed.admits h.shows.document).log fun _ => ?_
  exact Nat.le_trans (Document.length_revised_delete_le d pos (pos + n))
    (hfits root d h.shows.document).short

/-- What is inserted to take back a deletion is what is in the text when the record is done with. -/
theorem within_of_replay {pos : Nat} {text : Text} {as : List MarkerAdjustment}
    (h : s.Replaying view v root d (.delete pos text as :: rs)) {hidden : Unit}
    (hvisible : s.editor.refuseHidden view pos pos = .ok hidden)
    (hwithin : ((Editing.Act.replay view root (.delete pos text as)).run s).2.Every
      (Document.Within limit))
    {t : Session} (ht : (Editing.Act.insertAt view pos text).run s = (.ok (), t)) :
    t.Every (Document.Within limit) := by
  obtain ⟨w, hw, -⟩ := h.wellFormed.registry.shows_root h.shows.document
  obtain ⟨-, rfl⟩ := Editing.Act.revised_of_insertAt h.shows ht
  have hrevised : (s.revised root d (.insert pos text)).editor.Shows view v root _ :=
    shows_revised h.shows
  have hadjusted := Session.shows_onDocument_self hrevised
    fun shown => (d.readjustable pos as).foldl Document.readjust shown
  rw [Editing.Act.replay, run_ask_bind hvisible, run_ask_bind hw.document_eq, run_bind_ok ht,
    run_bind_ok (run_changeShown (shows_revised hw) _), run_bind_ok (run_goto hadjusted pos)]
    at hwithin
  refine Session.Every.of_onDocument (Session.Every.of_onDocument hwithin ?_) ?_
  · exact fun _ => id
  · intro c hc
    rwa [Document.Within, Document.length, Document.text_readjustAll] at hc

include hexempt

theorem replay_delete {pos : Nat} {text : Text} {as : List MarkerAdjustment}
    (h : s.Replaying view v root d (.delete pos text as :: rs)) (hfits : s.Every Document.Fits)
    (hr : (Record.delete pos text as).Measured)
    (hwithin : ((Editing.Act.replay view root (.delete pos text as)).run s).2.Every
      (Document.Within limit)) :
    Agrees (replay exempt view root (.delete pos text as))
      (Editing.Act.replay view root (.delete pos text as)) s := by
  have hd := h.shows.document
  obtain ⟨w, hw, -⟩ := h.wellFormed.registry.shows_root hd
  refine .ask_bind fun _ hvisible => .ask_bind fun b hb => ?_
  obtain rfl := Except.ok.inj (hw.document_eq.symm.trans hb)
  have hready : Ready s := ⟨h.wellFormed, hfits⟩
  refine (hready.insertAt fun t ht r c hc =>
    (within_of_replay h hvisible hwithin ht r c hc).mono hexempt.limit_le).bind fun _ t ht => ?_
  have hlater := within_of_replay h hvisible hwithin ht
  obtain ⟨hrange, rfl⟩ := Editing.Act.revised_of_insertAt h.shows ht
  have hpos := Change.insert_le hrange
  have hshort := hlater root _ (shows_revised h.shows).document
  have hlonger := hshort
  rw [Document.Within, Document.length_revised_insert] at hlonger
  have hreadjusted := Document.readjustAll?_eq (hshort.mono hexempt.limit_le)
    ((hfits root d hd).placed.revised hrange) (hr.pairwise.filter _)
    fun a ha => hexempt.receives ha hr (by omega)
  exact (Agrees.changeShown (shows_revised hw) hreadjusted).bind fun _ u _ =>
    (Agrees.plainly _ u).bind fun _ x _ => .pure _ x

theorem replay (h : s.Replaying view v root d (r :: rs)) (hfits : s.Every Document.Fits)
    (hr : r.Fits) (hm : r.Measured)
    (hwithin : ((Editing.Act.replay view root r).run s).2.Every (Document.Within limit)) :
    Agrees (replay exempt view root r) (Editing.Act.replay view root r) s := by
  cases r with
  | insert pos n => exact replay_insert h hfits hr
  | delete pos text as => exact hexempt.replay_delete h hfits hm hwithin
  | property start stop key value => exact .plainly _ s
  | boundary => exact .pure () s

theorem replayAll (h : s.Replaying view v root d rs)
    (hfits : ∀ t ∈ s :: s.stages view root rs, t.Every Document.Fits)
    (hwithin : ∀ t ∈ s.stages view root rs, t.Every (Document.Within limit))
    (hrs : ∀ r ∈ rs, r.Fits ∧ r.Measured) :
    Agrees (replayAll exempt view root rs) (Editing.Act.replayAll view root rs) s := by
  induction rs generalizing s d with
  | nil => exact .pure () s
  | cons r rs ih =>
      obtain ⟨⟨hr, hm⟩, hrs⟩ := List.forall_mem_cons.mp hrs
      have hfirst := Session.first_mem_stages view root r rs s
      refine (hexempt.replay h (hfits s List.mem_cons_self) hr hm (hwithin _ hfirst)).bind
        fun _ t ht => ?_
      obtain ⟨c, hnext⟩ := h.goes_on ht
      have hstages : s.stages view root (r :: rs) = t :: t.stages view root rs := by
        rw [Session.stages, ht]
      rw [hstages] at hfits hwithin
      exact ih hnext (fun u hu => hfits u (List.mem_cons_of_mem s hu))
        (fun u hu => hwithin u (List.mem_cons_of_mem t hu)) hrs

/-- An undo agrees with the one in words, when all that it passes through fits into words. -/
theorem undo (h : s.AtRest) (hmeasured : s.Every Document.Measured)
    (hfits : ∀ t ∈ s :: s.moments (.undo view), t.Every Document.Fits)
    (hwithin : ∀ t ∈ s.moments (.undo view), t.Every (Document.Within limit)) :
    Agrees (undo exempt view) (Editing.Act.undo view) s := by
  refine .ask_bind fun root hroot => .ask_bind fun d hd => ?_
  cases henabled : d.log.isEnabled with
  | false =>
      refine .bind (.throw _ s) fun _ _ hrun => ?_
      cases hrun
  | true =>
      obtain ⟨v, c, hs⟩ := h.wellFormed.registry.shows_of_rootOf hroot
      obtain ⟨w, hw, -⟩ := h.wellFormed.registry.shows_root hs.document
      obtain rfl := Except.ok.inj (hw.document_eq.symm.trans hd)
      have htake := Editing.Act.run_takeGroup hw
      refine (Agrees.plainly _ s).bind fun group t ht => ?_
      obtain ⟨hgroup, rfl⟩ := Prod.mk.inj (htake.symm.trans ht)
      refine (Agrees.plainly _ _).bind fun _ u hu => ?_
      obtain ⟨-, rfl⟩ := Prod.mk.inj ((Editing.Act.run_beginReplay hw).symm.trans hu)
      have hmoments := Session.moments_undo h.wellFormed hs henabled hgroup
      rw [hmoments] at hfits hwithin
      have hgroups : ∀ r ∈ group, r.Fits ∧ r.Measured := by
        intro r hr
        rcases (h.wellFormed.admits hs.document).log.mem_of_group hgroup hr with rfl | hmem
        · exact ⟨trivial, trivial⟩
        · exact ⟨(hfits s List.mem_cons_self root c hs.document).recorded r hmem,
            hmeasured root c hs.document r hmem⟩
      have hreplayed := hexempt.replayAll (Session.replaying_begun h.wellFormed hs hgroup)
        (fun x hx => hfits x (List.mem_cons_of_mem _ (List.mem_cons_of_mem _ ?_)))
        (fun x hx => hwithin x (List.mem_cons_of_mem _ (List.mem_cons_of_mem _ ?_))) hgroups
      · refine hreplayed.attempt.bind fun outcome x _ => (Agrees.plainly _ x).bind fun _ y _ => ?_
        cases outcome with
        | ok _ => exact .pure () y
        | error e => exact (Agrees.plainly _ y).bind fun _ z _ => .throw e z
      · rw [← List.cons_append]
        exact List.mem_append_left _ hx
      · exact List.mem_append_left _ hx

end Machine.Suffices

end Editing
