import Editing.Proofs.Session.Enduring

/-!
# Properties of texts with their logs

What a turn keeps in a text and its log, and the beginning and the end of an undo with it, holds of
every text of a run. Where the property needs something of the text that a turn leads to, this has
to hold of all texts on the way.
-/

namespace Editing

/-- Turns and undos keep the property, where the document that they lead to meets the condition. -/
structure Document.Turning (P Q : Document → Prop) : Prop where
  empty : ∀ c : Document, c.text = [] → c.log = .empty → Q c
  turn : ∀ {d c : Document}, d.log.WellFormed → d.Turn c → P c → Q d → Q c
  begun : ∀ d : Document, Q d → Q { d with log := d.log.beginReplay }
  ended : ∀ d : Document, d.log.WellFormed → Q d → Q d.ended
  rewound : ∀ (d : Document) (cursor : Cursor), Q d → Q (d.rewound cursor)

namespace Record

/-- A record is one from before, or an insertion that ends where the new one does. -/
theorem mem_addInsert {pos length : Nat} {rs : List Record} {r : Record}
    (h : r ∈ addInsert pos length rs) :
    (∃ start n, r = .insert start n ∧ start + n = pos + length) ∨ r ∈ rs := by
  have happart (hr : r ∈ Record.insert pos length :: rs) :
      (∃ start n, r = .insert start n ∧ start + n = pos + length) ∨ r ∈ rs := by
    rcases List.mem_cons.mp hr with rfl | hr
    · exact Or.inl ⟨pos, length, rfl, rfl⟩
    · exact Or.inr hr
  cases rs with
  | nil => exact happart h
  | cons x rs =>
      cases x with
      | insert start n =>
          rw [addInsert] at h
          split at h
          · rename_i hend
            rcases List.mem_cons.mp h with rfl | hr
            · exact Or.inl ⟨start, n + length, rfl, by rw [← hend, Nat.add_assoc]⟩
            · exact Or.inr (List.mem_cons_of_mem _ hr)
          · exact happart h
      | delete _ _ _ => exact happart h
      | property _ _ _ _ => exact happart h
      | boundary => exact happart h

theorem mem_close {rs : List Record} {r : Record} (h : r ∈ close rs) :
    r = .boundary ∨ r ∈ rs := by
  cases rs with
  | nil => cases h
  | cons x rs =>
      rw [close] at h
      split at h
      · exact Or.inr h
      · exact List.mem_cons.mp h

/-- The record that a change of the document leaves: its own, or that of an insertion which it goes
on from. -/
def Notes (r : Record) (d : Document) : Change → Prop
  | .insert pos text => ∃ start n, r = .insert start n ∧ start + n = pos + text.length
  | .delete start stop => r = d.deletionRecord start stop
  | .property start stop key value => r = .property start stop key value

end Record

namespace Document

variable {d : Document}

theorem mem_records_apply (hl : d.log.WellFormed) {c : Change} {r : Record}
    (hr : r ∈ (d.apply c).log.records) : r ∈ d.log.records ∨ r.Notes d c := by
  cases c with
  | insert pos text =>
      change r ∈ (d.log.recordInsert pos text.length).records at hr
      rw [hl.records_recordInsert] at hr
      split at hr
      · exact (Record.mem_addInsert hr).symm
      · exact Or.inl hr
  | delete start stop =>
      change r ∈ (d.log.record (d.deletionRecord start stop)).records at hr
      rw [hl.records_record] at hr
      split at hr
      · exact (List.mem_cons.mp hr).symm
      · exact Or.inl hr
  | property start stop key value =>
      change r ∈ (d.log.record (.property start stop key value)).records at hr
      rw [hl.records_record] at hr
      split at hr
      · exact (List.mem_cons.mp hr).symm
      · exact Or.inl hr

/-- What boundaries have, and what changes leave, all records have: logs are cut but not changed
otherwise. -/
theorem turning_of_records (P : Text → Prop) {Q : Record → Prop} (hboundary : Q .boundary)
    (hnotes : ∀ {d : Document} {c : Change} {r : Record}, c.rangeError d.length = none →
      P (d.apply c).text → r.Notes d c → Q r) :
    Turning (fun d => P d.text) fun d => ∀ r ∈ d.log.records, Q r where
  empty c _ hlog r hr := by
    rw [hlog] at hr
    cases hr
  turn {d c} hl hturn htext h r hr := by
    cases hturn with
    | kept halike =>
        rw [halike.log] at hr
        exact h r hr
    | @changed b halike change hrange hvoid halike' =>
        rw [halike'.log] at hr
        rw [halike'.text] at htext
        rcases mem_records_apply (halike.log ▸ hl) hr with hr | hr
        · rw [halike.log] at hr
          exact h r hr
        · exact hnotes hrange htext hr
    | stepped htext hlog =>
        rcases hlog.records_eq hl with heq | ⟨k, heq⟩
        · rw [heq] at hr
          rcases Record.mem_close hr with rfl | hr
          · exact hboundary
          · exact h r hr
        · rw [heq] at hr
          exact h r (List.mem_of_mem_take hr)
  begun _ h := h
  ended d hl h r hr := by
    change r ∈ d.log.endReplay.boundary.records at hr
    rw [hl.endReplay.records_boundary] at hr
    split at hr
    · rcases Record.mem_close hr with rfl | hr
      · exact hboundary
      · exact h r hr
    · exact h r hr
  rewound _ _ h := h

end Document

namespace Session

variable {P Q : Document → Prop} {s : Session} {root : ViewId}

theorem Every.onDocument (h : s.Every Q) {f : Document → Document}
    (hf : ∀ d, s.editor.documents.get? root = some d → Q (f d)) : (s.onDocument root f).Every Q := by
  intro r c hc
  rw [get?_onDocument] at hc
  split at hc
  · rename_i hr
    obtain ⟨d, hd, rfl⟩ := Option.map_eq_some_iff.mp hc
    exact hf d (hr ▸ hd)
  · exact h r c hc

end Session

namespace Document.Turning

open Session

variable {P Q : Document → Prop} {s : Session}

theorem passing (hQ : Turning P Q) : Passing fun s t => t.Every P → s.Every Q → t.Every Q where
  refl _ _ := id
  leads hw hleads hP h root c hc := by
    rcases hleads.turn hc with ⟨d, hd, hturn⟩ | ⟨htext, hlog⟩
    · exact hQ.turn (hw.admits hd).log hturn (hP root c hc) (h root d hd)
    · exact hQ.empty c htext hlog
  begins _ root _ h := h.onDocument fun d hd => hQ.begun d (h root d hd)
  ends root hw _ h := h.onDocument fun d hd => hQ.ended d (hw.admits hd).log (h root d hd)
  halts root cursor hw _ h := by
    rw [onDocument_onDocument]
    exact h.onDocument fun d hd =>
      hQ.rewound d.ended cursor (hQ.ended d (hw.admits hd).log (h root d hd))

/-- What turns and undos keep holds throughout a run, where all texts on the way meet the
condition. -/
theorem moments (hQ : Turning P Q) (steps : List Step) (s : Session) (h : s.AtRest)
    (hP : ∀ t ∈ runMoments steps s, t.Every P) (hs : s.Every Q) :
    ∀ t ∈ s :: runMoments steps s, t.Every Q := by
  have hpasses := hQ.passing.run steps s h
  generalize runMoments steps s = passed at hpasses hP
  generalize (takeAll steps s).2 = u at hpasses
  clear h
  induction hpasses with
  | nil s => exact List.forall_mem_singleton.mpr hs
  | cons hfirst _ ih =>
      obtain ⟨ht, hrest⟩ := List.forall_mem_cons.mp hP
      exact List.forall_mem_cons.mpr ⟨hs, ih (hfirst ht hs) hrest⟩

/-- What turns and undos keep without a condition holds of every text of a reachable session. -/
theorem reachable (hQ : Turning (fun _ => True) Q) (h : s.Reachable) : s.Every Q := by
  have hpassing : Passing fun s t => s.Every Q → t.Every Q :=
    { refl := fun _ => id
      leads := fun hw hleads => hQ.passing.leads hw hleads fun _ _ _ => trivial
      begins := fun s root => hQ.passing.begins s root fun _ _ _ => trivial
      ends := fun root hw => hQ.passing.ends root hw fun _ _ _ => trivial
      halts := fun root cursor hw => hQ.passing.halts root cursor hw fun _ _ _ => trivial }
  exact hpassing.reachable fresh_every h

end Document.Turning

end Editing
