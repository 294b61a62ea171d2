import Editing.History.LogStep
import Editing.Proofs.History.Mirroring

/-!
# Running both logs

Whatever an undo log is asked for in an orderly way, it gives the answers of the plain log, and it
means what the plain log has become. All its slots stay accounted for, so that no link and no cursor
ever leads to a slot that has been freed, or to a record put there since.
-/

namespace Editing

/-- The links lead from slots in use to slots in use. Each slot number is on the chain or on the
list of free slots, once and not on the other, and there are no other numbers on either. -/
structure Arena.Accounted (a : Arena) : Prop where
  linked : a.Linked a.newest a.chain
  used_eq : a.used = a.chain.length
  slots : ∀ i < a.slots.size,
    a.slot? i ≠ none ∧ (a.chain.map Prod.fst).count i = 1 ∧ a.free.count i = 0 ∨
      a.slot? i = none ∧ (a.chain.map Prod.fst).count i = 0 ∧ a.free.count i = 1
  beyond : ∀ i, a.slots.size ≤ i → i ∉ a.chain.map Prod.fst ∧ i ∉ a.free

/-- All slots of a log are accounted for, and its cursor names a slot on the chain that holds a
change. -/
structure UndoLog.Accounted (l : UndoLog) : Prop where
  arena : ∀ a, l.arena = some a → a.Accounted
  cursor : ∀ i, l.cursor = .resume i → ∃ r, (i, r) ∈ l.chain ∧ r ≠ .boundary

theorem Arena.WellFormed.accounted {a : Arena} (h : a.WellFormed) : a.Accounted where
  linked := h.linked
  used_eq := h.used_eq
  slots i hi := by
    have hmem := h.numbering.mem_iff.mpr (List.mem_range.mpr hi)
    obtain ⟨hchain, hfree, hapart⟩ := List.nodup_append.mp h.nodup
    rcases List.mem_append.mp hmem with hin | hin
    · obtain ⟨e, he, rfl⟩ := List.mem_map.mp hin
      obtain ⟨older, hslot⟩ := h.slot?_of_mem he
      refine Or.inl ⟨fun hnone => ?_, ?_, ?_⟩
      · rw [hslot] at hnone
        cases hnone
      · rw [hchain.count, if_pos hin]
      · rw [hfree.count, if_neg fun hf => hapart e.1 hin e.1 hf rfl]
    · refine Or.inr ⟨h.vacant i hin, ?_, ?_⟩
      · rw [hchain.count, if_neg fun hc => hapart i hc i hin rfl]
      · rw [hfree.count, if_pos hin]
  beyond i hi := by
    have hout : ¬i ∈ a.chain.map Prod.fst ++ a.free := fun hmem =>
      Nat.not_lt.mpr hi (List.mem_range.mp (h.numbering.mem_iff.mp hmem))
    rw [List.mem_append, not_or] at hout
    exact hout

theorem UndoLog.Sound.accounted {l : UndoLog} (h : l.Sound) : l.Accounted :=
  ⟨fun a ha => (h.wellFormed.arena a ha).accounted, fun _ hi => h.holds.mem hi⟩

/-- While its handler runs, a log stays as sound as it was. -/
theorem UndoLog.Sound.during {l : UndoLog} (h : l.Sound) (he : l.isEnabled = true)
    (actions : List LogAction) : (runActions actions { l with suspended := true }).log.Sound :=
  have he' : isEnabled { l with suspended := true } = true := he
  (h.suspend true).of_remains (withstands he' rfl actions).remains

/-- The plain log is what the log means, and so is the mark that it has noted, as long as this may
be put back. -/
structure LogState.Mirrors (noted : Bool) (s : LogState) (p : PlainState) : Prop where
  sound : s.log.Sound
  plain : p.log = s.log.plain
  noted : noted = true → s.log.Holds s.noted ∧ p.noted = s.log.markOf s.noted

namespace LogState.Mirrors

variable {noted : Bool} {s : LogState} {p : PlainState} {l : UndoLog} {m : PlainLog}

theorem start : Mirrors false LogState.start PlainState.start :=
  ⟨UndoLog.empty_sound, rfl, fun h => absurd h Bool.false_ne_true⟩

/-- A cursor that was noted goes on being right while the log keeps its old records. -/
theorem kept (h : Mirrors noted s p) (hk : s.log.Keeps l) (hl : l.Sound) (hm : m = l.plain) :
    Mirrors noted { s with log := l } { p with log := m } := by
  refine ⟨hl, hm, fun hnoted => ?_⟩
  obtain ⟨hholds, hmark⟩ := h.noted hnoted
  obtain ⟨hholds', hmark'⟩ := hk.holds _ hholds
  exact ⟨hholds', hmark.trans hmark'.symm⟩

theorem lost (_ : Mirrors noted s p) (hl : l.Sound) (hm : m = l.plain) :
    Mirrors false { s with log := l } { p with log := m } :=
  ⟨hl, hm, fun h => absurd h Bool.false_ne_true⟩

/-- Both logs give the same answer to each step and become the same. -/
theorem step (h : Mirrors noted s p) {step : LogStep} (ha : step.allowed noted = true) :
    (p.step step).1 = (s.step step).1 ∧
      Mirrors (step.notes noted) (s.step step).2 (p.step step).2 := by
  have hw := h.sound.wellFormed
  have hc := h.sound.holds
  cases step with
  | record r =>
      have hr : r ≠ .boundary := by
        rintro rfl
        cases ha
      refine ⟨?_, h.kept (hw.keeps_record r) (h.sound.record hr) ?_⟩
      · rw [PlainState.step, LogState.step, h.plain, UndoLog.acceptsRecords_plain]
      · rw [h.plain, hw.plain_record hc]
  | recordInsert pos length =>
      refine ⟨?_, h.kept (hw.keeps_recordInsert pos length) (h.sound.recordInsert pos length) ?_⟩
      · rw [PlainState.step, LogState.step, h.plain, UndoLog.acceptsRecords_plain]
      · rw [h.plain, hw.plain_recordInsert hc]
  | boundary =>
      refine ⟨rfl, h.kept hw.keeps_boundary h.sound.boundary ?_⟩
      rw [h.plain, hw.plain_boundary hc]
  | clear =>
      refine ⟨rfl, h.lost h.sound.clear ?_⟩
      rw [h.plain, UndoLog.plain_clear]
  | disable =>
      refine ⟨rfl, h.lost h.sound.disable ?_⟩
      rw [h.plain, UndoLog.plain_disable]
  | enable =>
      refine ⟨rfl, h.lost h.sound.enable ?_⟩
      rw [h.plain, UndoLog.plain_enable]
  | truncate limits =>
      obtain ⟨hsound, hplain⟩ := h.sound.truncates limits
      rw [← h.plain] at hplain
      simp only [PlainState.step, LogState.step, hplain, true_and]
      exact h.lost hsound rfl
  | nextGroup =>
      have hplain := h.sound.plain_nextGroup
      rw [← h.plain] at hplain
      simp only [PlainState.step, LogState.step, hplain, true_and]
      refine ⟨h.sound.nextGroup, rfl, fun _ => ?_⟩
      obtain ⟨hholds, hmark⟩ := (UndoLog.keeps_nextGroup s.log).holds _ hc
      refine ⟨hholds, ?_⟩
      rw [hmark, h.plain]
      rfl
  | beginReplay =>
      refine ⟨rfl, h.kept ⟨rfl, fun _ h => ⟨h, rfl⟩⟩ h.sound.beginReplay ?_⟩
      rw [h.plain, UndoLog.plain_beginReplay]
  | endReplay =>
      refine ⟨rfl, h.kept ⟨rfl, fun _ h => ⟨h, rfl⟩⟩ h.sound.endReplay ?_⟩
      rw [h.plain, UndoLog.plain_endReplay]
  | rewind =>
      obtain ⟨hholds, hmark⟩ := h.noted ha
      refine ⟨rfl, h.kept ⟨rfl, fun _ h => ⟨h, rfl⟩⟩ (h.sound.rewind hholds) ?_⟩
      rw [h.plain, UndoLog.plain_rewind, hmark]

theorem run (h : Mirrors noted s p) {steps : List LogStep} (ho : LogStep.Orderly noted steps) :
    (p.run steps).1 = (s.run steps).1 ∧
      ∃ noted', Mirrors noted' (s.run steps).2 (p.run steps).2 := by
  induction steps generalizing noted s p with
  | nil => exact ⟨rfl, noted, h⟩
  | cons first steps ih =>
      obtain ⟨hanswer, hnext⟩ := h.step ho.1
      obtain ⟨hanswers, hlast⟩ := ih hnext ho.2
      exact ⟨List.cons_eq_cons.mpr ⟨hanswer, hanswers⟩, hlast⟩

end LogState.Mirrors

/-! ## Logs that orderly steps lead to -/

namespace LogState

/-- Orderly steps lead from one state to another. -/
def Reaches (noted : Bool) (s : LogState) (noted' : Bool) (t : LogState) : Prop :=
  ∃ steps, LogStep.Orderly noted steps ∧ steps.foldl (fun b step => step.notes b) noted = noted' ∧
    (s.run steps).2 = t

namespace Reaches

variable {noted noted' noted'' : Bool} {s t u : LogState}

theorem refl (noted : Bool) (s : LogState) : Reaches noted s noted s := ⟨[], trivial, rfl, rfl⟩

theorem trans (h : Reaches noted s noted' t) (h' : Reaches noted' t noted'' u) :
    Reaches noted s noted'' u := by
  obtain ⟨steps, ho, hn, hrun⟩ := h
  induction steps generalizing noted s with
  | nil =>
      cases hn
      cases hrun
      exact h'
  | cons step steps ih =>
      obtain ⟨later, hlater, hnlater, hrunlater⟩ := ih ho.2 hn hrun
      exact ⟨step :: later, ⟨ho.1, hlater⟩, hnlater, hrunlater⟩

theorem step (h : Reaches noted s noted' t) (step : LogStep) (ha : step.allowed noted' = true) :
    Reaches noted s (step.notes noted') (t.step step).2 :=
  h.trans ⟨[step], ⟨ha, trivial⟩, rfl, rfl⟩

end Reaches

end LogState

/-- Orderly steps lead from an empty log to the log. -/
def UndoLog.Issued (l : UndoLog) : Prop :=
  ∃ noted cursor, LogState.Reaches false LogState.start noted ⟨l, cursor⟩

namespace UndoLog.Issued

variable {l : UndoLog}

theorem empty : UndoLog.empty.Issued := ⟨false, .idle, .refl false LogState.start⟩

theorem step (h : l.Issued) {m : UndoLog} (step : LogStep) (ha : step.allowed false = true)
    (hm : ∀ cursor, (LogState.step ⟨l, cursor⟩ step).2.log = m) : m.Issued := by
  obtain ⟨noted, cursor, hreaches⟩ := h
  have ha' : step.allowed noted = true := by
    cases step with
    | rewind => cases ha
    | record r => exact ha
    | _ => rfl
  have hnext := hreaches.step step ha'
  refine ⟨step.notes noted, (LogState.step ⟨l, cursor⟩ step).2.noted, ?_⟩
  rw [← hm cursor]
  exact hnext

theorem boundary (h : l.Issued) : l.boundary.Issued := h.step .boundary rfl fun _ => rfl

theorem nextGroup (h : l.Issued) : l.nextGroup.2.Issued := h.step .nextGroup rfl fun _ => rfl

end UndoLog.Issued

end Editing
