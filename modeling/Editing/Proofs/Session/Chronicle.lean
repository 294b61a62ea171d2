import Editing.Proofs.History.Tracing
import Editing.Proofs.Session.Moments

/-!
# The texts behind the records

A chronicle keeps, beside the undo records of a root, the full text that was there just before the
edit that created each record. It is read off the sessions that a run passes through: every
operation is one such moment, and an undo passes through one for each record that it takes back. The
records of a log always trace the text of its root back through the chronicle.
-/

namespace Editing

/-! ## Chronicles -/

/-- The texts before the records of a document, from those of the document just before it: a record
that has been added goes back to the text that was there, and records that are gone take theirs
with them. -/
def Document.remember (d c : Document) (texts : List Text) : List Text :=
  if d.log.records.length < c.log.records.length then d.text :: texts
  else texts.take c.log.records.length

/-- The texts before the records of a root, one moment later. -/
def Session.remember (root : ViewId) (s t : Session) (texts : List Text) : List Text :=
  match s.editor.documents.get? root, t.editor.documents.get? root with
  | some d, some c => d.remember c texts
  | _, _ => []

/-- The texts before the records of a root, newest first, once a session has passed through some
moments. -/
def Session.chronicle (root : ViewId) : Session → List Session → List Text → List Text
  | _, [], texts => texts
  | s, t :: later, texts => chronicle root t later (remember root s t texts)

/-! ## From one moment to the next -/

/-- A document whose records trace its text back when those of the one before it do. -/
def Document.Follows (d c : Document) : Prop :=
  ∀ texts, Record.Traces d.log.records d.text texts →
    Record.Traces c.log.records c.text (d.remember c texts)

namespace Document

variable {d c : Document}

theorem follows_of_eq (htext : c.text = d.text) (hrecords : c.log.records = d.log.records) :
    d.Follows c := by
  intro texts h
  rw [remember, htext, hrecords, if_neg (Nat.lt_irrefl _),
    List.take_of_length_le (Nat.le_of_eq h.length_eq)]
  exact h

theorem follows_of_take (htext : c.text = d.text) {k : Nat}
    (hrecords : c.log.records = d.log.records.take k) : d.Follows c := by
  intro texts h
  have hlen : c.log.records.length = min k d.log.records.length := by
    rw [hrecords, List.length_take]
  rw [remember, if_neg (by omega), htext, hrecords, List.length_take]
  have htake : texts.take (min k d.log.records.length) = texts.take k := by
    rw [← h.length_eq]
    exact List.take_eq_take_min.symm
  rw [htake]
  exact h.take k

theorem follows_of_push (hlen : c.log.records.length = d.log.records.length + 1)
    (h : ∀ texts, Record.Traces d.log.records d.text texts →
      Record.Traces c.log.records c.text (d.text :: texts)) : d.Follows c := by
  intro texts ht
  rw [remember, if_pos (by omega)]
  exact h texts ht

theorem follows_of_close (htext : c.text = d.text)
    (hrecords : c.log.records = Record.close d.log.records) : d.Follows c := by
  intro texts h
  rcases h.close with heq | ⟨heq, hclosed⟩
  · exact follows_of_eq htext (hrecords.trans heq) texts h
  · rw [remember, hrecords, if_pos (by rw [heq, List.length_cons]; exact Nat.lt_succ_self _), htext]
    exact hclosed

theorem follows_of_no_records (hrecords : c.log.records = []) : d.Follows c := by
  intro texts _
  rw [remember, hrecords, List.length_nil, if_neg (Nat.not_lt_zero _), List.take_zero]
  trivial

theorem follows_apply (hlog : d.log.WellFormed) (hs : d.log.suspended = false) {change : Change}
    (hrange : change.rangeError d.length = none) : d.Follows (d.apply change) := by
  cases haccepts : d.log.acceptsRecords with
  | false =>
      have hdisabled : d.log.isEnabled = false := by
        cases he : d.log.isEnabled with
        | false => rfl
        | true => rw [UndoLog.accepts_of_enabled he hs] at haccepts; cases haccepts
      apply follows_of_no_records
      cases change with
      | insert pos s =>
          change (d.log.recordInsert pos s.length).records = []
          rw [UndoLog.recordInsert_of_rejects haccepts, UndoLog.records_of_disabled hdisabled]
      | delete start stop =>
          change (d.log.record _).records = []
          rw [UndoLog.record_of_rejects haccepts, UndoLog.records_of_disabled hdisabled]
      | property start stop key value =>
          change (d.log.record _).records = []
          rw [UndoLog.record_of_rejects haccepts, UndoLog.records_of_disabled hdisabled]
  | true =>
      cases change with
      | insert pos s =>
          have hrecords : (d.apply (.insert pos s)).log.records =
              Record.addInsert pos s.length d.log.records := by
            change (d.log.recordInsert pos s.length).records = _
            rw [hlog.records_recordInsert, haccepts, if_pos rfl]
          intro texts h
          rw [remember, hrecords]
          -- A merged insertion keeps the text that was there before the first of them.
          rcases h.addInsert (Change.insert_le hrange) s with ⟨heq, hpushed⟩ | ⟨hlen, hmerged⟩
          · rw [if_pos (by rw [heq, List.length_cons]; exact Nat.lt_succ_self _)]
            exact hpushed
          · have hlast : texts.length ≤ (Record.addInsert pos s.length d.log.records).length :=
              Nat.le_of_eq (h.length_eq.trans hlen.symm)
            rw [if_neg (by omega), List.take_of_length_le hlast]
            exact hmerged
      | delete start stop =>
          obtain ⟨hstart, hstop⟩ := Change.delete_le hrange
          have hrecords : (d.apply (.delete start stop)).log.records =
              d.deletionRecord start stop :: d.log.records := by
            change (d.log.record _).records = _
            rw [hlog.records_record, haccepts, if_pos rfl]
          apply follows_of_push (by rw [hrecords, List.length_cons])
          intro texts h
          rw [hrecords]
          exact h.addDelete hstart hstop _
      | property start stop key value =>
          obtain ⟨-, hstop⟩ := Change.property_le hrange
          have hrecords : (d.apply (.property start stop key value)).log.records =
              .property start stop key value :: d.log.records := by
            change (d.log.record _).records = _
            rw [hlog.records_record, haccepts, if_pos rfl]
          apply follows_of_push (by rw [hrecords, List.length_cons])
          intro texts h
          rw [hrecords]
          exact h.addProperty hstop key value

theorem Follows.congr {b a : Document} (h : d.Follows c) (hdb : d.Alike b) (hca : c.Alike a) :
    b.Follows a := by
  intro texts ht
  rw [remember, hdb.log, hca.log, hdb.text, hca.text]
  rw [hdb.log, hdb.text] at ht
  exact h texts ht

theorem Turn.follows (h : d.Turn c) (hlog : d.log.WellFormed) (hs : d.log.suspended = false) :
    d.Follows c := by
  cases h with
  | kept h => exact follows_of_eq h.text (by rw [h.log])
  | @changed b hb change hrange hvoid hc =>
      exact (follows_apply (hb.log.symm ▸ hlog) (hb.log.symm ▸ hs) hrange).congr
        ⟨hb.text.symm, hb.log.symm⟩ hc
  | stepped htext hl =>
      rcases hl.records_eq hlog with heq | ⟨k, heq⟩
      · exact follows_of_close htext heq
      · exact follows_of_take htext heq

end Document

namespace Session

variable {s t : Session} {root : ViewId} {texts : List Text} {passed : List Session}

/-- Every document follows from the one that its root had before. -/
def Follows (s t : Session) : Prop :=
  ∀ root c, t.editor.documents.get? root = some c →
    (∃ d, s.editor.documents.get? root = some d ∧ d.Follows c) ∨ c.log.records = []

theorem Leads.follows (h : s.Leads t) (hw : s.editor.WellFormed) : s.Follows t := by
  intro root c hc
  rcases h.turn hc with ⟨d, hd, hturn⟩ | ⟨-, hlog⟩
  · have ha := hw.admits hd
    exact Or.inl ⟨d, hd, hturn.follows ha.log ha.takes⟩
  · exact Or.inr (by rw [hlog]; rfl)

/-- Changing one document so that it follows from what it was leaves the others as they are. -/
theorem follows_onDocument {f : Document → Document}
    (hf : ∀ d, s.editor.documents.get? root = some d → d.Follows (f d)) :
    s.Follows (s.onDocument root f) := by
  intro r c hc
  rw [get?_onDocument] at hc
  split at hc
  · rename_i hr
    subst hr
    obtain ⟨d, hd, rfl⟩ := Option.map_eq_some_iff.mp hc
    exact Or.inl ⟨d, hd, hf d hd⟩
  · exact Or.inl ⟨c, hc, Document.follows_of_eq rfl rfl⟩

theorem follows_of_documents (h : t.editor.documents = s.editor.documents) : s.Follows t := by
  intro root c hc
  exact Or.inl ⟨c, h ▸ hc, Document.follows_of_eq rfl rfl⟩

/-! ## Undoing -/

theorem follows_ended (d : Document) (h : d.log.WellFormed) : d.Follows d.ended := by
  have hrecords := h.endReplay.records_boundary
  split at hrecords
  · exact Document.follows_of_close rfl hrecords
  · exact Document.follows_of_eq rfl hrecords

theorem follows_end (h : s.editor.WellFormed) :
    s.Follows (s.onDocument root Document.ended) :=
  follows_onDocument fun d hd => follows_ended d (h.admits hd).log

theorem follows_rewind (h : s.editor.WellFormed) (cursor : Cursor) :
    s.Follows ((s.onDocument root Document.ended).onDocument root (Document.rewound cursor)) := by
  rw [onDocument_onDocument]
  exact follows_onDocument fun d hd => follows_ended d (h.admits hd).log

theorem follows_passing : Passing Follows where
  refl _ := follows_of_documents rfl
  leads hw h := h.follows hw
  begins _ _ := follows_onDocument fun _ _ => Document.follows_of_eq rfl rfl
  ends _ h := follows_end h
  halts _ cursor h := follows_rewind h cursor

/-! ## Runs -/

theorem passes_all (steps : List Step) (s : Session) (h : s.AtRest) :
    s.Passes Follows (runMoments steps s) (takeAll steps s).2 ∧ (takeAll steps s).2.AtRest :=
  ⟨follows_passing.run steps s h, atRest_takeAll steps h⟩

/-- The records of a root, if there is one, trace its text back through some texts. -/
def Traced (root : ViewId) (s : Session) (texts : List Text) : Prop :=
  ∀ d, s.editor.documents.get? root = some d → Record.Traces d.log.records d.text texts

theorem Traced.remember (ht : s.Traced root texts) (h : s.Follows t) :
    t.Traced root (Session.remember root s t texts) := by
  intro c hc
  rcases h root c hc with ⟨d, hd, hfollows⟩ | hnone
  · rw [Session.remember, hd, hc]
    exact hfollows texts (ht d hd)
  · have hforgotten : Session.remember root s t texts = [] := by
      rw [Session.remember, hc]
      cases hd : s.editor.documents.get? root with
      | none => rfl
      | some d =>
          change d.remember c texts = []
          rw [Document.remember, hnone, List.length_nil, if_neg (Nat.not_lt_zero _), List.take_zero]
    rw [hnone, hforgotten]
    trivial

theorem Passes.traced (h : s.Passes Follows passed t) (ht : s.Traced root texts) :
    t.Traced root (s.chronicle root passed texts) := by
  induction h generalizing texts with
  | nil => exact ht
  | cons hfollows _ ih => exact ih (ht.remember hfollows)

theorem fresh_traced (limits : Limits) (locks : Option LockProtocol) (root : ViewId) :
    (fresh limits locks).Traced root [] := by
  intro d hd
  simp [fresh, start, Editor.empty] at hd

theorem Reachable.traced (h : s.Reachable) (root : ViewId) : ∃ texts, s.Traced root texts := by
  induction h with
  | fresh limits locks => exact ⟨[], fresh_traced limits locks root⟩
  | after o hs ih =>
      obtain ⟨texts, htexts⟩ := ih
      exact ⟨_, (follows_passing.moments hs.atRest o).traced htexts⟩

/-- In every run, the undo records of a root, reverted from the newest to the oldest, each lie
within the text when their turn comes and lead to the text that was there just before their edit. -/
theorem records_trace_history (limits : Limits) (locks : Option LockProtocol) (steps : List Step)
    (root : ViewId) (hroot : root ∈ (takeAll steps (fresh limits locks)).2.editor.rootList) :
    ∃ text records,
      (takeAll steps (fresh limits locks)).2.editor.fullText root = .ok text ∧
      (takeAll steps (fresh limits locks)).2.editor.undoRecords root = .ok records ∧
      Record.Traces records text
        ((fresh limits locks).chronicle root (runMoments steps (fresh limits locks)) []) := by
  obtain ⟨hpasses, hrest⟩ := passes_all steps _ (fresh_atRest limits locks)
  have hfresh := fresh_traced limits locks root
  obtain ⟨v, hv, hbase⟩ := Act.mem_rootList.mp hroot
  obtain ⟨r, d, hs⟩ := hrest.wellFormed.registry.shows_of_live hv
  obtain rfl : root = r := by rw [← hs.root_eq, hbase, Option.getD_none]
  exact ⟨d.text, d.log.records, hs.fullText_eq, hs.undoRecords_eq,
    hpasses.traced hfresh d hs.document⟩

/-- A run whose undo stops at a record that its view does not show, with the record before it taken
back. -/
def haltedRun : List Step :=
  [.op (.createRoot "v"), .op (.insert 0 "abc".toList), .op (.closeGroup 0),
    .op (.insertRaw 0 0 ['x']), .op (.insertRaw 0 4 ['y']), .op (.narrow 0 3 5), .op (.undo 0)]

theorem haltedRun_traces_history :
    0 ∈ (takeAll haltedRun (fresh .default none)).2.editor.rootList ∧
      (fresh .default none).chronicle 0 (runMoments haltedRun (fresh .default none)) [] =
        ["xabc".toList, "xabcy".toList, "xabcy".toList, "xabc".toList, "abc".toList,
          "abc".toList, []] ∧
      ∃ text records,
        (takeAll haltedRun (fresh .default none)).2.editor.fullText 0 = .ok text ∧
        (takeAll haltedRun (fresh .default none)).2.editor.undoRecords 0 = .ok records ∧
        Record.Traces records text
          ((fresh .default none).chronicle 0 (runMoments haltedRun (fresh .default none)) []) := by
  have hroot : 0 ∈ (takeAll haltedRun (fresh .default none)).2.editor.rootList := by decide +kernel
  refine ⟨hroot, ?_, records_trace_history .default none haltedRun 0 hroot⟩
  decide +kernel

end Session

end Editing
