import Editing.Proofs.Session.Calling
import Editing.Proofs.Session.Locking
import Editing.Proofs.Session.Ticking

/-!
# The announcement of first changes

Those around are told when an unmodified text is about to be modified for the first time, and not
again before it has been declared unmodified. One operation can apply many changes, so what it tells
is put together from what its parts tell: a text that is modified already is not announced, and no
lock is asked for it either.
-/

namespace Editing

namespace Call

/-- Whether the call announces the first change of the root. -/
def announces (root : ViewId) : Call → Bool
  | firstChange r => r == root
  | _ => false

/-- Whether the call tells of a lock that was asked for the root. -/
def asks (root : ViewId) : Call → Bool
  | lock r _ | lockRefused r _ => r == root
  | _ => false

/-- Whether the call has nothing to do with first changes of the root or locks for it. -/
def passesBy (root : ViewId) (c : Call) : Prop := c.announces root = false ∧ c.asks root = false

end Call

namespace UndoLog

theorem acceptsRecords_boundary (l : UndoLog) :
    l.boundary.acceptsRecords = l.acceptsRecords := by
  have henabled := isEnabled_boundary l
  rw [isEnabled, isEnabled] at henabled
  rw [acceptsRecords, acceptsRecords, henabled, suspended_boundary]

theorem acceptsRecords_nextGroup (l : UndoLog) :
    l.nextGroup.2.acceptsRecords = l.acceptsRecords := by
  rw [acceptsRecords, acceptsRecords, arena_nextGroup, suspended_nextGroup]

end UndoLog

/-! ## What is told of one document -/

namespace Document

variable {root : ViewId} {b d c : Document} {calls later : List Call}

/-- The ticks are the same, and records are accepted as before. -/
structure Agrees (d c : Document) : Prop where
  tick : c.tick = d.tick
  chars : c.charsTick = d.charsTick
  save : c.saveTick = d.saveTick
  accepts : c.log.acceptsRecords = d.log.acceptsRecords

theorem Agrees.trans (h : b.Agrees d) (h' : d.Agrees c) : b.Agrees c :=
  ⟨h'.tick.trans h.tick, h'.chars.trans h.chars, h'.save.trans h.save, h'.accepts.trans h.accepts⟩

theorem Agrees.isModified (h : d.Agrees c) : c.isModified = d.isModified := by
  rw [Document.isModified, Document.isModified, h.tick, h.save]

theorem Agrees.ticked (h : d.Agrees c) (hd : d.Ticked) : c.Ticked :=
  (aged (d := { d with text := c.text }) h.tick h.chars h.save rfl ⟨hd.save_le, hd.chars_le⟩).1

/-- What is told of a root while edits make another document of its document: the first change is
announced once if the document becomes modified while it accepts records, no lock is asked for
afterwards, and a document for which a lock was refused stays unmodified. -/
structure Heralds (root : ViewId) (calls : List Call) (d c : Document) : Prop where
  ticked : c.Ticked
  accepts : c.log.acceptsRecords = d.log.acceptsRecords
  modified : d.isModified = true → c.isModified = true
  count : calls.countP (Call.announces root) =
    if d.log.acceptsRecords && !d.isModified && c.isModified then 1 else 0
  unasked : d.isModified = true → ∀ call ∈ calls, call.asks root = false
  ordered : calls.Pairwise fun a b => a.announces root = true → b.asks root = false
  refused : (∃ path, .lockRefused root path ∈ calls) → c.isModified = false

namespace Heralds

theorem of_passing (hcalls : ∀ call ∈ calls, call.passesBy root) (h : d.Agrees c)
    (hd : d.Ticked) : Heralds root calls d c where
  ticked := h.ticked hd
  accepts := h.accepts
  modified hmodified := h.isModified.trans hmodified
  count := by
    have hnone : calls.countP (Call.announces root) = 0 :=
      List.countP_eq_zero.mpr fun call hcall => by simp [(hcalls call hcall).1]
    rw [hnone, h.isModified, if_neg]
    cases d.isModified <;> simp
  unasked _ call hcall := (hcalls call hcall).2
  ordered := by
    refine List.Pairwise.imp_mem.mpr (List.pairwise_of_forall fun a b _ hb _ => (hcalls b hb).2)
  refused := by
    rintro ⟨path, hpath⟩
    have hasked := (hcalls _ hpath).2
    rw [Call.asks, beq_self_eq_true] at hasked
    cases hasked

/-- Until a document is modified nothing is announced, and afterwards no lock is asked for. -/
theorem trans (h : Heralds root calls b d) (h' : Heralds root later d c)
    (hrefused : (∃ path, .lockRefused root path ∈ calls) → c.isModified = false) :
    Heralds root (calls ++ later) b c where
  ticked := h'.ticked
  accepts := h'.accepts.trans h.accepts
  modified hb := h'.modified (h.modified hb)
  count := by
    have hkept := h.modified
    have hkept' := h'.modified
    rw [List.countP_append, h.count, h'.count, h.accepts]
    revert hkept hkept'
    cases b.log.acceptsRecords <;> cases b.isModified <;> cases d.isModified <;>
      cases c.isModified <;> simp
  unasked hb call hcall := by
    rcases List.mem_append.mp hcall with hcall | hcall
    · exact h.unasked hb call hcall
    · exact h'.unasked (h.modified hb) call hcall
  ordered := by
    refine List.pairwise_append.mpr ⟨h.ordered, h'.ordered, fun a ha call hcall hannounces => ?_⟩
    refine h'.unasked ?_ call hcall
    have hcount : 0 < calls.countP (Call.announces root) :=
      List.countP_pos_iff.mpr ⟨a, ha, hannounces⟩
    rw [h.count] at hcount
    cases hd : d.isModified with
    | true => rfl
    | false => simp [hd] at hcount
  refused := by
    rintro ⟨path, hpath⟩
    rcases List.mem_append.mp hpath with hpath | hpath
    · exact hrefused ⟨path, hpath⟩
    · exact h'.refused ⟨path, hpath⟩

end Heralds

end Document

/-! ## What is told between sessions -/

namespace Session

variable {s t u : Session} {root r : ViewId} {d : Document} {ok : Bool}

/-- What is told of a root from one session to another one. Without failure no lock was refused. -/
def Heralds (root : ViewId) (ok : Bool) (s t : Session) : Prop :=
  ∃ calls : List Call, t.trace = calls.reverse ++ s.trace ∧
    (ok = true → ∀ path, .lockRefused root path ∉ calls) ∧
    (s.editor.documents.get? root = none → t.editor.documents.get? root = none ∧
      ∀ call ∈ calls, call.passesBy root) ∧
    ∀ d, s.editor.documents.get? root = some d → d.Ticked →
      ∃ c, t.editor.documents.get? root = some c ∧ Document.Heralds root calls d c

/-- Nothing is told of the root, and its document stays as modified as it was. -/
structure Silent (root : ViewId) (s t : Session) : Prop where
  trace : Tells (·.passesBy root) s t
  document : ∃ f : Document → Document,
    t.editor.documents.get? root = (s.editor.documents.get? root).map f ∧
      ∀ d, s.editor.documents.get? root = some d → d.Agrees (f d)

namespace Silent

theorem of_editor (htrace : t.trace = s.trace) (heditor : t.editor = s.editor) :
    Silent root s t where
  trace := .of_trace htrace
  document := ⟨id, by rw [heditor, Option.map_id, id], fun _ _ => ⟨rfl, rfl, rfl, rfl⟩⟩

theorem refl (s : Session) : Silent root s s := of_editor rfl rfl

theorem called (s : Session) {c : Call} (hc : c.passesBy root) : Silent root s (s.called c) where
  trace := .called s hc
  document := ⟨id, by rw [editor_called, Option.map_id, id], fun _ _ => ⟨rfl, rfl, rfl, rfl⟩⟩

theorem trans (h : Silent root s t) (h' : Silent root t u) : Silent root s u where
  trace := h.trace.trans h'.trace
  document := by
    obtain ⟨f, hf, hagrees⟩ := h.document
    obtain ⟨g, hg, hagrees'⟩ := h'.document
    refine ⟨g ∘ f, by rw [hg, hf, Option.map_map], fun d hd => ?_⟩
    exact (hagrees d hd).trans (hagrees' (f d) (by rw [hf, hd, Option.map_some]))

theorem onDocument (s : Session) (r : ViewId) {f : Document → Document}
    (hf : ∀ d, s.editor.documents.get? r = some d → d.Agrees (f d)) :
    Silent root s (s.onDocument r f) where
  trace := .of_trace rfl
  document := by
    by_cases hr : root = r
    · subst hr
      exact ⟨f, by rw [get?_onDocument, if_pos rfl], hf⟩
    · exact ⟨id, by rw [get?_onDocument_of_ne _ hr, Option.map_id, id],
        fun _ _ => ⟨rfl, rfl, rfl, rfl⟩⟩

theorem heralds (h : Silent root s t) : Heralds root true s t := by
  obtain ⟨⟨calls, htrace, hcalls⟩, f, hf, hagrees⟩ := h
  refine ⟨calls, htrace, fun _ path hpath => ?_, fun hnone => ?_, fun d hd hticked => ?_⟩
  · have hasked := (hcalls _ hpath).2
    rw [Call.asks, beq_self_eq_true] at hasked
    cases hasked
  · exact ⟨by rw [hf, hnone, Option.map_none], hcalls⟩
  · exact ⟨f d, by rw [hf, hd, Option.map_some], .of_passing hcalls (hagrees d hd) hticked⟩

end Silent

namespace Heralds

variable {ok' : Bool}

/-- After a failure, only what tells nothing is done. -/
theorem append (h : Heralds root ok s t) (h' : Heralds root ok' t u)
    (hkept : ok = true ∨ Silent root t u) : Heralds root (ok && ok') s u := by
  obtain ⟨calls, htrace, hgranted, hnone, hsome⟩ := h
  obtain ⟨later, hlater, hgranted', hnone', hsome'⟩ := h'
  refine ⟨calls ++ later, ?_, fun hok path hpath => ?_, fun hs => ?_, fun d hd hticked => ?_⟩
  · rw [hlater, htrace, List.reverse_append, List.append_assoc]
  · rw [Bool.and_eq_true] at hok
    rcases List.mem_append.mp hpath with hpath | hpath
    · exact hgranted hok.1 path hpath
    · exact hgranted' hok.2 path hpath
  · obtain ⟨ht, hcalls⟩ := hnone hs
    obtain ⟨hu, hcalls'⟩ := hnone' ht
    exact ⟨hu, List.forall_mem_append.mpr ⟨hcalls, hcalls'⟩⟩
  · obtain ⟨c, hc, hheralds⟩ := hsome d hd hticked
    obtain ⟨b, hb, hheralds'⟩ := hsome' c hc hheralds.ticked
    refine ⟨b, hb, hheralds.trans hheralds' ?_⟩
    rintro ⟨path, hpath⟩
    rcases hkept with hok | hsilent
    · exact absurd hpath (hgranted hok path)
    · obtain ⟨f, hf, hagrees⟩ := hsilent.document
      rw [hc, Option.map_some, hb] at hf
      rw [Option.some.inj hf, (hagrees c hc).isModified]
      exact hheralds.refused ⟨path, hpath⟩

theorem trans (h : Heralds root true s t) (h' : Heralds root ok t u) : Heralds root ok s u :=
  h.append h' (Or.inl rfl)

theorem silent (h : Heralds root ok s t) (h' : Silent root t u) : Heralds root ok s u := by
  have happended := h.append h'.heralds (Or.inr h')
  rwa [Bool.and_true] at happended

theorem weaken (h : Heralds root ok s t) (hok : ok' = true → ok = true) :
    Heralds root ok' s t := by
  obtain ⟨calls, htrace, hgranted, hrest⟩ := h
  exact ⟨calls, htrace, fun hok' => hgranted (hok hok'), hrest⟩

end Heralds

end Session

/-! ## What changes tell -/

namespace Document

variable {d : Document}

/-- A document whose file has to be locked first is not modified yet. -/
theorem unmodified_of_wanted {path : Path} (h : d.wanted = some path) : d.isModified = false := by
  cases hd : d.isModified with
  | false => rfl
  | true =>
      rw [wanted, hd, Bool.true_or, if_pos rfl] at h
      cases h

theorem acceptsRecords_apply (d : Document) (c : Change) :
    (d.apply c).log.acceptsRecords = d.log.acceptsRecords := by
  rcases d.log_apply c with ⟨r, hlog⟩ | ⟨pos, n, hlog⟩
  · rw [hlog, UndoLog.acceptsRecords_record]
  · rw [hlog, UndoLog.acceptsRecords_recordInsert]

/-- What announces a change of the document, if it is to be announced. -/
def announcement (d : Document) (root : ViewId) : List Call :=
  if d.log.acceptsRecords && !d.isModified then [.firstChange root] else []

end Document

namespace Session

variable {s : Session} {root r view : ViewId} {v : View} {d : Document} {c : Change}

/-- A change asks for a lock that is wanted, and announces itself then. -/
theorem trace_changed (s : Session) (r : ViewId) (d : Document) (c : Change) :
    ∃ asked : List Call, (s.changed r d c).trace = (asked ++ d.announcement r).reverse ++ s.trace ∧
      (asked = [] ∨ ∃ path, d.wanted = some path ∧ asked = [.lock r path]) := by
  have hannounced : (s.changed r d c).trace =
      (d.announcement r).reverse ++ (s.prepared r d).trace := by
    rw [changed, trace_onDocument, announced, Document.announcement]
    split <;> rfl
  rw [hannounced, prepared]
  cases hwanted : d.wanted with
  | none => exact ⟨[], rfl, Or.inl rfl⟩
  | some path =>
      simp only [trace_onDocument, granted]
      split
      · refine ⟨[.lock r path], ?_, Or.inr ⟨path, rfl, rfl⟩⟩
        rw [List.reverse_append, List.append_assoc]
        rfl
      · exact ⟨[], rfl, Or.inl rfl⟩

theorem heralds_changed (hs : s.editor.Shows view v r d) (c : Change) :
    s.Heralds root true (s.changed r d c) := by
  obtain ⟨asked, htrace, hasked⟩ := trace_changed s r d c
  have hlater := documents_changed hs.document c root
  have hunrefused : ∀ path, .lockRefused root path ∉ asked ++ d.announcement r := by
    intro path
    rw [Document.announcement]
    rcases hasked with rfl | ⟨p, -, rfl⟩ <;> split <;> simp
  by_cases hr : root = r
  · subst hr
    rw [if_pos rfl] at hlater
    refine ⟨_, htrace, fun _ => hunrefused, fun hnone => ?_, fun b hb hticked => ⟨_, hlater, ?_⟩⟩
    · rw [hs.document] at hnone
      cases hnone
    · obtain rfl := Option.some.inj (hs.document.symm.trans hb)
      have hticked' : Document.Ticked { d with locked := d.locked || d.wanted.isSome } :=
        ⟨hticked.save_le, hticked.chars_le⟩
      have hmodified := Document.isModified_apply hticked'.save_le c
      constructor
      · exact (Document.aged_apply _ c hticked').1
      · exact Document.acceptsRecords_apply _ c
      · exact fun _ => hmodified
      · rw [hmodified, Bool.and_true, Document.announcement, List.countP_append]
        rcases hasked with rfl | ⟨p, -, rfl⟩ <;> split <;> simp [Call.announces]
      · intro hd call hcall
        rw [Document.announcement, hd, Bool.not_true, Bool.and_false, if_neg Bool.false_ne_true,
          List.append_nil] at hcall
        rcases hasked with rfl | ⟨p, hwanted, -⟩
        · cases hcall
        · rw [Document.unmodified_of_wanted hwanted] at hd
          cases hd
      · rw [Document.announcement]
        rcases hasked with rfl | ⟨p, -, rfl⟩ <;> split <;> simp [Call.announces]
      · rintro ⟨path, hpath⟩
        exact absurd hpath (hunrefused path)
  · refine Silent.heralds
      ⟨⟨_, htrace, fun call hcall => ?_⟩, id, ?_, fun _ _ => ⟨rfl, rfl, rfl, rfl⟩⟩
    · rw [Document.announcement] at hcall
      have hne : (r == root) = false := beq_eq_false_iff_ne.mpr (Ne.symm hr)
      rcases List.mem_append.mp hcall with hcall | hcall
      · rcases hasked with rfl | ⟨p, -, rfl⟩
        · cases hcall
        · rw [List.mem_singleton.mp hcall]
          exact ⟨rfl, hne⟩
      · split at hcall
        · rw [List.mem_singleton.mp hcall]
          exact ⟨hne, rfl⟩
        · cases hcall
    · rw [hlater, if_neg hr, Option.map_id, id]

/-- A lock is refused only to a document that is not modified yet. -/
theorem heralds_refused (hs : s.editor.Shows view v r d) {path : Path}
    (hwanted : d.wanted = some path) :
    s.Heralds root false (s.called (.lockRefused r path)) := by
  by_cases hr : root = r
  · subst hr
    have hunmodified := Document.unmodified_of_wanted hwanted
    refine ⟨[.lockRefused root path], rfl, fun hok => absurd hok Bool.false_ne_true,
      fun hnone => ?_, fun b hb hticked => ⟨b, hb, ?_⟩⟩
    · rw [hs.document] at hnone
      cases hnone
    · obtain rfl := Option.some.inj (hs.document.symm.trans hb)
      exact ⟨hticked, rfl, id, by simp [Call.announces, hunmodified],
        fun hd => absurd (hunmodified.symm.trans hd) Bool.false_ne_true,
        List.pairwise_singleton _ _, fun _ => hunmodified⟩
  · have hpasses : (Call.lockRefused r path).passesBy root :=
      ⟨rfl, beq_eq_false_iff_ne.mpr (Ne.symm hr)⟩
    exact (Silent.called s hpasses).heralds.weaken fun _ => rfl

end Session

/-! ## What acts tell -/

namespace Act

open Session

variable {α β : Type} {s t : Session} {root view : ViewId}

/-- What the act tells of the root, in any session. -/
def Heralds (root : ViewId) (act : Act α) : Prop :=
  ∀ s : Session, s.Heralds root (act.run s).1.isOk (act.run s).2

/-- The act fails or not, and tells nothing of the root. -/
def Silent (root : ViewId) (act : Act α) : Prop :=
  ∀ s : Session, s.Silent root (act.run s).2

namespace Silent

theorem heralds {act : Act α} (h : Silent root act) : Heralds root act :=
  fun s => (h s).heralds.weaken fun _ => rfl

theorem pure (a : α) : Silent root (pure a : Act α) := fun s => .refl s

theorem throw (e : Error) : Silent root (throw e : Act α) := fun s => .refl s

theorem ask (question : Editor → Except Error α) : Silent root (ask question) :=
  fun s => by rw [run_ask]; exact .refl s

theorem call {c : Call} (hc : c.passesBy root) : Silent root (call c) := fun s => .called s hc

theorem changeShown (view : ViewId) {f : Document → Document}
    (hf : ∀ d : Document, d.Agrees (f d)) :
    Silent root (changeShown view f) := by
  intro s
  rw [Act.changeShown, run_bind, run_ask]
  cases s.editor.document view with
  | error e => exact .refl s
  | ok d =>
      simp only [run_bind, run_ask]
      cases s.editor.rootOf view with
      | error e => exact .refl s
      | ok r => exact .onDocument s r fun d _ => hf d

theorem changeMarkers (view : ViewId) (f : Document → Markers) :
    Silent root (Act.changeShown view fun d => { d with markers := f d }) :=
  .changeShown view fun _ => ⟨rfl, rfl, rfl, rfl⟩

/-- A log that takes records as before has been put in place of another one. -/
theorem changeLog (view : ViewId) {f : UndoLog → UndoLog}
    (hf : ∀ l : UndoLog, (f l).acceptsRecords = l.acceptsRecords) :
    Silent root (changeLog view f) :=
  .changeShown view fun d => ⟨rfl, rfl, rfl, hf d.log⟩

theorem bind {act : Act α} {next : α → Act β} (h : Silent root act)
    (h' : ∀ a, Silent root (next a)) : Silent root (act >>= next) := by
  intro s
  have hfirst := h s
  rw [run_bind]
  rcases hrun : act.run s with ⟨_ | a, t⟩
  · rw [hrun] at hfirst
    exact hfirst
  · rw [hrun] at hfirst
    exact hfirst.trans (h' a t)

end Silent

namespace Heralds

theorem map (f : α → β) {act : Act α} (h : Heralds root act) : Heralds root (f <$> act) := by
  intro s
  have hact := h s
  rw [run_map]
  rcases hrun : act.run s with ⟨_ | _, t⟩ <;> rwa [hrun] at hact

theorem quietly {act : Act α} (h : Heralds root act) : Heralds root (Op.quietly act) := by
  intro s
  have hact := h s
  rw [run_quietly]
  rcases hrun : act.run s with ⟨_ | _, t⟩ <;> rwa [hrun] at hact

theorem bind {act : Act α} {next : α → Act β} (h : Heralds root act)
    (h' : ∀ a, Heralds root (next a)) : Heralds root (act >>= next) := by
  intro s
  have hfirst := h s
  rw [run_bind]
  rcases hrun : act.run s with ⟨_ | a, t⟩
  · rw [hrun] at hfirst
    exact hfirst
  · rw [hrun] at hfirst
    exact hfirst.trans (h' a t)

theorem ask_bind (question : Editor → Except Error α) {next : α → Act β}
    (h : ∀ a, Heralds root (next a)) : Heralds root (ask question >>= next) :=
  .bind (Silent.ask question).heralds h

theorem silent_bind {act : Act α} {next : α → Act β} (h : Silent root act)
    (h' : ∀ a, Heralds root (next a)) : Heralds root (act >>= next) := .bind h.heralds h'

theorem guarded {c : Prop} [Decidable c] {e : Error} {act : Act α} (h : Heralds root act) :
    Heralds root (if c then (MonadExcept.throw e : Act PUnit) >>= fun _ => act else act) := by
  split
  · exact .silent_bind (.throw e) fun _ => h
  · exact h

/-- What is done after an act that may have failed tells nothing, and fails when the act has. -/
theorem attempt_bind {act : Act α} {next : Except Error α → Act β} (h : Heralds root act)
    (hnext : ∀ r, Silent root (next r))
    (hok : ∀ e s, ((next (.error e)).run s).1.isOk = false) :
    Heralds root (attempt act >>= next) := by
  intro s
  rw [run_bind, run_attempt]
  refine ((h s).silent (hnext (act.run s).1 (act.run s).2)).weaken fun hdone => ?_
  cases hr : (act.run s).1 with
  | ok a => rfl
  | error e =>
      simp only [hr, hok] at hdone
      cases hdone

end Heralds

/-! ## Changes -/

theorem shows_of_document {e : Editor} {d : Document} (h : e.document view = .ok d) :
    ∃ v r, e.Shows view v r d := by
  cases hv : e.views.get? view with
  | none =>
      rw [Editor.document_of_dead hv] at h
      cases h
  | some v =>
      have hroot : e.rootOf view = .ok (v.base.getD view) := by
        rw [Editor.rootOf, Editor.view_of_get hv]
        rfl
      rw [Editor.document, hroot] at h
      simp only [bind, Except.bind] at h
      split at h
      · rename_i d' hd
        cases h
        exact ⟨v, _, hv, rfl, hd⟩
      · cases h

namespace Heralds

theorem makeChange (view : ViewId) (c : Change) : Heralds root (makeChange view c) := by
  intro s
  cases hd : s.editor.document view with
  | error e =>
      rw [Act.makeChange, run_ask_bind_error hd]
      exact (Session.Silent.refl s).heralds.weaken fun hok => rfl
  | ok d =>
      obtain ⟨v, r, hs⟩ := shows_of_document hd
      have hsame : s.Heralds root false s := (Session.Silent.refl s).heralds.weaken fun _ => rfl
      rw [run_makeChange hs]
      cases hrange : c.rangeError d.length with
      | some e => exact hsame
      | none =>
          simp only
          split
          · exact hsame
          · rw [hindered?, Session.revised]
            cases hvoid : c.isVoid with
            | true => exact (Session.Silent.refl s).heralds
            | false =>
                simp only [Bool.false_eq_true, if_false, refused?]
                cases hwanted : d.wanted with
                | none => exact heralds_changed hs c
                | some path =>
                    rw [Option.bind_some]
                    cases s.refusal? r path with
                    | none => exact heralds_changed hs c
                    | some reason => exact heralds_refused hs hwanted

theorem insertRaw (view : ViewId) (pos : Nat) (text : Text) :
    Heralds root (insertRaw view pos text) :=
  .bind (.makeChange _ _) fun _ => (Silent.pure _).heralds

theorem deleteRaw (view : ViewId) (start stop : Nat) : Heralds root (deleteRaw view start stop) :=
  .ask_bind _ fun _ => .bind (.makeChange _ _) fun _ => (Silent.pure _).heralds

theorem insertAt (view : ViewId) (pos : Nat) (text : Text) :
    Heralds root (insertAt view pos text) :=
  .ask_bind _ fun _ => .makeChange _ _

theorem insert (view : ViewId) (text : Text) : Heralds root (insert view text) :=
  .ask_bind _ fun _ => .ask_bind _ fun _ => .bind (.insertAt _ _ _) fun _ =>
    .silent_bind (.changeMarkers _ _) fun _ => (Silent.pure _).heralds

theorem deleteRegion (view : ViewId) (p q : Nat) : Heralds root (deleteRegion view p q) :=
  .ask_bind _ fun _ => .deleteRaw _ _ _

theorem erase (view : ViewId) : Heralds root (erase view) :=
  .ask_bind _ fun _ => .silent_bind (.bind (.ask _) fun _ => .changeMarkers _ _) fun _ =>
    .ask_bind _ fun _ => .bind (.deleteRaw _ _ _) fun _ => (Silent.pure _).heralds

theorem noteProperty (view : ViewId) (pos length : Nat) (key : String) (value : Value) :
    Heralds root (noteProperty view pos length key value) := by
  unfold Act.noteProperty
  split
  · exact (Silent.throw _).heralds
  · exact .makeChange _ _

end Heralds

/-! ## Undo -/

theorem Silent.goto (view : ViewId) (pos : Nat) : Silent root (goto view pos) :=
  .bind (.ask _) fun _ => .bind (.ask _) fun _ => .bind (.changeMarkers _ _) fun _ => .pure _

theorem Silent.takeGroup (r : ViewId) : Silent root (takeGroup r) := by
  intro s
  cases hd : s.editor.document r with
  | error e =>
      rw [Act.takeGroup, run_ask_bind_error hd]
      exact .refl s
  | ok d =>
      obtain ⟨v, base, hs⟩ := shows_of_document hd
      rw [Act.takeGroup, run_ask_bind hd, run_bind_ok (run_changeLog hs _), run_give]
      refine .onDocument s base fun c hc => ?_
      obtain rfl := Option.some.inj (hs.document.symm.trans hc)
      exact ⟨rfl, rfl, rfl, d.log.boundary.acceptsRecords_nextGroup.trans
        d.log.acceptsRecords_boundary⟩

/-- A record is taken back by a change, or by a call that has nothing to do with first changes. -/
theorem Heralds.replay (view r : ViewId) (record : Record) :
    Heralds root (replay view r record) := by
  cases record with
  | insert pos n =>
      exact .ask_bind _ fun _ => .bind (.makeChange _ _) fun _ =>
        (Silent.bind (.goto _ _) fun _ => .pure _).heralds
  | delete pos text as =>
      refine .ask_bind _ fun _ => .ask_bind _ fun d => .bind (.insertAt _ _ _) fun _ => ?_
      have hagrees : ∀ c : Document,
          c.Agrees ((d.readjustable pos as).foldl Document.readjust c) := by
        intro c
        have hunmarked := c.unmarked_readjustAll (d.readjustable pos as)
        exact ⟨congrArg (·.tick) hunmarked, congrArg (·.charsTick) hunmarked,
          congrArg (·.saveTick) hunmarked, congrArg (·.log.acceptsRecords) hunmarked⟩
      exact .silent_bind (.changeShown r hagrees) fun _ =>
        (Silent.bind (.goto _ _) fun _ => .pure _).heralds
  | property start stop key value =>
      exact .ask_bind _ fun _ => (Silent.call ⟨rfl, rfl⟩).heralds
  | boundary => exact (Silent.pure _).heralds

theorem Heralds.replayAll (view r : ViewId) (records : List Record) :
    Heralds root (replayAll view r records) := by
  induction records with
  | nil => exact (Silent.pure _).heralds
  | cons record records ih => exact .bind (.replay view r record) fun _ => ih

theorem fails_bind {act : Act α} {next : α → Act β}
    (h : ∀ a s, ((next a).run s).1.isOk = false) (s : Session) :
    ((act >>= next).run s).1.isOk = false := by
  rw [run_bind]
  rcases act.run s with ⟨_ | a, t⟩
  · rfl
  · exact h a t

/-- An undo tells what taking its records back tells, whether it stops on the way or not. -/
theorem Heralds.undo (view : ViewId) : Heralds root (undo view) := by
  refine .ask_bind _ fun r => .ask_bind _ fun d => .guarded ?_
  refine .silent_bind (.takeGroup r) fun group => .silent_bind (.changeLog r fun l => rfl) fun _ =>
    .attempt_bind (.replayAll view r group) (fun outcome => ?_) fun e => ?_
  · refine .bind (.changeLog r fun l => l.endReplay.acceptsRecords_boundary) fun _ => ?_
    cases outcome with
    | ok _ => exact .pure _
    | error e => exact .bind (.changeLog r fun l => rfl) fun _ => .throw e
  · exact fails_bind fun _ => fails_bind fun _ _ => rfl

end Act

/-- Operations on texts tell of the first change of a root as often as it happens. -/
theorem Op.heralds {o : Op} (h : o.effect = .edit) (root : ViewId) : Act.Heralds root o.act := by
  cases o with
  | insert view text => exact .map _ (.insert view text)
  | deleteRegion view p q => exact .map _ (.deleteRegion view p q)
  | erase view => exact .quietly (.erase view)
  | insertRaw view pos text => exact .map _ (.insertRaw view pos text)
  | deleteRaw view start stop => exact .map _ (.deleteRaw view start stop)
  | notePropertyRaw view start stop key value => exact .quietly (.makeChange view _)
  | noteProperty view pos length key value => exact .quietly (.noteProperty view pos length _ _)
  | undo view => exact .quietly (.undo view)
  | _ => cases h

end Editing
