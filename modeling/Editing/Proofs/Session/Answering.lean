import Editing.Proofs.Session.Numbering
import Editing.Proofs.Session.Overlaying

/-!
# Overlays are known for good

An overlay that was made once can be asked about and changed ever after: when it has been deleted,
when it has been moved to another text, and when the root that held it has been killed. A number
that no overlay has been given is refused by the same operations.
-/

namespace Editing

/-- The overlay that an operation looks up, unless it also takes a view. -/
def Op.overlayNamed : Op → Option OverlayId
  | overlayPut overlay _ _ | overlayGet overlay _ | overlayRemove overlay _
  | overlayProperties overlay | overlayStart overlay | overlayEnd overlay | overlayRoot overlay
  | deleteOverlay overlay => some overlay
  | _ => none

namespace Editor

variable {e : Editor} {overlay : OverlayId} {home : OverlayHome}

theorem overlayHome_of_get (h : e.overlayHomes.get? overlay = some home) :
    e.overlayHome overlay = .ok home := by
  rw [overlayHome, h]

theorem overlayHome_of_unknown (h : e.overlayHomes.get? overlay = none) :
    e.overlayHome overlay = .error (.notOverlay overlay) := by
  rw [overlayHome, h]

theorem overlay_of_unknown (h : e.overlayHomes.get? overlay = none) :
    e.overlay overlay = .error (.notOverlay overlay) := by
  rw [Editor.overlay, overlayHome_of_unknown h]
  rfl

theorem overlayInText_of_unknown (h : e.overlayHomes.get? overlay = none) :
    e.overlayInText overlay = .error (.notOverlay overlay) := by
  rw [overlayInText, overlayHome_of_unknown h]
  rfl

/-- An overlay that lies in the document of a root is found there. -/
theorem Registry.attachedOverlay_eq (hr : e.Registry) {root : ViewId} {d : Document} {o : Overlay}
    (hd : e.documents.get? root = some d) (ho : d.overlays.get? overlay = some o) :
    e.attachedOverlay root overlay = .ok o := by
  obtain ⟨w, hs, -⟩ := hr.shows_root hd
  rw [attachedOverlay, hs.document_eq]
  simp only [bind, Except.bind, ho]
  rfl

/-- An overlay at home in a root is found in its document. -/
theorem Overlaying.attachedOverlay_eq (h : e.Overlaying) (hr : e.Registry) {root : ViewId}
    (hhome : e.overlayHomes.get? overlay = some (.attached root)) :
    ∃ w d o, e.Shows root w root d ∧ e.attachedOverlay root overlay = .ok o := by
  obtain ⟨d, o, hd, ho⟩ := (h.attached overlay root).mp hhome
  obtain ⟨w, hs, -⟩ := hr.shows_root hd
  exact ⟨w, d, o, hs, hr.attachedOverlay_eq hd ho⟩

theorem Overlaying.overlay_eq (h : e.Overlaying) (hr : e.Registry)
    (hhome : e.overlayHomes.get? overlay = some home) : ∃ o, e.overlay overlay = .ok o := by
  rw [Editor.overlay, overlayHome_of_get hhome]
  cases home with
  | detached o => exact ⟨o, rfl⟩
  | attached root =>
      obtain ⟨w, d, o, -, ho⟩ := h.attachedOverlay_eq hr hhome
      exact ⟨o, ho⟩

theorem Overlaying.overlayInText_eq (h : e.Overlaying) (hr : e.Registry)
    (hhome : e.overlayHomes.get? overlay = some home) : ∃ o, e.overlayInText overlay = .ok o := by
  rw [overlayInText, overlayHome_of_get hhome]
  cases home with
  | detached o => exact ⟨none, rfl⟩
  | attached root =>
      obtain ⟨w, d, o, -, ho⟩ := h.attachedOverlay_eq hr hhome
      refine ⟨some o, ?_⟩
      simp only [bind, Except.bind, ho]
      rfl

end Editor

namespace Act

variable {s : Session} {overlay : OverlayId} {home : OverlayHome}

theorem Succeeds.changeProperties (h : s.editor.Overlaying) (hr : s.editor.Registry)
    (hhome : s.editor.overlayHomes.get? overlay = some home) (f : PropertyList → PropertyList) :
    Succeeds (changeProperties overlay f) s := by
  obtain ⟨o, ho⟩ := h.overlay_eq hr hhome
  refine .ask_bind ho (.ask_bind (Editor.overlayHome_of_get hhome) ?_)
  cases home with
  | detached _ => exact .change _ s
  | attached root =>
      obtain ⟨w, d, -, hs, -⟩ := h.attachedOverlay_eq hr hhome
      exact .changeShown hs _

theorem Succeeds.deleteOverlay (h : s.editor.Overlaying) (hr : s.editor.Registry)
    (hhome : s.editor.overlayHomes.get? overlay = some home) :
    Succeeds (deleteOverlay overlay) s := by
  refine .ask_bind (Editor.overlayHome_of_get hhome) ?_
  cases home with
  | detached _ => exact .pure _ s
  | attached root =>
      obtain ⟨w, d, o, hs, ho⟩ := h.attachedOverlay_eq hr hhome
      exact .ask_bind ho (.bind (.changeShown hs _) fun _ t _ => .change _ t)

/-- What looks up an overlay answers when the overlay has a home. -/
theorem answers (h : s.editor.Overlaying) (hr : s.editor.Registry)
    (hhome : s.editor.overlayHomes.get? overlay = some home) {o : Op}
    (ho : o.overlayNamed = some overlay) : Succeeds o.act s := by
  obtain ⟨found, hfound⟩ := h.overlay_eq hr hhome
  obtain ⟨lying, hlying⟩ := h.overlayInText_eq hr hhome
  have hget : ∀ key, s.editor.overlayGet overlay key = .ok (found.properties.get? key) := by
    intro key
    rw [Editor.overlayGet, hfound]
    rfl
  have hchange := Succeeds.changeProperties h hr hhome
  cases o with
  | overlayPut overlay key value =>
      cases ho
      exact .map _ (.ask_bind (hget key) (.bind (hchange _) fun _ t _ => .pure _ t))
  | overlayRemove overlay key =>
      cases ho
      exact .map _ (.ask_bind (hget key) (.bind (hchange _) fun _ t _ => .pure _ t))
  | overlayGet overlay key =>
      cases ho
      exact .map _ (.ask (hget key))
  | overlayProperties overlay =>
      cases ho
      exact .map _ (.ask (a := found.properties) (by rw [Editor.overlayProperties, hfound]; rfl))
  | overlayStart overlay =>
      cases ho
      exact .map _ (.ask (a := lying.map Overlay.start)
        (by rw [Editor.overlayStart, hlying]; rfl))
  | overlayEnd overlay =>
      cases ho
      exact .map _ (.ask (a := lying.map Overlay.stop) (by rw [Editor.overlayEnd, hlying]; rfl))
  | overlayRoot overlay =>
      cases ho
      have hroot : ∃ root, s.editor.overlayRoot overlay = .ok root := by
        rw [Editor.overlayRoot, Editor.overlayHome_of_get hhome]
        cases home <;> exact ⟨_, rfl⟩
      obtain ⟨root, hroot⟩ := hroot
      exact .map _ (.ask hroot)
  | deleteOverlay overlay =>
      cases ho
      exact .quietly (.deleteOverlay h hr hhome)
  | _ => cases ho

/-- What looks up an overlay refuses a number that no overlay has. -/
theorem refuses (hnone : s.editor.overlayHomes.get? overlay = none) {o : Op}
    (ho : o.overlayNamed = some overlay) : (o.act.run s).1 = .error (.notOverlay overlay) := by
  have hhome := Editor.overlayHome_of_unknown hnone
  have hget : ∀ key, s.editor.overlayGet overlay key = .error (.notOverlay overlay) := by
    intro key
    rw [Editor.overlayGet, Editor.overlay_of_unknown hnone]
    rfl
  cases o with
  | overlayPut overlay key value =>
      cases ho
      rw [Op.act, run_map, overlayPut, run_ask_bind_error (hget key)]
      rfl
  | overlayRemove overlay key =>
      cases ho
      rw [Op.act, run_map, overlayRemove, run_ask_bind_error (hget key)]
      rfl
  | overlayGet overlay key =>
      cases ho
      rw [Op.act, run_map, run_ask, hget]
      rfl
  | overlayProperties overlay =>
      cases ho
      rw [Op.act, run_map, run_ask, Editor.overlayProperties, Editor.overlay_of_unknown hnone]
      rfl
  | overlayStart overlay =>
      cases ho
      rw [Op.act, run_map, run_ask, Editor.overlayStart, Editor.overlayInText_of_unknown hnone]
      rfl
  | overlayEnd overlay =>
      cases ho
      rw [Op.act, run_map, run_ask, Editor.overlayEnd, Editor.overlayInText_of_unknown hnone]
      rfl
  | overlayRoot overlay =>
      cases ho
      rw [Op.act, run_map, run_ask, Editor.overlayRoot, hhome]
      rfl
  | deleteOverlay overlay =>
      cases ho
      rw [Op.act, run_quietly, deleteOverlay, run_ask_bind_error hhome]
      rfl
  | _ => cases ho

end Act

namespace Session

/-- After any run: the overlays that have a home are those that were made. One that is at home in a
root lies in the document of that live root and in no other one, a detached one lies in none, and an
overlay in the document of a live root is at home there. What looks up an overlay answers exactly
for those that were made. -/
theorem overlays_registered (limits : Limits) (locks : Option LockProtocol) (steps : List Step)
    (id : OverlayId) :
    let run := takeAll steps (fresh limits locks)
    let made := (allPerformed steps run.1).filterMap Op.overlayMade
    (id ∈ made ↔ ∃ home, run.2.editor.overlayHomes.get? id = some home) ∧
      (∀ root, run.2.editor.overlayHomes.get? id = some (.attached root) →
        root ∈ run.2.editor.rootList ∧ ∀ r, run.2.editor.Holds r id ↔ r = root) ∧
      (∀ o, run.2.editor.overlayHomes.get? id = some (.detached o) →
        ∀ root, ¬run.2.editor.Holds root id) ∧
      (∀ root ∈ run.2.editor.rootList, run.2.editor.Holds root id →
        run.2.editor.overlayHomes.get? id = some (.attached root)) ∧
      ∀ o : Op, o.overlayNamed = some id →
        (id ∈ made → ∃ reply, (o.act.run run.2).1 = .ok reply) ∧
        (id ∉ made → (o.act.run run.2).1 = .error (.notOverlay id) ∧
          (Error.notOverlay id).kind = .wrongType) := by
  intro run made
  have hrest := fresh_atRest limits locks
  have hoverlaying : run.2.editor.Overlaying :=
    overlaying_lasting.run steps _ hrest (fresh_overlaying limits locks) _ List.mem_cons_self
  have hregistry := (atRest_takeAll steps hrest).wellFormed.registry
  have hmade : id ∈ made ↔ ∃ home, run.2.editor.overlayHomes.get? id = some home := by
    rw [hoverlaying.numbered id, show made = List.range run.2.editor.nextOverlay from
      overlaysMade_eq limits locks steps, List.mem_range]
  refine ⟨hmade, ?_, ?_, ?_, ?_⟩
  · intro root hhome
    have hroot := (hoverlaying.attached id root).mp hhome
    have hlive : root ∈ run.2.editor.rootList := by
      obtain ⟨d, o, hd, -⟩ := hroot
      exact Act.mem_rootList.mpr (hregistry.owner root d hd)
    refine ⟨hlive, fun r => ⟨fun hr => hoverlaying.unique hr hroot, fun hr => ?_⟩⟩
    rw [hr]
    exact hroot
  · exact fun o ho => hoverlaying.nowhere_of_detached ho
  · exact fun root _ hroot => (hoverlaying.attached id root).mpr hroot
  · intro o ho
    constructor
    · intro hid
      obtain ⟨home, hhome⟩ := hmade.mp hid
      exact (Act.answers hoverlaying hregistry hhome ho).reply
    · intro hid
      cases hhome : run.2.editor.overlayHomes.get? id with
      | some home => exact absurd (hmade.mpr ⟨home, hhome⟩) hid
      | none => exact ⟨Act.refuses hhome ho, rfl⟩

/-- A run that moves one overlay to another root and kills that root, and deletes another one. -/
def scatteredRun : List Step :=
  [.op (.createRoot "v"), .op (.createRoot "w"), .op (.insert 0 "abc".toList),
    .op (.makeOverlay 0 0 2 false false), .op (.makeOverlay 0 3 1 true false),
    .op (.makeOverlay 7 0 0 false false), .op (.moveOverlay 0 1 0 0), .op (.kill 1),
    .withCurrent 0 [.op (.deleteOverlay 1), .op (.makeOverlay 0 1 1 false true)] none]

theorem scatteredRun_registered :
    (allPerformed scatteredRun (takeAll scatteredRun (fresh .default none)).1).filterMap
        Op.overlayMade = [0, 1, 2] ∧
      (∃ reply, ((Op.overlayPut 0 "face" (.int 1)).act.run
        (takeAll scatteredRun (fresh .default none)).2).1 = .ok reply) ∧
      ((Op.overlayRoot 3).act.run (takeAll scatteredRun (fresh .default none)).2).1 =
        .error (.notOverlay 3) := by
  have hmade : (allPerformed scatteredRun (takeAll scatteredRun (fresh .default none)).1).filterMap
      Op.overlayMade = [0, 1, 2] := by decide +kernel
  obtain ⟨-, -, -, -, hknown⟩ := overlays_registered .default none scatteredRun 0
  obtain ⟨-, -, -, -, hunknown⟩ := overlays_registered .default none scatteredRun 3
  refine ⟨hmade, (hknown _ rfl).1 ?_, ((hunknown _ rfl).2 ?_).1⟩
  · rw [hmade]
    decide
  · rw [hmade]
    decide

end Session

end Editing
