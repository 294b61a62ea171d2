import Editing.Proofs.Session.Failing
import Editing.Proofs.Session.Through

/-!
# Erasing a text

Erasing checks the protection of the view, makes the whole text accessible and deletes it. Before
the deletion the lock of the file may be refused, and by then the view is no longer narrowed. That
is all that an erasing that fails can leave behind.
-/

namespace Editing

namespace Document

variable {d : Document} {ids : ViewMarkers}

theorem text_revised_deleteAll (d : Document) : (d.revised (.delete 0 d.length)).text = [] := by
  rw [revised]
  split
  · rename_i hvoid
    have hlength : 0 = d.length := by simpa [Change.isVoid] using hvoid
    exact List.eq_nil_of_length_eq_zero hlength.symm
  · change d.text.remove 0 d.text.length = []
    rw [Text.remove, List.take_zero, List.nil_append, Nat.zero_max, List.drop_length]

end Document

theorem Editor.Shows.isNarrowed_of_wide {e : Editor} {view root : ViewId} {v : View} {d : Document}
    (h : e.Shows view v root d) (hwide : d.IsWide v.markers) : e.isNarrowed view = .ok false := by
  rw [h.isNarrowed_eq, hwide.low, hwide.high, bne_self_eq_false, bne_self_eq_false, Bool.or_false]

namespace Session

variable {s : Session} {view root : ViewId} {v : View} {d : Document}

theorem seats_widened (h : s.editor.WellFormed) (hs : s.editor.Shows view v root d) :
    (d.widened v.markers).Seats v.markers :=
  (admits_widen h hs).1.seats view v hs.live hs.root_eq

theorem isWide_widened (h : s.editor.WellFormed) (hs : s.editor.Shows view v root d) :
    (d.widened v.markers).IsWide v.markers := by
  have hextent := (admits_widen h hs).2
  exact ⟨congrArg Extent.low hextent, congrArg Extent.high hextent⟩

theorem after_widen (hs : s.editor.Shows view v root d) :
    s.after (.widen view) = s.widened root v := by
  rw [after, Op.act, Act.run_quietly, Act.run_widen hs]

/-- What is erased is gone, and the view shows all that is left. -/
theorem erased (h : s.editor.WellFormed) (hs : s.editor.Shows view v root d) :
    let t := (s.widened root v).revised root (d.widened v.markers) (.delete 0 d.length)
    t.editor.fullText view = .ok [] ∧ t.editor.isNarrowed view = .ok false := by
  intro t
  have ht : t.editor.Shows view v root ((d.widened v.markers).revised (.delete 0 d.length)) :=
    shows_revised (shows_widened hs)
  have hrange : (Change.delete 0 d.length).rangeError (d.widened v.markers).length = none :=
    if_neg (show ¬(d.length < 0 ∨ d.length < d.length) by omega)
  refine ⟨?_, ht.isNarrowed_of_wide ((isWide_widened h hs).revised (seats_widened h hs) hrange)⟩
  rw [ht.fullText_eq]
  exact congrArg Except.ok (d.widened v.markers).text_revised_deleteAll

/-- Making the whole text accessible changes nothing exactly if it was accessible already. -/
theorem editor_widened_eq_iff (h : s.editor.WellFormed) (hs : s.editor.Shows view v root d) :
    (s.widened root v).editor = s.editor ↔ s.editor.isNarrowed view = .ok false := by
  constructor
  · intro heq
    rw [← heq]
    exact (shows_widened hs).isNarrowed_of_wide (isWide_widened h hs)
  · intro hwide
    rw [widened_of_wide hs (h.marking.seated view v root d hs) (hs.isWide hwide)]

/-- A change needs a lock that is refused only when there is something to change in an unmodified
document that visits a file. -/
theorem exists_of_hindered {c : Change} {path : Path} {reason : Failure}
    (h : s.hindered? root d c = some (path, reason)) :
    c.isVoid = false ∧ d.isModified = false ∧ d.file = some path ∧
      s.refusal? root path = some reason := by
  rw [hindered?] at h
  split at h
  · cases h
  · rename_i hvoid
    obtain ⟨wanted, hwanted, h⟩ := Option.bind_eq_some_iff.mp h
    obtain ⟨why, hwhy, heq⟩ := Option.map_eq_some_iff.mp h
    cases heq
    rw [Document.wanted] at hwanted
    split at hwanted
    · cases hwanted
    · rename_i hheld
      rw [Bool.or_eq_true, not_or] at hheld
      exact ⟨Bool.eq_false_iff.mpr hvoid, Bool.eq_false_iff.mpr hheld.1, hwanted, hwhy⟩

/-- Erasing leaves an empty text of which the view shows the whole, or fails. When it fails for any
other reason than a lock, all is as it was. The lock of the file is asked for when the unmodified
text of a file is not empty, after the whole of it has been made accessible; when it is refused the
view stays so, and all else is as it was. So the editor is the same after a failure unless a lock
has been refused to a narrowed view. -/
theorem erased_or_widened (h : s.Reachable) (view : ViewId) :
    let reply := ((Op.erase view).act.run s).1
    let t := s.after (.erase view)
    (reply = .ok .done ∧ t.editor.fullText view = .ok [] ∧
      t.editor.isNarrowed view = .ok false) ∨
    (∃ e, reply = .error e ∧ (∀ reason, e ≠ .lockRefused reason) ∧ t = s) ∨
    ∃ root path reason text, reply = .error (.lockRefused reason) ∧
      s.editor.rootOf view = .ok root ∧ s.editor.isModified view = .ok false ∧
      s.editor.visitedFile view = .ok (some path) ∧ s.editor.fullText view = .ok text ∧
      text ≠ [] ∧ s.refusal? root path = some reason ∧
      t = (s.after (.widen view)).called (.lockRefused root path) ∧
      (t.editor = s.editor ↔ s.editor.isNarrowed view = .ok false) := by
  intro reply t
  have hwell := h.atRest.wellFormed
  have hrun : (reply, t) = (Op.quietly (Act.erase view)).run s := rfl
  rw [Act.run_quietly] at hrun
  obtain ⟨hreply, ht⟩ := Prod.mk.inj hrun
  rw [hreply, ht]
  rcases hwell.registry.dead_or_shows view with hdead | ⟨v, root, d, hs⟩
  · rw [Act.run_erase_of_dead hdead]
    exact Or.inr (Or.inl ⟨.noLiveView view, rfl, nofun, rfl⟩)
  · cases hprotected : v.readOnly && !s.editor.inhibitReadOnly with
    | true =>
        rw [Act.run_erase hs, hprotected, if_pos rfl]
        exact Or.inr (Or.inl ⟨.readOnly view, rfl, nofun, rfl⟩)
    | false =>
        rw [Act.run_erase_of_unprotected hs hprotected, after_widen hs]
        cases hlock : s.hindered? root d (.delete 0 d.length) with
        | none =>
            exact Or.inl ⟨rfl, erased hwell hs⟩
        | some refusal =>
            obtain ⟨path, reason⟩ := refusal
            obtain ⟨hvoid, hmodified, hfile, hrefused⟩ := exists_of_hindered hlock
            refine Or.inr (Or.inr ⟨root, path, reason, d.text, rfl, hs.rootOf_eq, ?_, ?_,
              hs.fullText_eq, ?_, hrefused, rfl, editor_widened_eq_iff hwell hs⟩)
            · rw [Editor.isModified, hs.document_eq]
              exact congrArg Except.ok hmodified
            · rw [Editor.visitedFile, hs.document_eq]
              exact congrArg Except.ok hfile
            · intro hempty
              rw [Document.length, hempty] at hvoid
              cases hvoid

/-- The text of a file is narrowed in a view indirect to the one that visits it. -/
def narrowedIndirect : List Op :=
  [.createRoot "notes", .insert 0 "abc".toList, .setUnmodified 0,
    .setVisitedFile 0 (some ⟨"/notes"⟩), .createIndirect 0 "part", .narrow 1 1 2]

theorem narrowedIndirect_erased :
    let s := (fresh .default none).afterAll narrowedIndirect
    s.Reachable ∧ s.editor.isNarrowed 1 = .ok true ∧
      (s.after (.erase 1)).editor.fullText 1 = .ok [] ∧
      (s.after (.erase 1)).editor.isNarrowed 1 = .ok false := by
  intro s
  have hreachable : s.Reachable := (Reachable.fresh .default none).afterAll narrowedIndirect
  have hnarrowed : s.editor.isNarrowed 1 = .ok true := by decide +kernel
  have hok : ((Op.erase 1).act.run s).1 = .ok .done :=
    Act.run_quietly_ok_iff.mpr (by decide +kernel)
  rcases erased_or_widened hreachable 1 with
    ⟨-, htext, hwide⟩ | ⟨e, herror, -⟩ | ⟨root, path, reason, text, herror, -⟩
  · exact ⟨hreachable, hnarrowed, htext, hwide⟩
  · rw [hok] at herror
    cases herror
  · rw [hok] at herror
    cases herror

/-- When the lock is refused, the erasing fails, and the view is narrowed no more. -/
theorem narrowedIndirect_widened :
    let s := (fresh .default (some sternProtocol)).afterAll narrowedIndirect
    s.Reachable ∧ s.editor.isNarrowed 1 = .ok true ∧
      ((Op.erase 1).act.run s).1 = .error (.lockRefused (.because "in use")) ∧
      (s.after (.erase 1)).editor.fullText 1 = .ok "abc".toList ∧
      (s.after (.erase 1)).editor.isNarrowed 1 = .ok false := by
  intro s
  exact ⟨(Reachable.fresh .default _).afterAll narrowedIndirect, by decide +kernel,
    Act.run_quietly_error_iff.mpr (by decide +kernel), by decide +kernel, by decide +kernel⟩

end Session

end Editing
