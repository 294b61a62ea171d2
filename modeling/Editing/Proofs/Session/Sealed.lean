import Editing.Proofs.Session.Avoiding
import Editing.Proofs.Session.Clearing
import Editing.Proofs.Session.Hooking
import Editing.Proofs.Session.Refusing

/-!
# Read-only texts

As long as all views of a root are read-only and none of them is used for an undo, its text and the
counts of its changes stay the same, whatever else happens in a run, and hooks are told nothing of
it. To an undo it makes no difference which views are read-only.
-/

namespace Editing

/-- The text and the counts of its changes are the same. -/
structure Document.Unedited (d c : Document) : Prop where
  text : c.text = d.text
  tick : c.tick = d.tick
  chars : c.charsTick = d.charsTick

namespace Document.Unedited

variable {b c d : Document}

theorem refl (d : Document) : d.Unedited d := ⟨rfl, rfl, rfl⟩

theorem trans (h : b.Unedited d) (h' : d.Unedited c) : b.Unedited c :=
  ⟨h'.text.trans h.text, h'.tick.trans h.tick, h'.chars.trans h.chars⟩

theorem of_amends {a : Effect} (ha : a ≠ .edit) (h : Document.Amends a d c) : d.Unedited c := by
  cases h with
  | apply _ c => exact absurd rfl ha
  | _ => exact ⟨rfl, rfl, rfl⟩

end Document.Unedited

/-- What edits texts is an edit through a view or an undo. -/
theorem Op.edit_or_undo {o : Op} (h : o.effect = .edit) :
    (∃ view edit, o = Edit.through view edit) ∨ ∃ view, o = .undo view := by
  cases o with
  | insert view text => exact Or.inl ⟨view, .insert text, rfl⟩
  | deleteRegion view p q => exact Or.inl ⟨view, .deleteRegion p q, rfl⟩
  | erase view => exact Or.inl ⟨view, .erase, rfl⟩
  | noteProperty view pos n key value => exact Or.inl ⟨view, .noteProperty pos n key value, rfl⟩
  | insertRaw view pos text => exact Or.inl ⟨view, .insertRaw pos text, rfl⟩
  | deleteRaw view start stop => exact Or.inl ⟨view, .deleteRaw start stop, rfl⟩
  | notePropertyRaw view start stop key value =>
      exact Or.inl ⟨view, .notePropertyRaw start stop key value, rfl⟩
  | undo view => exact Or.inr ⟨view, rfl⟩
  | _ => cases h

namespace Session

variable {s t u : Session} {root view : ViewId} {o : Op}

/-! ## One operation -/

/-- Whether the operation is an undo through a view of the root. -/
def undoes (root : ViewId) : Session × Op → Prop
  | (s, .undo view) => s.editor.rootOf view = .ok root
  | _ => False

/-- What a root has later is an unedited document that it had before, and hooks are told nothing of
the root. -/
structure Holds (root : ViewId) (s t : Session) : Prop where
  untold : Untold root s t
  numbered : s.editor.nextView ≤ t.editor.nextView
  document : root < s.editor.nextView → ∀ c, t.editor.documents.get? root = some c →
    ∃ d, s.editor.documents.get? root = some d ∧ d.Unedited c

namespace Holds

theorem refl (root : ViewId) (s : Session) : Holds root s s where
  untold := .of_trace rfl
  numbered := Nat.le_refl _
  document _ c hc := ⟨c, hc, .refl c⟩

theorem trans (h : Holds root s t) (h' : Holds root t u) : Holds root s u where
  untold := h.untold.trans h'.untold
  numbered := Nat.le_trans h.numbered h'.numbered
  document hroot c hc := by
    obtain ⟨d, hd, hdc⟩ := h'.document (Nat.lt_of_lt_of_le hroot h.numbered) c hc
    obtain ⟨b, hb, hbd⟩ := h.document hroot d hd
    exact ⟨b, hb, hbd.trans hdc⟩

/-- Whatever edits no text leaves every root unedited. -/
theorem plain (ho : o.effect ≠ .edit) (s : Session) : Holds root s (s.after o) := by
  have huntold : Frame (Untold root) (· ≠ .edit) := by
    refine Tells.frame (by simp) ?_
    intro a c ha hc
    cases hc with
    | firstChange r | restore r start stop key value => exact absurd rfl ha
    | _ => rfl
  have hdescends : Frame (Editor.Within fun e e' => e.Descends Document.Unedited e')
      (· ≠ .edit) :=
    Editor.frame_descends (by simp) .refl .trans .of_amends
  have hsession := @Op.respects _ _ (@Frame.and _ _ _ huntold hdescends) o ho s
  exact ⟨hsession.1, hsession.2.numbered, fun hroot c hc => hsession.2.later hroot hc⟩

/-- What leaves the root alone and tells nothing of it. -/
theorem of_avoids (h : s.AtRest) (havoids : Act.Avoids root o.act s)
    (huntold : Untold root s (s.after o)) : Holds root s (s.after o) where
  untold := huntold
  numbered := (Document.ages_onward.onward.op h (after_mem_moments s o)).numbered
  document _ c hc := ⟨c, (Editor.Untouched.document havoids) ▸ hc, .refl c⟩

end Holds

theorem avoids_edit (hview : s.editor.rootOf view ≠ .ok root) (edit : Edit) :
    Act.Avoids root (edit.through view).act s := by
  cases edit with
  | insert text => exact .map _ (.insert hview text)
  | deleteRegion p q => exact .map _ (.deleteRegion hview p q)
  | erase => exact .quietly (.erase hview)
  | noteProperty pos n key value => exact .quietly (.noteProperty hview pos n key value)
  | insertRaw pos text => exact .map _ (.insertRaw hview pos text)
  | deleteRaw start stop => exact .map _ (.deleteRaw hview start stop)
  | notePropertyRaw start stop key value => exact .quietly (.makeChange hview _)

/-- A sealed root stays as it is in every operation that is not an undo of its own. -/
theorem AtRest.holds (h : s.AtRest) (hsealed : s.editor.Sealed root)
    (hundo : ¬ undoes root (s, o)) : Holds root s (s.after o) := by
  -- Only edits and undos could change a text. Through views of the root the edits are refused and
  -- there is no undo, and through other views both stay away from the root.
  by_cases ho : o.effect = .edit
  · rcases Op.edit_or_undo ho with ⟨view, edit, rfl⟩ | ⟨view, rfl⟩
    · by_cases hview : s.editor.rootOf view = .ok root
      · rw [(h.refused hsealed hview edit).kept]
        exact .refl root s
      · exact .of_avoids h (avoids_edit hview edit) ((Act.bypasses_edit edit s).untold hview)
    · have huntold : Untold root s (s.after (.undo view)) := by
        rw [after_undo_eq]
        exact Act.untold_undo hundo
      exact .of_avoids h (.quietly (.undo h.wellFormed hundo)) huntold
  · exact .plain ho s

/-! ## Runs -/

theorem Walk.holds {starts : List (Session × Op)} {passed : List Session}
    (hwalk : s.Walk starts passed t) (hs : s.Reachable)
    (hsealed : ∀ x ∈ starts, x.1.editor.Sealed root ∧ ¬ undoes root x) : Holds root s t := by
  induction hwalk with
  | rest => exact .refl root s
  | switch _ hswitch ih =>
      refine (ih hsealed).trans ?_
      rcases hswitch with rfl | ⟨view, v, -, rfl⟩
      · exact .refl root _
      · exact ⟨.of_trace rfl, Nat.le_refl _, fun _ c hc => ⟨c, hc, .refl c⟩⟩
  | op hwalk o ih =>
      obtain ⟨hearlier, hlast⟩ := List.forall_mem_append.mp hsealed
      obtain ⟨hsealed, hundo⟩ := hlast _ List.mem_cons_self
      exact (ih hearlier).trans ((hs.walk hwalk).atRest.holds hsealed hundo)

/-- A root is protected by its views being read-only. As long as they are, this is not disregarded,
and none of them is used for an undo, no edit through them changes anything, and those that ask for
a change within bounds fail; nothing at all changes the text, and hooks are told nothing of it. An
undo does the same as it does when no view is read-only. -/
theorem read_only_protects (h : s.Reachable) :
    (∀ steps root, (∀ x ∈ runStarts steps s, x.1.editor.Sealed root ∧ ¬ undoes root x) →
      (∀ t view edit, (t, Edit.through view edit) ∈ runStarts steps s →
        t.editor.rootOf view = .ok root → edit.Refused view t) ∧
      (∀ t ∈ (takeAll steps s).2 :: (runStarts steps s).map Prod.fst, ∀ d c,
        s.editor.documents.get? root = some d → t.editor.documents.get? root = some c →
          d.Unedited c) ∧
      ∀ call ∈ s.callsUntil (takeAll steps s).2, call.hooks root = false) ∧
    ∀ view, (Op.undo view).act.run s.cleared =
      (((Op.undo view).act.run s).1, (s.after (.undo view)).cleared) := by
  refine ⟨fun steps root hsealed => ?_, fun view => ?_⟩
  · have hwalk := walk_all steps s h.atRest
    have hstart : ∀ x ∈ runStarts steps s, x.1.Reachable ∧ Holds root s x.1 := by
      intro x hx
      obtain ⟨more, rest, hsplit⟩ := List.append_of_mem hx
      obtain ⟨_, hfirst⟩ := hwalk.cut hsplit
      refine ⟨h.walk hfirst, hfirst.holds h fun y hy => hsealed y ?_⟩
      exact hsplit ▸ List.mem_append_left _ hy
    have hend := hwalk.holds h hsealed
    refine ⟨fun t view edit hmem hview => ?_, fun t ht d c hd hc => ?_, ?_⟩
    · exact (hstart _ hmem).1.atRest.refused (hsealed _ hmem).1 hview edit
    · have hholds : Holds root s t := by
        rcases List.mem_cons.mp ht with rfl | ht
        · exact hend
        · obtain ⟨x, hx, rfl⟩ := List.mem_map.mp ht
          exact (hstart x hx).2
      obtain ⟨b, hb, hbc⟩ := hholds.document (h.atRest.wellFormed.registry.document_lt hd) c hc
      obtain rfl := Option.some.inj (hd.symm.trans hb)
      exact hbc
    · obtain ⟨calls, htrace, hcalls⟩ := hend.untold
      rwa [callsUntil_eq htrace]
  · rw [after, Op.act, Act.run_quietly, Act.run_quietly, h.undo_cleared]

/-- Two read-only views of one text that can be undone. -/
def readOnlyViews : List Step :=
  [.op (.createRoot "v"), .op (.createIndirect 0 "w"), .op (.insert 0 ['a', 'b']),
    .op (.setReadOnly 0 true), .op (.setReadOnly 1 true)]

theorem readOnlyViews_protected :
    let s := (takeAll readOnlyViews (fresh .default none)).2
    let edits : List Step := [.op (.insert 1 ['c']), .op (.deleteRaw 0 0 1), .op (.erase 1)]
    (Edit.deleteRaw 0 1).Refused 0 (s.after (.insert 1 ['c'])) ∧
    (∀ call ∈ s.callsUntil (takeAll edits s).2, call.hooks 0 = false) ∧
    (takeAll edits s).2.editor.fullText 0 = .ok ['a', 'b'] ∧
    ((Op.undo 1).act.run s.cleared).1 = ((Op.undo 1).act.run s).1 ∧
    (s.after (.undo 1)).editor.fullText 0 = .ok [] := by
  intro s edits
  obtain ⟨hprotected, hundo⟩ :=
    read_only_protects (reachable_takeAll readOnlyViews (.fresh .default none))
  have hreply := congrArg Prod.fst (hundo 1)
  have hstarts : runStarts edits s = [(s, .insert 1 ['c']), (s.after (.insert 1 ['c']),
      .deleteRaw 0 0 1), ((s.after (.insert 1 ['c'])).after (.deleteRaw 0 0 1), .erase 1)] := rfl
  obtain ⟨hrefused, -, hhooks⟩ := hprotected edits 0 (by
    rw [hstarts]
    simp only [List.forall_mem_cons, undoes, not_false_iff, and_true]
    exact ⟨by decide +kernel, by decide +kernel, by decide +kernel, fun x hx => by cases hx⟩)
  refine ⟨hrefused _ 0 (.deleteRaw 0 1) ?_ (by decide +kernel), hhooks, by decide +kernel,
    hreply, by decide +kernel⟩
  rw [hstarts]
  exact List.mem_cons_of_mem _ List.mem_cons_self

end Session

end Editing
