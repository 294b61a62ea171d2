import Editing.Proofs.Session.Announcing

/-!
# First changes are announced once

An operation announces the first change of a root if the root has become modified while its undo is
enabled, and then once. A lock that is taken for the root comes before, and when it is refused
nothing is announced. As a modified text stays so until it is declared unmodified, there is at most
one announcement between one such declaration and the next.
-/

namespace Editing

namespace Session

variable {s t u : Session} {root view : ViewId} {v : View} {o : Op}

/-! ## One operation -/

/-- The root has an unmodified text and its undo is enabled, and it has a modified text later. -/
def Modifies (root : ViewId) (s t : Session) : Prop :=
  root ∈ s.editor.rootList ∧ s.editor.isModified root = .ok false ∧
    s.editor.undoEnabled root = .ok true ∧
      root ∈ t.editor.rootList ∧ t.editor.isModified root = .ok true

instance (root : ViewId) (s t : Session) : Decidable (Modifies root s t) :=
  inferInstanceAs (Decidable (_ ∧ _))

/-- What is announced of the root from one session to a later one. -/
structure Announces (root : ViewId) (s t : Session) : Prop where
  trace : t.trace = (s.callsUntil t).reverse ++ s.trace
  once : Modifies root s t → (s.callsUntil t).countP (Call.announces root) = 1
  never : ¬ Modifies root s t → (s.callsUntil t).countP (Call.announces root) = 0
  locked : ∀ before after, s.callsUntil t = before ++ .firstChange root :: after →
    ∀ path, .lock root path ∉ after
  refused : ∀ path, .lockRefused root path ∈ s.callsUntil t →
    .firstChange root ∉ s.callsUntil t

theorem shows_of_rootList (hr : s.editor.Registry) (h : root ∈ s.editor.rootList) :
    ∃ v d, s.editor.Shows root v root d := by
  obtain ⟨v, hv, hb⟩ := Act.mem_rootList.mp h
  obtain ⟨d, hd⟩ := hr.owned root v hv hb
  exact ⟨v, d, hv, by rw [hb, Option.getD_none], hd⟩

theorem modifies_iff (hs : s.editor.Registry) (ht : t.editor.Registry) :
    Modifies root s t ↔ ∃ d c, s.editor.documents.get? root = some d ∧
      t.editor.documents.get? root = some c ∧ d.isModified = false ∧ d.log.isEnabled = true ∧
        c.isModified = true := by
  constructor
  · rintro ⟨hroot, hunmodified, henabled, hroot', hmodified⟩
    obtain ⟨v, d, hd⟩ := shows_of_rootList hs hroot
    obtain ⟨w, c, hc⟩ := shows_of_rootList ht hroot'
    rw [Editor.isModified, hd.document_eq] at hunmodified
    rw [hd.undoEnabled_eq] at henabled
    rw [Editor.isModified, hc.document_eq] at hmodified
    exact ⟨d, c, hd.document, hc.document, Except.ok.inj hunmodified, Except.ok.inj henabled,
      Except.ok.inj hmodified⟩
  · rintro ⟨d, c, hd, hc, hunmodified, henabled, hmodified⟩
    obtain ⟨v, hshows, hv⟩ := hs.shows_root hd
    obtain ⟨w, hshows', hw⟩ := ht.shows_root hc
    refine ⟨Act.mem_rootList.mpr ⟨v, hshows.live, hv⟩, ?_, ?_,
      Act.mem_rootList.mpr ⟨w, hshows'.live, hw⟩, ?_⟩
    · rw [Editor.isModified, hshows.document_eq, ← hunmodified]
      rfl
    · rw [hshows.undoEnabled_eq, henabled]
    · rw [Editor.isModified, hshows'.document_eq, ← hmodified]
      rfl

/-- Where nothing is announced of the root, its text must not have become modified. -/
theorem Tells.announces (h : Tells (fun call => call.announces root = false) s t)
    (hkept : ¬ Modifies root s t) : Announces root s t := by
  obtain ⟨calls, htrace, hcalls⟩ := h
  have heq : s.callsUntil t = calls := callsUntil_eq htrace
  have hunannounced : .firstChange root ∉ calls := by
    intro hmem
    have hannounces : Call.announces root (.firstChange root) = false := hcalls _ hmem
    rw [Call.announces, beq_self_eq_true] at hannounces
    cases hannounces
  constructor
  · rw [heq, htrace]
  · exact fun hmodifies => absurd hmodifies hkept
  · intro _
    rw [heq, List.countP_eq_zero]
    exact fun call hcall => by simp [hcalls call hcall]
  · intro before after hsplit
    exact absurd (heq ▸ hsplit ▸ List.mem_append_right _ List.mem_cons_self) hunannounced
  · intro _ _
    rwa [heq]

theorem Heralds.announces {ok : Bool} (h : Heralds root ok s t) (hrest : s.AtRest)
    (hticked : s.Every Document.Ticked) (ht : t.editor.Registry) : Announces root s t := by
  have hs := hrest.wellFormed.registry
  obtain ⟨calls, htrace, -, hnone, hsome⟩ := h
  have heq : s.callsUntil t = calls := callsUntil_eq htrace
  cases hd : s.editor.documents.get? root with
  | none =>
      obtain ⟨hgone, hcalls⟩ := hnone hd
      refine Tells.announces ⟨calls, htrace, fun call hcall => (hcalls call hcall).1⟩ ?_
      rw [modifies_iff hs ht, hgone]
      rintro ⟨-, c, -, hc, -⟩
      cases hc
  | some d =>
      obtain ⟨c, hc, hheralds⟩ := hsome d hd (hticked root d hd)
      have hiff : Modifies root s t ↔
          (d.log.acceptsRecords && !d.isModified && c.isModified) = true := by
        rw [modifies_iff hs ht]
        constructor
        · rintro ⟨d', c', hd', hc', hunmodified, henabled, hmodified⟩
          obtain rfl := Option.some.inj (hd.symm.trans hd')
          obtain rfl := Option.some.inj (hc.symm.trans hc')
          rw [hrest.accepts hd henabled, hunmodified, hmodified]
          rfl
        · intro hall
          rw [Bool.and_eq_true, Bool.and_eq_true, Bool.not_eq_true'] at hall
          obtain ⟨⟨haccepts, hunmodified⟩, hmodified⟩ := hall
          exact ⟨d, c, hd, hc, hunmodified, UndoLog.isEnabled_of_accepts haccepts, hmodified⟩
      have hcount := hheralds.count
      rw [← heq] at hcount
      constructor
      · rw [heq, htrace]
      · intro hmodifies
        rw [hcount, if_pos (hiff.mp hmodifies)]
      · intro hmodifies
        rw [hcount, if_neg fun hall => hmodifies (hiff.mpr hall)]
      · intro before after hsplit path hpath
        have hordered := hheralds.ordered
        rw [← heq, hsplit] at hordered
        have hasked := List.rel_of_pairwise_cons (List.pairwise_append.mp hordered).2.1 hpath
          (beq_self_eq_true root)
        rw [Call.asks, beq_self_eq_true] at hasked
        cases hasked
      · intro path hpath hannounced
        have hunmodified := hheralds.refused ⟨path, heq ▸ hpath⟩
        rw [hunmodified, Bool.and_false, if_neg Bool.false_ne_true, List.countP_eq_zero] at hcount
        exact hcount _ hannounced (beq_self_eq_true root)

/-! ## Operations that change no text -/

/-- Nothing is announced of the root, and no text becomes modified. -/
def Calm (root : ViewId) (s t : Session) : Prop :=
  Tells (fun call => call.announces root = false) s t ∧
    s.editor.Descends (fun d c => c.isModified = true → d.isModified = true) t.editor

instance (root : ViewId) : Frame (Calm root) (· ≠ .edit) := by
  have htells : Frame (Tells fun call => call.announces root = false) (· ≠ .edit) := by
    refine Tells.frame (by simp) ?_
    intro a c ha hc
    cases hc with
    | firstChange r => exact absurd rfl ha
    | _ => rfl
  have hdescends : Frame (Editor.Within fun e e' =>
      e.Descends (fun d c => c.isModified = true → d.isModified = true) e') (· ≠ .edit) := by
    refine Editor.frame_descends (by simp) (fun _ => id) (fun h h' => h ∘ h') ?_
    intro a d c ha hc
    cases hc with
    | apply _ c => exact absurd rfl ha
    | save => exact fun h => absurd (of_decide_eq_true h) (Nat.lt_irrefl d.tick)
    | _ => exact id
  exact @Frame.and _ _ _ htells hdescends

theorem Calm.unmodified (h : Calm root s t) (hs : s.editor.Registry) (ht : t.editor.Registry) :
    ¬ Modifies root s t := by
  intro hmodifies
  obtain ⟨d, c, hd, hc, hunmodified, -, hmodified⟩ := (modifies_iff hs ht).mp hmodifies
  obtain ⟨b, hb, hkept⟩ := h.2.later (hs.document_lt hd) hc
  obtain rfl := Option.some.inj (hd.symm.trans hb)
  rw [hkept hmodified] at hunmodified
  cases hunmodified

theorem Reachable.ticked (h : s.Reachable) : s.Every Document.Ticked := by
  induction h with
  | fresh limits locks => exact fresh_every limits locks
  | after o hs ih =>
      have hages := Document.ages_onward.onward.op hs.atRest (after_mem_moments _ o)
      intro root c hc
      rcases hages.descent root c hc with ⟨d, hd, hdc⟩ | ⟨-, hempty⟩
      · exact (hdc (ih root d hd)).1
      · exact (hempty Document.empty_ticked).1

theorem Reachable.announces (h : s.Reachable) (root : ViewId) (o : Op) :
    Announces root s (s.after o) := by
  have hregistry := (h.after o).atRest.wellFormed.registry
  by_cases ho : o.effect = .edit
  · exact Heralds.announces (Op.heralds ho root s) h.atRest h.ticked hregistry
  · have hcalm : Calm root s (s.after o) := o.respects ho s
    exact hcalm.1.announces (hcalm.unmodified h.atRest.wellFormed.registry hregistry)

/-! ## Runs -/

/-- Whether the operation declares the text of the root unmodified. -/
def declares (root : ViewId) : Session × Op → Prop
  | (s, .setUnmodified view) => s.editor.rootOf view = .ok root
  | _ => False

/-- The text of the root cannot become modified, as it is so already or is gone for good. -/
structure Spent (root : ViewId) (s : Session) : Prop where
  numbered : root < s.editor.nextView
  modified : ∀ d, s.editor.documents.get? root = some d → d.isModified = true

theorem Modifies.spent (h : Modifies root s t) (hs : s.editor.Registry) (ht : t.editor.Registry) :
    Spent root t := by
  obtain ⟨-, c, -, hc, -, -, hmodified⟩ := (modifies_iff hs ht).mp h
  refine ⟨ht.document_lt hc, fun b hb => ?_⟩
  obtain rfl := Option.some.inj (hc.symm.trans hb)
  exact hmodified

namespace Spent

theorem unmodifiable (h : Spent root s) (hs : s.editor.Registry) (ht : t.editor.Registry) :
    ¬ Modifies root s t := by
  intro hmodifies
  obtain ⟨d, -, hd, -, hunmodified, -⟩ := (modifies_iff hs ht).mp hmodifies
  have hmodified := h.modified d hd
  rw [hunmodified] at hmodified
  cases hmodified

/-- A modified text stays modified unless it is declared unmodified. -/
theorem after (h : Spent root s) (hs : s.Reachable) (ho : ¬ declares root (s, o)) :
    Spent root (s.after o) := by
  have hages := Document.ages_onward.onward.op hs.atRest (after_mem_moments s o)
  refine ⟨Nat.lt_of_lt_of_le h.numbered hages.numbered, fun c hc => ?_⟩
  obtain ⟨d, hd, hdc⟩ := hages.later h.numbered hc
  have hmodified := h.modified d hd
  by_cases hsaves : ∃ view, o = .setUnmodified view
  · obtain ⟨view, rfl⟩ := hsaves
    rcases hs.atRest.wellFormed.registry.dead_or_shows view with hdead | ⟨v, r, b, hshows⟩
    · rw [after_setUnmodified_of_dead hdead] at hc
      exact h.modified c hc
    · have hne : root ≠ r := fun hr => ho (hr ▸ hshows.rootOf_eq)
      rw [editor_after_setUnmodified hshows, get?_onDocument_of_ne _ hne] at hc
      exact h.modified c hc
  · have hsame : s.editor.KeepsSaves (s.after o).editor :=
      o.respects (R := Editor.Within Editor.KeepsSaves)
        (Op.effect_ne_save fun view hview => hsaves ⟨view, hview⟩) s
    obtain ⟨d', hd', hsave⟩ := hsame.later h.numbered hc
    obtain rfl := Option.some.inj (hd.symm.trans hd')
    have hlt : d.saveTick < d.tick := of_decide_eq_true hmodified
    have hle := (hdc (hs.ticked root d hd)).2.tick_le
    exact decide_eq_true (hsave ▸ Nat.lt_of_lt_of_le hlt hle)

end Spent

/-- Along a walk that does not declare the text of the root unmodified, there is no announcement, or
there is one and cannot be another. -/
theorem Walk.announced {starts : List (Session × Op)} {passed : List Session}
    (hwalk : s.Walk starts passed t) (hs : s.Reachable)
    (hkept : ∀ x ∈ starts, ¬ declares root x) :
    ∃ calls : List Call, t.trace = calls.reverse ++ s.trace ∧
      (calls.countP (Call.announces root) = 0 ∨
        calls.countP (Call.announces root) = 1 ∧ Spent root t) := by
  induction hwalk with
  | rest => exact ⟨[], rfl, Or.inl rfl⟩
  | switch _ hswitch ih =>
      obtain ⟨calls, htrace, hcount⟩ := ih hkept
      rcases hswitch with rfl | ⟨view, v, -, rfl⟩
      · exact ⟨calls, htrace, hcount⟩
      · exact ⟨calls, htrace, hcount.imp_right fun ⟨hone, hspent⟩ =>
          ⟨hone, hspent.numbered, hspent.modified⟩⟩
  | op hwalk o ih =>
      rename_i r _ _
      obtain ⟨hearlier, hlast⟩ := List.forall_mem_append.mp hkept
      obtain ⟨calls, htrace, hcount⟩ := ih hearlier
      have hr := hs.walk hwalk
      have hregistry := hr.atRest.wellFormed.registry
      have hregistry' := (hr.after o).atRest.wellFormed.registry
      have hannounces := hr.announces root o
      refine ⟨calls ++ r.callsUntil (r.after o), ?_, ?_⟩
      · rw [hannounces.trace, htrace, List.reverse_append, List.append_assoc]
      · rw [List.countP_append]
        rcases hcount with hnone | ⟨hone, hspent⟩
        · by_cases hmodifies : Modifies root r (r.after o)
          · rw [hnone, hannounces.once hmodifies]
            exact Or.inr ⟨rfl, hmodifies.spent hregistry hregistry'⟩
          · rw [hnone, hannounces.never hmodifies]
            exact Or.inl rfl
        · rw [hone, hannounces.never (hspent.unmodifiable hregistry hregistry')]
          exact Or.inr ⟨rfl, hspent.after hr (hlast _ List.mem_cons_self)⟩

/-- Every operation announces the first change of a root exactly once if it makes an unmodified text
whose undo is enabled a modified one, and never otherwise; a lock taken for the root comes before,
and there is no announcement when one is refused. From the end of an operation of a run to the start
of another one there is at most one announcement, unless the text was declared unmodified between
them. -/
theorem first_changes_announced_once (h : s.Reachable) (root : ViewId) :
    (∀ o, Announces root s (s.after o)) ∧
    ∀ steps earlier t o during u o' later,
      runStarts steps s = earlier ++ (t, o) :: (during ++ (u, o') :: later) →
      (∀ x ∈ during, ¬ declares root x) →
      ((t.after o).callsUntil u).countP (Call.announces root) ≤ 1 := by
  refine ⟨h.announces root, ?_⟩
  intro steps earlier t o during u o' later hsplit hkept
  have hwalk := walk_all steps s h.atRest
  obtain ⟨_, hfirst⟩ := hwalk.cut hsplit
  obtain ⟨_, hrest⟩ := hwalk.rest_of hsplit
  obtain ⟨_, hduring⟩ := hrest.cut rfl
  obtain ⟨calls, htrace, hcount⟩ := hduring.announced ((h.walk hfirst).after o) hkept
  rw [callsUntil_eq htrace]
  rcases hcount with hnone | ⟨hone, -⟩
  · exact hnone ▸ Nat.zero_le 1
  · exact Nat.le_of_eq hone

/-- A run with two changes that one undo takes back. -/
def changedTwice : List Step :=
  [.op (.createRoot "v"), .op (.insert 0 ['a', 'b']), .op (.deleteRaw 0 0 1),
    .op (.setUnmodified 0)]

theorem changedTwice_announced :
    let s := (takeAll changedTwice (fresh .default none)).2
    let t := s.after (.undo 0)
    (s.callsUntil t).countP (Call.announces 0) = 1 ∧
    ((s.after (.setUnmodified 0)).callsUntil
      (((s.after (.setUnmodified 0)).after (.undo 0)).after (.insertRaw 0 0 ['c']))).countP
        (Call.announces 0) ≤ 1 := by
  have hreachable := reachable_takeAll changedTwice (.fresh .default none)
  obtain ⟨hannounces, hrun⟩ := first_changes_announced_once hreachable 0
  refine ⟨(hannounces (.undo 0)).once (by decide +kernel), ?_⟩
  exact hrun [.op (.setUnmodified 0), .op (.undo 0), .op (.insertRaw 0 0 ['c']),
    .op (.setUnmodified 0)] [] _ (.setUnmodified 0) [(_, .undo 0), (_, .insertRaw 0 0 ['c'])] _
    (.setUnmodified 0) [] rfl (by simp [declares])

end Session

end Editing
