import Editing.Proofs.Script.Closing
import Editing.Proofs.Script.Executing
import Editing.Proofs.Session.Retracting

/-!
# Lines taken back

What a line inserts or deletes is a group of its own, and its record lies in the accessible part of
the current view. So an undo on the next line takes it back, also when lines come in between that
are passed over or that make the view read-only.
-/

namespace Editing

/-- Whether the command inserts into the current text or deletes from it. -/
def Command.changesText : Command → Bool
  | insert _ | delete .. | erase => true
  | _ => false

namespace Act

variable {s : Session} {view root : ViewId} {v : View} {d : Document}

theorem run_setReadOnly (hs : s.editor.Shows view v root d) (flag : Bool) :
    (setReadOnly view flag).run s = (.ok (), s.edit fun e =>
      { e with views := e.views.modify view fun v => { v with readOnly := flag } }) := by
  rw [setReadOnly, run_changeView hs.live]

end Act

namespace Play

variable {limits : Limits} {p q : Playback} {view root : ViewId} {v : View} {d : Document}
  {text : Text} {number : Nat} {line : Text}

/-- The line is passed over, or only sets whether the current view is read-only. -/
def Passive (line : Text) : Prop :=
  Command.parse line = .ok none ∨ ∃ flag, Command.parse line = .ok (some (.readOnly flag))

/-- An undo on the next line gives the text of a root back. -/
structure Reverts (limits : Limits) (root : ViewId) (text : Text) (p : Playback) : Prop where
  sound : p.session.Sound limits
  retracts : ∃ view v d r, p.session.editor.current = some view ∧
    p.session.Retracts view v root d r text

/-- Closing the group of a command leaves what can be taken back as it is. -/
theorem reverts_of_closeGroup (h : p.session.Sound limits) {r : Record}
    (hview : p.session.editor.current = some view)
    (hretracts : p.session.Retracts view v root d r text) :
    ∃ q, closeGroup.run p = (.ok (), q) ∧ Reverts limits root text q :=
  ⟨_, run_closeGroup hview hretracts.shows, h.after rfl, view, v, _, r, by
    rw [Session.after_closeGroup hretracts.shows]
    exact hview, hretracts.closeGroup h.wellFormed⟩

/-- A command that changes the text can be taken back alone. -/
theorem retracts_of_execute (h : p.session.Sound limits) (hready : p.session.Ready) {c : Command}
    (hc : c.changesText = true) (hview : p.session.editor.current = some view)
    (hs : p.session.editor.Shows view v root d) (hrun : (execute c).run p = (.ok (), q))
    (hchanged : ∀ b, q.session.editor.documents.get? root = some b → b.text ≠ d.text) :
    ∃ b r, q.session.Retracts view v root b r d.text := by
  have hrest := h.reachable.atRest
  obtain ⟨he, hd⟩ := hready root d hs.document
  unfold Play.execute at hrun
  have honCurrent : ∀ {α : Type} {act : ViewId → Act α}, (onCurrent act).run p = (.ok (), q) →
      ∃ a t, (act view).run p.session = (.ok a, t) ∧ q = { p with session := t } := by
    intro α act hplayed
    obtain ⟨w, a, t, hw, hact, hq⟩ := exists_of_onCurrent hplayed
    obtain rfl := Option.some.inj (hview.symm.trans hw)
    exact ⟨a, t, hact, hq⟩
  cases c with
  | insert text =>
      obtain ⟨n, t, hact, rfl⟩ := honCurrent hrun
      exact Act.retracts_insert hrest hs he hd hact hchanged
  | delete a b =>
      obtain ⟨deleted, t, hact, rfl⟩ := honCurrent hrun
      exact Act.retracts_deleteRegion hrest hs he hd hact hchanged
  | erase =>
      obtain ⟨_, t, hact, rfl⟩ := honCurrent hrun
      exact Act.retracts_erase hrest hs he hd hact hchanged
  | _ => cases hc

/-- A line that changes the current text can be taken back. -/
theorem reverts_of_playLine (h : p.session.Sound limits) (hready : p.session.Ready) {c : Command}
    (hparse : Command.parse line = .ok (some c)) (hc : c.changesText = true)
    (hview : p.session.editor.current = some view) (hs : p.session.editor.Shows view v root d)
    (hrun : (playLine number line).run p = (.ok (), q))
    (hchanged : ∀ b, q.session.editor.documents.get? root = some b → b.text ≠ d.text) :
    Reverts limits root d.text q := by
  have hedits : c.edits = true := by
    cases c with
    | insert _ | delete _ _ | erase => rfl
    | _ => cases hc
  rcases exists_of_playLine hrun with ⟨hnone, -⟩ | ⟨c', r, hparse', hexecute, hclose⟩
  · rw [hparse] at hnone
    cases hnone
  · obtain rfl : c = c' := Option.some.inj (Except.ok.inj (hparse.symm.trans hparse'))
    obtain ⟨view', v', root', d', hview', hs', hconfined, hq, hcurrent⟩ :=
      closed_of_edit h hedits hexecute hclose
    obtain rfl := Option.some.inj (hview.symm.trans hview')
    obtain ⟨rfl, rfl, rfl⟩ := hs.unique hs'
    obtain ⟨b, hb, -⟩ := hconfined.shows hs
    -- Closing the group does not touch the text.
    have hopen : ∀ b, r.session.editor.documents.get? root = some b → b.text ≠ d.text := by
      intro b hb'
      refine hchanged { b with log := b.log.boundary } ?_
      rw [hq, Session.after_closeGroup hb]
      exact Session.get?_onDocument_self hb' _
    obtain ⟨b, record, hretracts⟩ := retracts_of_execute h hready hc hview hs hexecute hopen
    have hsound := (Keeps.sound_execute c).left h hexecute
    have hclosed := hretracts.closeGroup hsound.wellFormed
    rw [← hq] at hclosed
    exact ⟨(Keeps.sound_playLine number line).left h hrun, view, v, _, record, hcurrent, hclosed⟩

/-- A passive line succeeds and leaves what can be taken back as it is. -/
theorem Reverts.passive (h : Reverts limits root text p) (hline : Passive line) (number : Nat) :
    ∃ q, (playLine number line).run p = (.ok (), q) ∧ Reverts limits root text q := by
  rcases hline with hparse | ⟨flag, hparse⟩
  · refine ⟨p, ?_, h⟩
    unfold playLine
    rw [hparse]
    rfl
  · obtain ⟨view, v, d, r, hview, hretracts⟩ := h.retracts
    have hset := Act.run_setReadOnly hretracts.shows flag
    have hexecute : (execute (.readOnly flag)).run p = (.ok (), _) := run_onCurrent hview hset
    have hsound : (p.session.after (.setReadOnly view flag)).Sound limits := h.sound.after rfl
    rw [Session.after, Op.act, Act.run_quietly, hset] at hsound
    rw [run_playLine hparse hexecute]
    exact reverts_of_closeGroup hsound hview (hretracts.setReadOnly flag)

theorem Reverts.passives (h : Reverts limits root text p) {lines : List Text}
    (hlines : ∀ line ∈ lines, Passive line) (number : Nat) :
    ∃ q, (playLines number lines).run p = (.ok (), q) ∧ Reverts limits root text q := by
  induction lines generalizing number p with
  | nil => exact ⟨p, rfl, h⟩
  | cons line lines ih =>
      obtain ⟨hline, hlines⟩ := List.forall_mem_cons.mp hlines
      obtain ⟨r, hrun, hr⟩ := h.passive hline number
      obtain ⟨q, hrest, hq⟩ := ih hr hlines (number + 1)
      exact ⟨q, by rw [playLines, run_bind_ok hrun, hrest], hq⟩

/-- A line with an undo succeeds and gives the text back. -/
theorem Reverts.undo (h : Reverts limits root text p)
    (hparse : Command.parse line = .ok (some .undo)) (number : Nat) :
    ∃ q d, (playLine number line).run p = (.ok (), q) ∧
      q.session.editor.documents.get? root = some d ∧ d.text = text := by
  obtain ⟨view, v, d, r, hview, hretracts⟩ := h.retracts
  have hw := h.sound.wellFormed
  obtain ⟨t, c, hact, hs, htext⟩ := hretracts.undo hw h.sound.locks
  have hconfined := Act.confined_undo hw hretracts.shows
  rw [hact] at hconfined
  have hexecute : (execute .undo).run p = (.ok (), { p with session := t }) :=
    run_onCurrent hview hact
  have hclosed := run_closeGroup (p := { p with session := t }) (hconfined.current.trans hview) hs
  refine ⟨_, { c with log := c.log.boundary }, (run_playLine hparse hexecute).trans hclosed, ?_,
    htext⟩
  rw [Session.after_closeGroup hs]
  exact Session.get?_onDocument_self hs.document _

end Play

namespace Playback

variable {limits : Limits}

/-- Every line is one group. After lines that succeed no log has an open group, whichever view each
of them was about. So what the last of them inserted into the text of the current view or deleted
from it, however the view is narrowed, an undo on the next line takes back: it succeeds, and the
text of the root is what it was before. It does so too when lines come in between that are passed
over or that set whether the view is read-only. -/
theorem each_line_is_one_group (hlimits : limits.ForScripts) :
    let editor := fun script => (run limits script).2.session.editor
    (∀ script, (run limits script).1 = .ok () → ∀ root ∈ (editor script).rootList,
      ∃ records, (editor script).undoRecords root = .ok records ∧
        (records = [] ∨ ∃ older, records = .boundary :: older)) ∧
    ∀ (before edited undone line undoing : Text) (between : List Text) (c : Command)
      (view root : ViewId),
      edited.lines = before.lines ++ [line] → undone.lines = edited.lines ++ between ++ [undoing] →
      Command.parse line = .ok (some c) → c.changesText = true →
      (∀ other ∈ between, Play.Passive other) → Command.parse undoing = .ok (some .undo) →
      (run limits edited).1 = .ok () → (editor before).current = some view →
      (editor before).rootOf view = .ok root →
      (editor edited).fullText root ≠ (editor before).fullText root →
      (run limits undone).1 = .ok () ∧ ∃ text, (editor before).fullText root = .ok text ∧
        (editor undone).fullText root = .ok text := by
  intro editor
  have hstart : (start limits).session.Sound limits := .start limits
  have hready := Session.start_ready limits
  refine ⟨fun script hrun root hroot => ?_, ?_⟩
  · obtain ⟨hsound, hclosed⟩ := Play.ready_of_playLines hstart hlimits hready (Prod.ext hrun rfl)
    exact hclosed.closes hsound.wellFormed.registry hroot
  · intro before edited undone line undoing between c view root hedited hundone hparse hc hbetween
      hundo hrun hview hroot hchanged
    -- The three parts of the script: what comes before the edit, the edit, and the rest.
    have hedit : (Play.playLines 1 edited.lines).run (start limits) =
        (.ok (), (run limits edited).2) := Prod.ext hrun rfl
    have hall := hedit
    rw [hedited] at hall
    obtain ⟨p, hbefore, hline⟩ := Play.exists_of_playLines_append hall
    rw [Play.run_playLines_singleton] at hline
    have hp : run limits before = (.ok (), p) := hbefore
    obtain ⟨hsound, hclosed⟩ := Play.ready_of_playLines hstart hlimits hready hbefore
    simp only [editor, hp] at hview hroot hchanged ⊢
    obtain ⟨v, r, d, hs⟩ := hsound.current_shows hview
    obtain rfl : r = root := Except.ok.inj (hs.rootOf_eq.symm.trans hroot)
    have htext := hsound.wellFormed.registry.fullText_root hs.document
    have hsound' := (Play.Keeps.sound_playLine _ line).left hsound hline
    have hreverts := Play.reverts_of_playLine hsound hclosed hparse hc hview hs hline
      fun b hb heq => hchanged <| by
        rw [hsound'.wellFormed.registry.fullText_root hb, htext, heq]
    obtain ⟨q, hpassed, hq⟩ := hreverts.passives hbetween (1 + edited.lines.length)
    obtain ⟨t, b, hlast, hb, hback⟩ :=
      hq.undo hundo (1 + (edited.lines ++ between).length)
    have hfinal : run limits undone = (.ok (), t) := by
      change (Play.playLines 1 undone.lines).run (start limits) = _
      rw [hundone, Play.run_playLines_append, Play.run_playLines_append, hedit]
      simp only [hpassed, Play.run_playLines_singleton, hlast]
    have hsound'' := (Play.Keeps.sound_playLine _ undoing).left hq.sound hlast
    rw [hfinal]
    exact ⟨rfl, d.text, htext, by rw [hsound''.wellFormed.registry.fullText_root hb, hback]⟩

/-- A text of which only the middle is accessible. -/
def narrowed : Text := "root a\ninsert abcdef\nnarrow 1 5\n".toList

theorem narrowed_taken_back :
    let limits : Limits := { Limits.default with handler := some Config.discardAll }
    let edited := narrowed ++ "delete 2 4\n".toList
    let undone := edited ++ "read-only true\n\nundo\n".toList
    let editor := fun script => (run limits script).2.session.editor
    limits.ForScripts ∧ (run limits edited).1 = .ok () ∧
      (editor edited).fullText 0 = .ok "abef".toList ∧ (run limits undone).1 = .ok () ∧
      (editor undone).fullText 0 = .ok "abcdef".toList := by
  intro limits edited undone editor
  have hlimits : limits.ForScripts := .inr rfl
  have hrun : (run limits edited).1 = .ok () := by decide +kernel
  have htext : (editor narrowed).fullText 0 = .ok "abcdef".toList := by decide +kernel
  have hedited : (editor edited).fullText 0 = .ok "abef".toList := by decide +kernel
  have hpassive : ∀ other ∈ ["read-only true".toList, []], Play.Passive other := by
    intro other hother
    rcases List.mem_cons.mp hother with rfl | hother
    · exact .inr ⟨true, by decide +kernel⟩
    · exact .inl (List.mem_singleton.mp hother ▸ by decide +kernel)
  obtain ⟨hundone, text, hbefore, hrestored⟩ := (each_line_is_one_group hlimits).2 narrowed edited
    undone "delete 2 4".toList "undo".toList ["read-only true".toList, []] (.delete 2 4) 0 0
    (by decide +kernel) (by decide +kernel) (by decide +kernel) rfl hpassive (by decide +kernel)
    hrun (by decide +kernel) (by decide +kernel) (by decide +kernel)
  exact ⟨hlimits, hrun, hedited, hundone, hrestored.trans (hbefore.symm.trans htext)⟩

end Playback

end Editing
