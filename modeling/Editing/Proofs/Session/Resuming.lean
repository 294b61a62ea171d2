import Editing.Proofs.Session.Moments

/-!
# Acting while a view is current

Whatever is done while a view is current, the view that was current before is so again afterwards if
it is still live. If it is not, the view that is current at the end stays so, and there is one as
long as any view is live. This holds at every level when one such act is part of another.
-/

namespace Editing

/-- An act that is made of operations, of which what follows may depend on the answers before it. A
failure may be raised, or found and passed over, and parts of the act may be done while another view
is current. -/
inductive Act.Composed : {α : Type} → Act α → Prop
  | op (o : Op) : Composed o.act
  | pure {α : Type} (a : α) : Composed (pure a : Act α)
  | throw {α : Type} (e : Error) : Composed (throw e : Act α)
  | bind {α β : Type} {act : Act α} {next : α → Act β} (h : Composed act)
      (hnext : ∀ a, Composed (next a)) : Composed (act >>= next)
  | attempt {α : Type} {act : Act α} (h : Composed act) : Composed (Act.attempt act)
  | withCurrent {α : Type} {act : Act α} (view : ViewId) (h : Composed act) :
      Composed (Act.withCurrent view act)

namespace Session

variable {α : Type} {act : Act α} {s : Session} {view : ViewId}

/-- Acting while a view is current leads to the session that acting has led to, with the same or
another live view current. -/
theorem switches_withCurrent {v : View} (hv : s.editor.views.get? view = some v)
    (hinner : (act.run (s.after (.setCurrent view))).2.editor.WellFormed) :
    (act.run (s.after (.setCurrent view))).2.Switches ((Act.withCurrent view act).run s).2 := by
  rw [Act.run_withCurrent hv, ← after_setCurrent hv]
  exact switches_restoreCurrent hinner s.editor.current

/-- Acts that are made of operations lead to sessions that operations alone lead to. -/
theorem Reachable.composed (h : s.Reachable) (hact : act.Composed) : (act.run s).2.Reachable := by
  induction hact generalizing s with
  | op o => exact h.after o
  | pure a => exact h
  | throw e => exact h
  | @bind _ _ act next _ _ ih ihnext =>
      have hfirst := ih h
      rw [Act.run_bind]
      rcases hrun : act.run s with ⟨e | a, t⟩
      · rw [hrun] at hfirst
        exact hfirst
      · rw [hrun] at hfirst
        exact ihnext a hfirst
  | attempt _ ih => exact ih h
  -- The act leads to a reachable session by induction, and restoring the current view to another.
  | @withCurrent _ act view _ ih =>
      cases hv : s.editor.views.get? view with
      | none =>
          rw [Act.run_withCurrent_of_dead hv]
          exact h
      | some v =>
          have hinner := ih (h.after (.setCurrent view))
          exact hinner.switch (switches_withCurrent hv hinner.atRest.wellFormed)

end Session

namespace Editor

variable {e : Editor}

/-- The view that was current is so again, unless it is dead. -/
theorem WellFormed.restoreCurrent_some (h : e.WellFormed) (previous : ViewId) :
    e.restoreCurrent (some previous) =
      { e with current := if e.isLive previous then some previous else e.current } := by
  cases hlive : e.isLive previous with
  | true => exact Act.restoreCurrent_of_live hlive
  | false =>
      rcases Act.restoreCurrent_eq h (some previous) with heq | ⟨view, v, hv, hprevious, -⟩
      · rw [heq]
        rfl
      · rw [Act.isLive_eq_false, Option.some.inj hprevious, hv] at hlive
        cases hlive

end Editor

namespace Session

variable {α : Type} {act : Act α} {s : Session}

/-- Acting while a live view is current gives the answer or the failure of the act, and all that the
act has changed stays. The view that was current before is current again unless it has been killed,
and otherwise the one that is current when the act ends, which is a live one as long as there is
any. A dead view is refused, and nothing is done. -/
theorem withCurrent_restores (h : s.Reachable) (hact : act.Composed) (view : ViewId) :
    let inner := act.run (s.after (.setCurrent view))
    let outer := (Act.withCurrent view act).run s
    (s.editor.isLive view = false → ∃ e, e.kind = .notFound ∧ outer = (.error e, s)) ∧
    (s.editor.isLive view = true →
      outer.1 = inner.1 ∧
      (outer.2 = inner.2.edit fun e => { e with current := outer.2.editor.current }) ∧
      (∃ previous, s.editor.current = some previous ∧ outer.2.editor.current =
        if inner.2.editor.isLive previous then some previous else inner.2.editor.current) ∧
      ∀ live, inner.2.editor.isLive live = true → ∃ last,
        inner.2.editor.current = some last ∧ inner.2.editor.isLive last = true) := by
  intro inner outer
  constructor
  · intro hdead
    exact ⟨.noLiveView view, rfl, Act.run_withCurrent_of_dead (Act.isLive_eq_false.mp hdead)⟩
  · intro hlive
    obtain ⟨v, hv⟩ := Act.isLive_iff.mp hlive
    obtain ⟨previous, hprevious, -⟩ := h.atRest.wellFormed.registry.exists_current hv
    have hinner : inner.2.Reachable := (h.after (.setCurrent view)).composed hact
    have hwell := hinner.atRest.wellFormed
    have houter : outer = (inner.1, inner.2.edit (·.restoreCurrent (some previous))) := by
      rw [← hprevious]
      exact (Act.run_withCurrent hv).trans (by rw [← after_setCurrent hv])
    rw [Session.edit, hwell.restoreCurrent_some previous] at houter
    refine ⟨by rw [houter], ?_, ⟨previous, hprevious, ?_⟩, fun live hother => ?_⟩
    · rw [houter, Session.edit]
    · rw [houter]
    · obtain ⟨w, hw⟩ := Act.isLive_iff.mp hother
      obtain ⟨last, hlast, hlastlive⟩ := hwell.registry.exists_current hw
      exact ⟨last, hlast, Act.isLive_iff.mpr hlastlive⟩

/-- While another view is current, the views that are current further out are killed and a new one
is made; then a failure is raised. -/
def nestedKills : Act Unit := do
  let _ ← Act.attempt (Act.withCurrent 2 (do
    let _ ← (Op.kill 0).act
    let _ ← (Op.kill 1).act
    (Op.createRoot "d").act))
  throw (.raised "boom")

theorem nestedKills_composed : nestedKills.Composed :=
  .bind (.attempt (.withCurrent 2 (.bind (.op (.kill 0)) fun _ => .bind (.op (.kill 1)) fun _ =>
    .op (.createRoot "d")))) fun _ => .throw (.raised "boom")

theorem nestedKills_restores :
    let s := (fresh .default none).afterAll [.createRoot "a", .createRoot "b", .createRoot "c"]
    let outer := (Act.withCurrent 1 nestedKills).run s
    s.Reachable ∧ nestedKills.Composed ∧ s.editor.isLive 1 = true ∧ s.editor.current = some 0 ∧
      outer.1 = .error (.raised "boom") ∧ outer.2.editor.viewList = [2, 3] ∧
      outer.2.editor.current = some 2 := by
  intro s outer
  have hreachable : s.Reachable := (Reachable.fresh .default none).afterAll _
  have hlive : s.editor.isLive 1 = true := by decide +kernel
  have hcurrent : s.editor.current = some 0 := by decide +kernel
  have hraised : (nestedKills.run (s.after (.setCurrent 1))).1 = .error (.raised "boom") := by
    decide +kernel
  have hlast : (nestedKills.run (s.after (.setCurrent 1))).2.editor.current = some 2 := by
    decide +kernel
  have hdead : (nestedKills.run (s.after (.setCurrent 1))).2.editor.isLive 0 = false := by
    decide +kernel
  obtain ⟨hanswer, -, ⟨previous, hprevious, hnow⟩, -⟩ :=
    (withCurrent_restores hreachable nestedKills_composed 1).2 hlive
  obtain rfl := Option.some.inj (hprevious.symm.trans hcurrent)
  rw [hdead, if_neg Bool.false_ne_true, hlast] at hnow
  exact ⟨hreachable, nestedKills_composed, hlive, hcurrent, hanswer.trans hraised,
    by decide +kernel, hnow⟩

end Session

end Editing
