import Editing.Machine.Acting
import Editing.Proofs.Session.Acting

/-!
# Acts in words that agree with acts

An act in words of the machine agrees with another act in a session when it has a result there,
which is the one of the other act. Acts that agree in their parts agree.
-/

namespace Editing

namespace Machine

variable {α β : Type} {s : Session}

/-- The act in words has a result, and it is that of the other act. -/
def Agrees (act : Act α) (act' : Editing.Act α) (s : Session) : Prop :=
  act.run s = some (act'.run s)

theorem run_bind_of_ok {act : Act α} {next : α → Act β} {a : α} {t : Session}
    (h : act.run s = some (.ok a, t)) : (act >>= next).run s = (next a).run t := by
  change (act s).bind (fun x => ExceptT.bindCont next x.1 x.2) = _
  rw [show act s = some (.ok a, t) from h]
  rfl

theorem run_bind_of_error {act : Act α} {next : α → Act β} {e : Error} {t : Session}
    (h : act.run s = some (.error e, t)) : (act >>= next).run s = some (.error e, t) := by
  change (act s).bind (fun x => ExceptT.bindCont next x.1 x.2) = _
  rw [show act s = some (.error e, t) from h]
  rfl

theorem run_bind_of_none {act : Act α} {next : α → Act β} (h : act.run s = none) :
    (act >>= next).run s = none := by
  change (act s).bind (fun x => ExceptT.bindCont next x.1 x.2) = _
  rw [show act s = none from h]
  rfl

@[simp] theorem run_plainly (act : Editing.Act α) (s : Session) :
    (plainly act).run s = some (act.run s) := rfl

theorem run_plainly_bind {act : Editing.Act α} {next : α → Act β} {a : α} {t : Session}
    (h : act.run s = (.ok a, t)) : (plainly act >>= next).run s = (next a).run t :=
  run_bind_of_ok ((run_plainly act s).trans (congrArg some h))

theorem run_plainly_ask_bind {question : Editor → Except Error α} {next : α → Act β} :
    (plainly (Editing.Act.ask question) >>= next).run s =
      match question s.editor with
      | .ok a => (next a).run s
      | .error e => some (.error e, s) := by
  have hask := (run_plainly _ s).trans (congrArg some (Editing.Act.run_ask question s))
  cases hq : question s.editor with
  | ok a =>
      rw [hq] at hask
      exact run_bind_of_ok hask
  | error e =>
      rw [hq] at hask
      exact run_bind_of_error hask

namespace Agrees

theorem plainly (act : Editing.Act α) (s : Session) : Agrees (plainly act) act s := rfl

theorem pure (a : α) (s : Session) : Agrees (pure a) (pure a) s := rfl

theorem throw (e : Error) (s : Session) : Agrees (throw e : Act α) (throw e) s := rfl

theorem bind {act : Act α} {act' : Editing.Act α} {next : α → Act β} {next' : α → Editing.Act β}
    (h : Agrees act act' s)
    (hnext : ∀ a t, act'.run s = (.ok a, t) → Agrees (next a) (next' a) t) :
    Agrees (act >>= next) (act' >>= next') s := by
  rcases hrun : act'.run s with ⟨e | a, t⟩
  · rw [Agrees, run_bind_of_error (h.trans (congrArg some hrun)), Editing.Act.run_bind_error hrun]
  · rw [Agrees, run_bind_of_ok (h.trans (congrArg some hrun)), Editing.Act.run_bind_ok hrun]
    exact hnext a t hrun

/-- What is asked is the same; the rest has to agree after the answer, if there is one. -/
theorem ask_bind {question : Editor → Except Error α} {next : α → Act β}
    {next' : α → Editing.Act β}
    (hnext : ∀ a, question s.editor = .ok a → Agrees (next a) (next' a) s) :
    Agrees (Machine.plainly (Editing.Act.ask question) >>= next)
      (Editing.Act.ask question >>= next') s :=
  (plainly _ s).bind fun a t hrun => by
    obtain ⟨ha, rfl⟩ := Prod.mk.inj ((Editing.Act.run_ask question s).symm.trans hrun)
    exact hnext a ha

theorem compute_bind {n : Option α} {a : α} {next : α → Act β} {act' : Editing.Act β}
    (h : n = some a) (hnext : Agrees (next a) act' s) : Agrees (compute n >>= next) act' s := by
  have hrun : (compute n).run s = some (.ok a, s) := by
    rw [h]
    rfl
  rw [Agrees, run_bind_of_ok hrun]
  exact hnext

theorem map (f : α → β) {act : Act α} {act' : Editing.Act α} (h : Agrees act act' s) :
    Agrees (f <$> act) (f <$> act') s := by
  rw [map_eq_pure_bind, map_eq_pure_bind]
  exact h.bind fun _ _ _ => pure _ _

theorem quietly {act : Act α} {act' : Editing.Act α} (h : Agrees act act' s) :
    Agrees (quietly act) (Op.quietly act') s :=
  h.bind fun _ _ _ => pure _ _

theorem attempt {act : Act α} {act' : Editing.Act α} (h : Agrees act act' s) :
    Agrees (attempt act) (Editing.Act.attempt act') s := by
  change (act s).bind (fun x => some (Except.ok x.1, x.2)) = _
  rw [show act s = _ from h]
  rfl

end Agrees

end Machine

end Editing
