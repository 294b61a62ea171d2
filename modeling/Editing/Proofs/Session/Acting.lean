import Editing.Session.Operation

/-!
# Running acts

An act on a session is run one part after the other, and the rest is left out as soon as a part
fails. The equations here take acts apart; what an act does is then a question about the lookups it
makes.
-/

namespace Editing

variable {α β : Type} {s t : Session}

/-- Results are compared by what they hold. -/
instance decidableEqResult [DecidableEq α] [DecidableEq β] : DecidableEq (Except α β)
  | .ok a, .ok b => decidable_of_iff (a = b) ⟨congrArg Except.ok, Except.ok.inj⟩
  | .error a, .error b => decidable_of_iff (a = b) ⟨congrArg Except.error, Except.error.inj⟩
  | .ok _, .error _ => isFalse (fun h => by cases h)
  | .error _, .ok _ => isFalse (fun h => by cases h)

/-! ## Sessions with one thing changed -/

namespace Session

/-- The session with its editor changed. -/
def edit (s : Session) (f : Editor → Editor) : Session := { s with editor := f s.editor }

/-- The session with the document of a root changed. -/
def onDocument (s : Session) (root : ViewId) (f : Document → Document) : Session :=
  s.edit fun e => { e with documents := e.documents.modify root f }

def called (s : Session) (c : Call) : Session := { s with trace := c :: s.trace }

/-- Why a lock would be refused now, if it would. -/
def refusal? (s : Session) (root : ViewId) (path : Path) : Option Failure :=
  s.locks.bind fun protocol => protocol.refusal s.trace root path

def granted (s : Session) (root : ViewId) (path : Path) : Session :=
  if s.locks.isSome then s.called (.lock root path) else s

def unlocked (s : Session) (held : Bool) (root : ViewId) (file : Option Path) : Session :=
  match held, file with
  | true, some path => if s.locks.isSome then s.called (.unlock root path) else s
  | _, _ => s

@[simp] theorem edit_edit (s : Session) (f g : Editor → Editor) :
    (s.edit f).edit g = s.edit fun e => g (f e) := rfl

@[simp] theorem editor_edit (s : Session) (f : Editor → Editor) :
    (s.edit f).editor = f s.editor := rfl

@[simp] theorem editor_called (s : Session) (c : Call) : (s.called c).editor = s.editor := rfl

@[simp] theorem editor_granted (s : Session) (root : ViewId) (path : Path) :
    (s.granted root path).editor = s.editor := by
  unfold granted
  split <;> rfl

theorem granted_edit (s : Session) (f : Editor → Editor) (root : ViewId) (path : Path) :
    (s.edit f).granted root path = (s.granted root path).edit f := by
  rw [granted, granted, apply_ite fun t : Session => t.edit f]
  rfl

@[simp] theorem editor_unlocked (s : Session) (held : Bool) (root : ViewId) (file : Option Path) :
    (s.unlocked held root file).editor = s.editor := by
  unfold unlocked
  repeat' split
  all_goals rfl

theorem onDocument_editor (s : Session) (root : ViewId) (f : Document → Document) :
    (s.onDocument root f).editor =
      { s.editor with documents := s.editor.documents.modify root f } := rfl

@[simp] theorem views_onDocument (s : Session) (root : ViewId) (f : Document → Document) :
    (s.onDocument root f).editor.views = s.editor.views := rfl

@[simp] theorem userMarkers_onDocument (s : Session) (root : ViewId) (f : Document → Document) :
    (s.onDocument root f).editor.userMarkers = s.editor.userMarkers := rfl

@[simp] theorem trace_onDocument (s : Session) (root : ViewId) (f : Document → Document) :
    (s.onDocument root f).trace = s.trace := rfl

theorem get?_onDocument (s : Session) (root r : ViewId) (f : Document → Document) :
    (s.onDocument root f).editor.documents.get? r =
      if r = root then (s.editor.documents.get? r).map f else s.editor.documents.get? r :=
  Table.get?_modify _ _ _ _

theorem get?_onDocument_self {s : Session} {root : ViewId} {d : Document}
    (h : s.editor.documents.get? root = some d) (f : Document → Document) :
    (s.onDocument root f).editor.documents.get? root = some (f d) := by
  rw [get?_onDocument, if_pos rfl, h, Option.map_some]

theorem get?_onDocument_of_ne (s : Session) {root r : ViewId} (h : r ≠ root)
    (f : Document → Document) :
    (s.onDocument root f).editor.documents.get? r = s.editor.documents.get? r := by
  rw [get?_onDocument, if_neg h]

theorem onDocument_congr {s : Session} {root : ViewId} {d : Document} {f g : Document → Document}
    (hd : s.editor.documents.get? root = some d) (h : f d = g d) :
    s.onDocument root f = s.onDocument root g := by
  have htable : s.editor.documents.modify root f = s.editor.documents.modify root g := by
    apply Table.ext_get?
    intro r
    rw [Table.get?_modify, Table.get?_modify]
    split
    · rename_i hr
      rw [hr, hd, Option.map_some, Option.map_some, h]
    · rfl
  rw [onDocument, onDocument, edit, edit, htable]

theorem onDocument_self {s : Session} {root : ViewId} {d : Document} {f : Document → Document}
    (hd : s.editor.documents.get? root = some d) (h : f d = d) : s.onDocument root f = s := by
  have htable : s.editor.documents.modify root f = s.editor.documents := by
    apply Table.ext_get?
    intro r
    rw [Table.get?_modify]
    split
    · rename_i hr
      rw [hr, hd, Option.map_some, h]
    · rfl
  rw [onDocument, edit, htable]

theorem onDocument_onDocument (s : Session) (root : ViewId) (f g : Document → Document) :
    (s.onDocument root f).onDocument root g = s.onDocument root fun d => g (f d) := by
  have htable : (s.editor.documents.modify root f).modify root g =
      s.editor.documents.modify root fun d => g (f d) := by
    apply Table.ext_get?
    intro r
    simp only [Table.get?_modify]
    split
    · rw [Option.map_map]
      rfl
    · rfl
  rw [onDocument, onDocument, onDocument, edit_edit, edit, edit, htable]

/-- What is done to the document of a root in two ways comes to the same if the document does. -/
theorem onDocument_swap {s : Session} {root : ViewId} {d : Document}
    {f g f' g' : Document → Document} (hd : s.editor.documents.get? root = some d)
    (h : f' (g d) = g' (f d)) :
    (s.onDocument root g).onDocument root f' = (s.onDocument root f).onDocument root g' := by
  rw [onDocument_onDocument, onDocument_onDocument]
  exact onDocument_congr hd h

end Session

/-! ## Parts of acts -/

namespace Act

@[simp] theorem run_pure (a : α) (s : Session) : (pure a : Act α).run s = (.ok a, s) := rfl

@[simp] theorem run_throw (e : Error) (s : Session) :
    (throw e : Act α).run s = (.error e, s) := rfl

theorem run_bind (act : Act α) (next : α → Act β) (s : Session) :
    (act >>= next).run s =
      match act.run s with
      | (.ok a, t) => (next a).run t
      | (.error e, t) => (.error e, t) := by
  change ExceptT.bindCont next (act s).1 (act s).2 = _
  rcases h : act s with ⟨r, t⟩
  rw [show act.run s = (r, t) from h]
  cases r <;> rfl

theorem run_bind_ok {act : Act α} {next : α → Act β} {a : α} (h : act.run s = (.ok a, t)) :
    (act >>= next).run s = (next a).run t := by
  rw [run_bind, h]

theorem run_bind_error {act : Act α} {next : α → Act β} {e : Error}
    (h : act.run s = (.error e, t)) : (act >>= next).run s = (.error e, t) := by
  rw [run_bind, h]

/-- Parts of an act that succeeds have succeeded. -/
theorem exists_of_bind {act : Act α} {next : α → Act β} {b : β}
    (h : (act >>= next).run s = (.ok b, t)) :
    ∃ a r, act.run s = (.ok a, r) ∧ (next a).run r = (.ok b, t) := by
  rw [run_bind] at h
  rcases hact : act.run s with ⟨e | a, r⟩
  · rw [hact] at h
    cases h
  · rw [hact] at h
    exact ⟨a, r, rfl, h⟩

@[simp] theorem run_map (f : α → β) (act : Act α) (s : Session) :
    (f <$> act).run s = ((act.run s).1.map f, (act.run s).2) := by
  rw [map_eq_pure_bind, run_bind]
  rcases act.run s with ⟨_ | _, _⟩ <;> rfl

@[simp] theorem run_quietly (act : Act α) (s : Session) :
    (Op.quietly act).run s = ((act.run s).1.map fun _ => .done, (act.run s).2) := by
  rw [Op.quietly, run_bind]
  rcases act.run s with ⟨_ | _, _⟩ <;> rfl

theorem run_quietly_ok_iff {act : Act Unit} {s : Session} :
    ((Op.quietly act).run s).1 = .ok .done ↔ (act.run s).1 = .ok () := by
  rw [run_quietly]
  cases (act.run s).1 with
  | error e =>
      constructor
      · intro h
        cases h
      · intro h
        cases h
  | ok _ => exact ⟨fun _ => rfl, fun _ => rfl⟩

theorem run_quietly_error_iff {act : Act α} {s : Session} {e : Error} :
    ((Op.quietly act).run s).1 = .error e ↔ (act.run s).1 = .error e := by
  rw [run_quietly]
  cases (act.run s).1 with
  | error f =>
      exact ⟨fun h => congrArg _ (Except.error.inj h), fun h => congrArg _ (Except.error.inj h)⟩
  | ok a =>
      constructor
      · intro h
        cases h
      · intro h
        cases h

theorem run_ite (c : Prop) [Decidable c] (act other : Act α) (s : Session) :
    (if c then act else other).run s = if c then act.run s else other.run s := by
  split <;> rfl

@[simp] theorem run_get (s : Session) : (get : Act Session).run s = (.ok s, s) := rfl

@[simp] theorem run_give (r : Except Error α) (s : Session) : (give r).run s = (r, s) := by
  cases r <;> rfl

@[simp] theorem run_ask (question : Editor → Except Error α) (s : Session) :
    (ask question).run s = (question s.editor, s) := by
  rw [ask, run_bind, run_get]
  exact run_give _ s

theorem run_ask_bind {question : Editor → Except Error α} {a : α}
    (h : question s.editor = .ok a) (next : α → Act β) :
    (ask question >>= next).run s = (next a).run s :=
  run_bind_ok (by rw [run_ask, h])

theorem run_ask_bind_error {question : Editor → Except Error α} {e : Error}
    (h : question s.editor = .error e) (next : α → Act β) :
    (ask question >>= next).run s = (.error e, s) :=
  run_bind_error (by rw [run_ask, h])

theorem exists_of_ask_bind {question : Editor → Except Error α} {next : α → Act β} {b : β}
    (h : (ask question >>= next).run s = (.ok b, t)) :
    ∃ a, question s.editor = .ok a ∧ (next a).run s = (.ok b, t) := by
  obtain ⟨a, r, hask, hnext⟩ := exists_of_bind h
  obtain ⟨ha, rfl⟩ := Prod.mk.inj ((run_ask question s).symm.trans hask)
  exact ⟨a, ha, hnext⟩

@[simp] theorem run_change (f : Editor → Editor) (s : Session) :
    (change f).run s = (.ok (), s.edit f) := rfl

@[simp] theorem run_changeDocument (root : ViewId) (f : Document → Document) (s : Session) :
    (changeDocument root f).run s = (.ok (), s.onDocument root f) := rfl

@[simp] theorem run_call (c : Call) (s : Session) : (call c).run s = (.ok (), s.called c) := rfl

@[simp] theorem run_attempt (act : Act α) (s : Session) :
    (attempt act).run s = (.ok (act.run s).1, (act.run s).2) := rfl

/-- A request for a lock is granted or refused, and known to have been made when a protocol was
asked. -/
theorem run_lock (root : ViewId) (path : Path) (s : Session) :
    (lock root path).run s =
      match s.refusal? root path with
      | none => (.ok (), s.granted root path)
      | some reason => (.error (.lockRefused reason), s.called (.lockRefused root path)) := by
  rw [lock, run_bind, run_get]
  cases hl : s.locks with
  | none => simp [Session.refusal?, Session.granted, hl]
  | some protocol =>
      cases hr : protocol.refusal s.trace root path with
      | none => simp [Session.refusal?, Session.granted, hl, hr]
      | some reason => simp [Session.refusal?, hl, hr, run_bind]

@[simp] theorem run_unlockIf (held : Bool) (root : ViewId) (file : Option Path) (s : Session) :
    (unlockIf held root file).run s = (.ok (), s.unlocked held root file) := by
  cases held with
  | false => rfl
  | true =>
      cases file with
      | none => rfl
      | some path =>
          simp only [unlockIf, unlock, run_bind, run_get]
          cases hl : s.locks <;> simp [Session.unlocked, hl]

/-- The act does not fail in the session. -/
def Succeeds (act : Act α) (s : Session) : Prop :=
  ∃ a t, act.run s = (.ok a, t)

namespace Succeeds

theorem pure (a : α) (s : Session) : Succeeds (pure a : Act α) s := ⟨a, s, rfl⟩

theorem change (f : Editor → Editor) (s : Session) : Succeeds (change f) s := ⟨(), s.edit f, rfl⟩

theorem unlockIf (held : Bool) (root : ViewId) (file : Option Path) (s : Session) :
    Succeeds (unlockIf held root file) s := ⟨_, _, run_unlockIf held root file s⟩

theorem ask {question : Editor → Except Error α} {a : α} (h : question s.editor = .ok a) :
    Succeeds (ask question) s := ⟨a, s, by rw [run_ask, h]⟩

theorem bind {act : Act α} {next : α → Act β} (h : Succeeds act s)
    (h' : ∀ a t, act.run s = (.ok a, t) → Succeeds (next a) t) : Succeeds (act >>= next) s := by
  obtain ⟨a, t, hrun⟩ := h
  obtain ⟨b, u, hnext⟩ := h' a t hrun
  exact ⟨b, u, by rw [run_bind_ok hrun, hnext]⟩

theorem ask_bind {question : Editor → Except Error α} {next : α → Act β} {a : α}
    (h : question s.editor = .ok a) (h' : Succeeds (next a) s) :
    Succeeds (Act.ask question >>= next) s := by
  obtain ⟨b, t, hnext⟩ := h'
  exact ⟨b, t, by rw [run_ask_bind h, hnext]⟩

theorem get_bind {next : Session → Act β} (h : Succeeds (next s) s) :
    Succeeds (get >>= next) s := by
  obtain ⟨b, t, hnext⟩ := h
  exact ⟨b, t, by rw [run_bind_ok (run_get s), hnext]⟩

theorem map (f : α → β) {act : Act α} (h : Succeeds act s) : Succeeds (f <$> act) s := by
  rw [map_eq_pure_bind]
  exact h.bind fun _ t _ => .pure _ t

theorem quietly {act : Act α} (h : Succeeds act s) : Succeeds (Op.quietly act) s :=
  h.bind fun _ t _ => .pure _ t

theorem reply {act : Act α} (h : Succeeds act s) : ∃ a, (act.run s).1 = .ok a := by
  obtain ⟨a, t, hrun⟩ := h
  exact ⟨a, by rw [hrun]⟩

end Succeeds

end Act

end Editing
