import Editing.Script.Playback
import Editing.Proofs.Session.Answering
import Editing.Proofs.Session.Failing
import Editing.Proofs.Script.Setting

/-!
# Running parts of a script

A part of a script is run like an act, and what it does to the session it does by acts. A part that
spares the playback leaves all as it was when it fails: the session, the names of overlays, and what
has been written.
-/

namespace Editing

namespace Play

variable {α β : Type} {p q : Playback}

theorem run_bind (play : Play α) (next : α → Play β) (p : Playback) :
    (play >>= next).run p =
      match play.run p with
      | (.ok a, q) => (next a).run q
      | (.error f, q) => (.error f, q) := by
  change ExceptT.bindCont next (play p).1 (play p).2 = _
  rcases h : play p with ⟨r, q⟩
  rw [show play.run p = (r, q) from h]
  cases r <;> rfl

theorem run_bind_ok {play : Play α} {next : α → Play β} {a : α} (h : play.run p = (.ok a, q)) :
    (play >>= next).run p = (next a).run q := by
  rw [run_bind, h]

theorem run_bind_error {play : Play α} {next : α → Play β} {f : Failure}
    (h : play.run p = (.error f, q)) : (play >>= next).run p = (.error f, q) := by
  rw [run_bind, h]

/-- Parts that have been played have each been played. -/
theorem exists_of_bind {play : Play α} {next : α → Play β} {b : β}
    (h : (play >>= next).run p = (.ok b, q)) :
    ∃ a r, play.run p = (.ok a, r) ∧ (next a).run r = (.ok b, q) := by
  rw [run_bind] at h
  rcases hplay : play.run p with ⟨f | a, r⟩
  · rw [hplay] at h
    cases h
  · rw [hplay] at h
    exact ⟨a, r, rfl, h⟩

@[simp] theorem run_get (p : Playback) : (get : Play Playback).run p = (.ok p, p) := rfl

theorem run_perform (act : Act α) (p : Playback) :
    (perform act).run p =
      ((act.run p.session).1.mapError fun e => .because e.message,
        { p with session := (act.run p.session).2 }) := by
  rw [perform, run_bind_ok (run_get p)]
  rcases act.run p.session with ⟨_ | _, s⟩ <;> rfl

theorem run_perform_ask (question : Editor → Except Error α) (p : Playback) :
    (perform (Act.ask question)).run p =
      ((question p.session.editor).mapError fun e => .because e.message, p) := by
  rw [run_perform, Act.run_ask]

theorem run_ask_bind {question : Editor → Except Error α} {a : α}
    (h : question p.session.editor = .ok a) (next : α → Play β) :
    (perform (Act.ask question) >>= next).run p = (next a).run p :=
  run_bind_ok (by rw [run_perform_ask, h]; rfl)

theorem exists_of_perform {act : Act α} {a : α} (h : (perform act).run p = (.ok a, q)) :
    ∃ t, act.run p.session = (.ok a, t) ∧ q = { p with session := t } := by
  rw [run_perform] at h
  rcases hrun : act.run p.session with ⟨e | b, t⟩
  · rw [hrun] at h
    cases h
  · rw [hrun] at h
    cases h
    exact ⟨t, rfl, rfl⟩

/-- The failure of a part is seen from its context. -/
theorem run_within (context : String) (play : Play α) (p : Playback) :
    (within context play).run p =
      ((play.run p).1.mapError (·.within context), (play.run p).2) := by
  change (ExceptT.tryCatch play fun f => throw (f.within context)).run p = _
  simp only [ExceptT.tryCatch, ExceptT.run, ExceptT.mk]
  change StateT.bind play _ p = _
  rw [StateT.bind]
  rcases play p with ⟨_ | _, q⟩
  · rfl
  · rfl

theorem exists_of_within {context : String} {play : Play α} {a : α}
    (h : (within context play).run p = (.ok a, q)) : play.run p = (.ok a, q) := by
  rw [run_within] at h
  rcases hrun : play.run p with ⟨f | b, r⟩
  · rw [hrun] at h
    cases h
  · rw [hrun] at h
    cases h
    rfl

/-! ## Lookups -/

/-- The part gives what is found, or fails when nothing is, and changes nothing. -/
def Finds (play : Play α) (p : Playback) : Option α → Prop
  | some a => play.run p = (.ok a, p)
  | none => ∃ f, play.run p = (.error f, p)

theorem finds_current (p : Playback) : Finds current p p.session.editor.current := by
  rw [Finds.eq_def, current, run_bind_ok (run_get p)]
  cases p.session.editor.current with
  | none => exact ⟨_, rfl⟩
  | some view => rfl

theorem finds_viewNamed (name : String) (p : Playback) :
    Finds (viewNamed name) p (p.session.editor.viewNamed name) := by
  rw [Finds.eq_def, viewNamed, run_bind_ok (run_get p)]
  cases p.session.editor.viewNamed name with
  | none => exact ⟨_, rfl⟩
  | some view => rfl

theorem finds_overlayNamed (name : String) (p : Playback) :
    Finds (overlayNamed name) p (p.overlays.lookup name) := by
  rw [Finds.eq_def, overlayNamed, run_bind_ok (run_get p)]
  cases p.overlays.lookup name with
  | none => exact ⟨_, rfl⟩
  | some overlay => rfl

theorem exists_of_current (h : current.run p = (.ok view, q)) :
    p.session.editor.current = some view ∧ q = p := by
  have hfinds := finds_current p
  rw [Finds.eq_def] at hfinds
  split at hfinds
  · rename_i a hcurrent
    rw [hfinds] at h
    cases h
    exact ⟨hcurrent, rfl⟩
  · obtain ⟨f, hf⟩ := hfinds
    rw [hf] at h
    cases h

theorem exists_of_onCurrent {act : ViewId → Act α}
    (h : (onCurrent act).run p = (.ok (), q)) :
    ∃ view a t, p.session.editor.current = some view ∧ (act view).run p.session = (.ok a, t) ∧
      q = { p with session := t } := by
  obtain ⟨view, r, hcurrent, hnext⟩ := exists_of_bind h
  obtain ⟨hview, rfl⟩ := exists_of_current hcurrent
  obtain ⟨a, u, hact, hlast⟩ := exists_of_bind hnext
  obtain ⟨t, hrun, rfl⟩ := exists_of_perform hact
  cases hlast
  exact ⟨view, a, t, hview, hrun, rfl⟩

theorem run_onCurrent {act : ViewId → Act α} {view : ViewId} {a : α} {t : Session}
    (hview : p.session.editor.current = some view) (h : (act view).run p.session = (.ok a, t)) :
    (onCurrent act).run p = (.ok (), { p with session := t }) := by
  have hcurrent := finds_current p
  rw [hview, Finds.eq_def] at hcurrent
  have hact : (perform (act view)).run p = (.ok a, { p with session := t }) := by
    rw [run_perform, h]
    rfl
  rw [onCurrent, run_bind_ok hcurrent, run_bind_ok hact]
  rfl

/-! ## Parts that do not fail -/

/-- The part does not fail in the playback. -/
def Completes (play : Play α) (p : Playback) : Prop :=
  ∃ a q, play.run p = (.ok a, q)

namespace Completes

theorem pure (a : α) (p : Playback) : Completes (pure a : Play α) p := ⟨a, p, rfl⟩

theorem modify (f : Playback → Playback) (p : Playback) : Completes (modify f : Play Unit) p :=
  ⟨(), f p, rfl⟩

theorem bind {play : Play α} {next : α → Play β} (h : Completes play p)
    (h' : ∀ a q, play.run p = (.ok a, q) → Completes (next a) q) :
    Completes (play >>= next) p := by
  obtain ⟨a, q, hrun⟩ := h
  obtain ⟨b, r, hnext⟩ := h' a q hrun
  exact ⟨b, r, by rw [run_bind_ok hrun, hnext]⟩

theorem get_bind {next : Playback → Play β} (h : Completes (next p) p) :
    Completes (get >>= next) p := by
  obtain ⟨b, q, hnext⟩ := h
  exact ⟨b, q, by rw [run_bind_ok (run_get p), hnext]⟩

theorem perform {act : Act α} (h : Act.Succeeds act p.session) : Completes (perform act) p := by
  obtain ⟨a, t, hrun⟩ := h
  exact ⟨a, { p with session := t }, by rw [run_perform, hrun]; rfl⟩

/-- A question changes nothing, so what follows it is played where it was asked. -/
theorem ask_bind {question : Editor → Except Error α} {next : α → Play β} {a : α}
    (h : question p.session.editor = .ok a) (h' : Completes (next a) p) :
    Completes (Play.perform (Act.ask question) >>= next) p := by
  obtain ⟨b, q, hnext⟩ := h'
  exact ⟨b, q, by rw [run_ask_bind h, hnext]⟩

end Completes

/-! ## Parts that spare the playback -/

/-- When the part fails in the playback, it leaves all as it was. -/
def Spares (play : Play α) (p : Playback) : Prop :=
  ∀ f q, play.run p = (.error f, q) → q = p

theorem Completes.spares {play : Play α} (h : Completes play p) : Spares play p := by
  obtain ⟨a, q, hrun⟩ := h
  intro f r hf
  rw [hrun] at hf
  cases hf

namespace Spares

theorem pure (a : α) (p : Playback) : Spares (pure a : Play α) p := (Completes.pure a p).spares

theorem throw (f : Failure) (p : Playback) : Spares (throw f : Play α) p := by
  intro g q h
  cases h
  rfl

/-- What follows the first part does not fail any more. -/
theorem bind {play : Play α} {next : α → Play β} (h : Spares play p)
    (h' : ∀ a q, play.run p = (.ok a, q) → Completes (next a) q) : Spares (play >>= next) p := by
  intro f r hf
  rcases hrun : play.run p with ⟨g | a, q⟩
  · rw [run_bind_error hrun] at hf
    cases hf
    exact h f _ hrun
  · exact (Completes.bind ⟨a, q, hrun⟩ h').spares f r hf

/-- The first part changes nothing, so what follows it may fail as well. -/
theorem of_still {play : Play α} {next : α → Play β} (hstill : (play.run p).2 = p)
    (h : ∀ a, (play.run p).1 = .ok a → Spares (next a) p) : Spares (play >>= next) p := by
  intro f q hf
  rw [run_bind] at hf
  rcases hrun : play.run p with ⟨g | a, r⟩
  · rw [hrun] at hf hstill
    cases hf
    exact hstill
  · rw [hrun] at hf hstill h
    subst hstill
    exact h a rfl f q hf

theorem get_bind {next : Playback → Play β} (h : Spares (next p) p) : Spares (get >>= next) p :=
  of_still rfl fun a ha => by
    cases ha
    exact h

theorem ask_bind {question : Editor → Except Error α} {next : α → Play β}
    (h : ∀ a, question p.session.editor = .ok a → Spares (next a) p) :
    Spares (Play.perform (Act.ask question) >>= next) p := by
  refine of_still (by rw [run_perform_ask]) fun a ha => ?_
  rw [run_perform_ask] at ha
  cases hq : question p.session.editor with
  | error e =>
      rw [hq] at ha
      cases ha
  | ok b =>
      rw [hq] at ha
      cases ha
      exact h a hq

theorem perform {act : Act α} (h : ∀ e t, act.run p.session = (.error e, t) → t = p.session) :
    Spares (perform act) p := by
  intro f q hf
  rw [run_perform] at hf
  rcases hrun : act.run p.session with ⟨e | a, t⟩
  · rw [hrun] at hf
    cases hf
    rw [h e t hrun]
  · rw [hrun] at hf
    cases hf

/-- Without a protocol no lock is refused, so an act that fails before it changes anything leaves
nothing behind. -/
theorem perform_atomic {act : Act α} (hlocks : p.session.locks = none)
    (h : Act.Atomic act p.session) : Spares (Play.perform act) p := by
  refine perform fun e t hrun => ?_
  cases h e t hrun with
  | same => rfl
  | refused hr =>
      rw [Session.refusal?, hlocks] at hr
      cases hr

theorem within {play : Play α} (context : String) (h : Spares play p) :
    Spares (within context play) p := by
  intro f q hf
  rw [run_within] at hf
  rcases hrun : play.run p with ⟨g | a, r⟩
  · rw [hrun] at hf
    cases hf
    exact h g r hrun
  · rw [hrun] at hf
    cases hf

/-- A lookup changes nothing, so what follows it may fail as well. -/
theorem find_bind {play : Play α} {next : α → Play β} {found : Option α}
    (hfinds : Finds play p found) (h : ∀ a, found = some a → Spares (next a) p) :
    Spares (play >>= next) p := by
  cases hfound : found with
  | none =>
      rw [hfound] at hfinds
      obtain ⟨f, hrun⟩ := hfinds
      exact of_still (by rw [hrun]) fun a ha => by
        rw [hrun] at ha
        cases ha
  | some a =>
      rw [hfound] at hfinds
      refine of_still (by rw [hfinds]) fun b hb => ?_
      rw [hfinds] at hb
      cases hb
      exact h a hfound

end Spares

/-! ## Lines -/

/-- A line that has succeeded was passed over, or its command was executed and the newest group of
the view that was current then was closed. -/
theorem exists_of_playLine {number : Nat} {line : Text}
    (h : (playLine number line).run p = (.ok (), q)) :
    (Command.parse line = .ok none ∧ q = p) ∨
      ∃ c r, Command.parse line = .ok (some c) ∧ (execute c).run p = (.ok (), r) ∧
        closeGroup.run r = (.ok (), q) := by
  unfold playLine at h
  split at h
  · cases h
  · rename_i hparse
    cases h
    exact Or.inl ⟨hparse, rfl⟩
  · rename_i c hparse
    obtain ⟨a, r, hexecuted, hclosed⟩ := exists_of_bind h
    exact Or.inr ⟨c, r, hparse, exists_of_within hexecuted, hclosed⟩

theorem run_playLine {number : Nat} {line : Text} {c : Command} {r : Playback}
    (hparse : Command.parse line = .ok (some c)) (h : (execute c).run p = (.ok (), r)) :
    (playLine number line).run p = closeGroup.run r := by
  unfold playLine
  rw [hparse]
  exact run_bind_ok (by rw [run_within, h]; rfl)

/-- Lines are played one part after the other. -/
theorem run_playLines_append (number : Nat) (before later : List Text) (p : Playback) :
    (playLines number (before ++ later)).run p =
      match (playLines number before).run p with
      | (.ok _, q) => (playLines (number + before.length) later).run q
      | (.error f, q) => (.error f, q) := by
  induction before generalizing number p with
  | nil => rfl
  | cons line before ih =>
      rw [List.cons_append, playLines, playLines, run_bind, run_bind]
      rcases (playLine number line).run p with ⟨f | a, q⟩
      · rfl
      · simp only
        rw [ih, List.length_cons, Nat.succ_add_eq_add_succ]

theorem exists_of_playLines_append {number : Nat} {before later : List Text}
    (h : (playLines number (before ++ later)).run p = (.ok (), q)) :
    ∃ r, (playLines number before).run p = (.ok (), r) ∧
      (playLines (number + before.length) later).run r = (.ok (), q) := by
  rw [run_playLines_append] at h
  rcases hbefore : (playLines number before).run p with ⟨f | a, r⟩
  · rw [hbefore] at h
    cases h
  · rw [hbefore] at h
    exact ⟨r, rfl, h⟩

theorem run_playLines_singleton (number : Nat) (line : Text) (p : Playback) :
    (playLines number [line]).run p = (playLine number line).run p := by
  rw [playLines, run_bind]
  rcases (playLine number line).run p with ⟨f | a, q⟩
  · rfl
  · rfl

end Play

end Editing
