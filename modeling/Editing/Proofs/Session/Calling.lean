import Editing.Proofs.Session.Undone

/-!
# Calls of an undo

The calls to the surroundings only ever grow in number. Those that ask for an old value of a
property come from the property records that an undo takes back, in the same order; the others are
requests for locks and announcements.
-/

namespace Editing

/-- Whether the call asks for the old value of a property. -/
def Call.isRestore : Call → Bool
  | restore .. => true
  | _ => false

/-- The call that takes back a record, if it is one of a property. -/
def Record.restoration (root : ViewId) : Record → Option Call
  | property start stop key value => some (.restore root start stop key value)
  | _ => none

namespace Session

variable {s t u : Session} {view root : ViewId} {v : View} {d : Document} {before after : List Call}

/-- The calls made between a session and a later one, oldest first. -/
def callsUntil (s t : Session) : List Call :=
  (t.trace.take (t.trace.length - s.trace.length)).reverse

/-- Calls are made between two sessions, and these are the ones that ask for old values. -/
def Restores (s t : Session) (restored : List Call) : Prop :=
  ∃ calls : List Call, t.trace = calls.reverse ++ s.trace ∧ calls.filter Call.isRestore = restored

theorem callsUntil_eq {calls : List Call} (h : t.trace = calls.reverse ++ s.trace) :
    s.callsUntil t = calls := by
  have hlen : t.trace.length - s.trace.length = calls.reverse.length := by
    rw [h, List.length_append, Nat.add_sub_cancel]
  rw [callsUntil, hlen, h, List.take_left, List.reverse_reverse]

namespace Restores

theorem callsUntil_filter (h : s.Restores t before) :
    (s.callsUntil t).filter Call.isRestore = before := by
  obtain ⟨calls, htrace, hfilter⟩ := h
  rw [callsUntil_eq htrace, hfilter]

theorem of_trace (h : t.trace = s.trace) : s.Restores t [] := ⟨[], h, rfl⟩

theorem trans (h : s.Restores t before) (h' : t.Restores u after) :
    s.Restores u (before ++ after) := by
  obtain ⟨calls, htrace, hfilter⟩ := h
  obtain ⟨later, hlater, hfilter'⟩ := h'
  refine ⟨calls ++ later, ?_, ?_⟩
  · rw [hlater, htrace, List.reverse_append, List.append_assoc]
  · rw [List.filter_append, hfilter, hfilter']

theorem silent (h : s.Restores t before) (h' : u.trace = t.trace) : s.Restores u before := by
  have hboth := h.trans (of_trace h')
  rwa [List.append_nil] at hboth

/-- The calls of two stretches are those of the one followed by those of the other. -/
theorem callsUntil_append (h : s.Restores t before) (h' : t.Restores u after) :
    s.callsUntil u = s.callsUntil t ++ t.callsUntil u := by
  obtain ⟨calls, htrace, -⟩ := h
  obtain ⟨later, hlater, -⟩ := h'
  rw [callsUntil_eq htrace, callsUntil_eq hlater]
  apply callsUntil_eq
  rw [hlater, htrace, List.reverse_append, List.append_assoc]

/-- No lock is refused in two stretches together exactly if none is refused in either of them. -/
theorem granted_iff (h : s.Restores t before) (h' : t.Restores u after) :
    (∀ path, .lockRefused root path ∉ s.callsUntil u) ↔
      (∀ path, .lockRefused root path ∉ s.callsUntil t) ∧
        ∀ path, .lockRefused root path ∉ t.callsUntil u := by
  rw [h.callsUntil_append h']
  constructor
  · intro hall
    exact ⟨fun path hmem => hall path (List.mem_append_left _ hmem),
      fun path hmem => hall path (List.mem_append_right _ hmem)⟩
  · rintro ⟨hfirst, hlater⟩ path hmem
    rcases List.mem_append.mp hmem with hmem | hmem
    · exact hfirst path hmem
    · exact hlater path hmem

/-- A call that comes later is one of those made. -/
theorem mem_callsUntil {c : Call} (h : s.Restores t before) (hu : u.trace = c :: t.trace) :
    c ∈ s.callsUntil u := by
  obtain ⟨calls, htrace, -⟩ := h
  have hcalls : s.callsUntil u = calls ++ [c] := by
    apply callsUntil_eq
    rw [hu, htrace, List.reverse_append]
    rfl
  rw [hcalls]
  exact List.mem_append_right _ (List.mem_singleton.mpr rfl)

end Restores

theorem restores_called {c : Call} (hc : c.isRestore = false) : s.Restores (s.called c) [] :=
  ⟨[c], rfl, by
    rw [List.filter_cons_of_neg (by rw [hc]; exact Bool.false_ne_true), List.filter_nil]⟩

theorem restores_prepared (s : Session) (root : ViewId) (d : Document) :
    s.Restores (s.prepared root d) [] := by
  rw [prepared]
  split
  · exact .of_trace rfl
  · rename_i path _
    refine Restores.silent (t := s.granted root path) ?_ rfl
    rw [granted]
    split
    · exact restores_called rfl
    · exact .of_trace rfl

theorem restores_announced (s : Session) (root : ViewId) (d : Document) :
    s.Restores (s.announced root d) [] := by
  rw [announced]
  split
  · exact restores_called rfl
  · exact .of_trace rfl

theorem restores_revised (s : Session) (root : ViewId) (d : Document) (c : Change) :
    s.Restores (s.revised root d c) [] := by
  rw [revised]
  split
  · exact .of_trace rfl
  · exact ((restores_prepared s root d).trans (restores_announced _ root d)).silent rfl

theorem restores_replayed (s : Session) (root : ViewId) (v : View) (d : Document) (r : Record) :
    s.Restores (s.replayed root v d r) (r.restoration root).toList := by
  cases r with
  | insert pos n => exact (restores_revised s root d _).silent rfl
  | delete pos text as => exact (restores_revised s root d _).silent rfl
  | property start stop key value => exact ⟨[.restore root start stop key value], rfl, rfl⟩
  | boundary => exact .of_trace rfl

/-- Taking records back asks for the old values of properties that they hold, in their order. -/
theorem restores_replayedAll (s : Session) (root : ViewId) (v : View) (d : Document)
    (rs : List Record) :
    s.Restores (s.replayedAll root v d rs) (rs.filterMap (Record.restoration root)) := by
  induction rs generalizing s d with
  | nil => exact .of_trace rfl
  | cons r rs ih =>
      have hboth := (restores_replayed s root v d r).trans
        (ih (s.replayed root v d r) (d.replayed v.markers.point r))
      cases hr : r.restoration root with
      | none =>
          rw [hr] at hboth
          rw [List.filterMap_cons_none hr]
          exact hboth
      | some c =>
          rw [hr] at hboth
          rw [List.filterMap_cons_some hr]
          exact hboth

theorem Blocks.restores {r : Record} {e : Error} (h : s.Blocks root v d r e t) :
    s.Restores t [] := by
  cases h with
  | hidden _ => exact .of_trace rfl
  | refused _ _ => exact restores_called rfl

theorem restores_begun (s : Session) (root : ViewId) (d : Document) :
    s.Restores (s.onDocument root fun _ => d.begun) [] := .of_trace rfl

/-- Whatever becomes of it, an undo only adds to the calls. -/
theorem AtRest.restores_undo (h : s.AtRest) (view : ViewId) :
    ∃ restored, s.Restores (s.after (.undo view)) restored := by
  rw [after_undo_eq]
  rcases h.wellFormed.registry.dead_or_shows view with hdead | ⟨v, root, d, hs⟩
  · rw [Act.run_undo_of_dead hdead]
    exact ⟨[], .of_trace rfl⟩
  · cases hd : d.log.isEnabled with
    | false =>
        rw [Act.run_undo_of_disabled h.wellFormed hs hd]
        exact ⟨[], .of_trace rfl⟩
    | true =>
        cases hgroup : d.log.boundary.nextGroup.1 with
        | error e =>
            rw [Act.run_undo_of_exhausted h.wellFormed hs hd hgroup]
            exact ⟨[], .of_trace rfl⟩
        | ok group =>
            have hbegun := restores_begun s root d
            rcases Act.undo_cases h.wellFormed hs hd hgroup with
              ⟨-, hrun⟩ | ⟨done, r, rest, e, t, -, -, hblocks, hrun⟩
            · rw [hrun]
              exact ⟨_, (hbegun.trans (restores_replayedAll _ root v d.begun group)).silent rfl⟩
            · rw [hrun]
              exact ⟨_, ((hbegun.trans (restores_replayedAll _ root v d.begun done)).trans
                hblocks.restores).silent rfl⟩

theorem after_closeGroup (hs : s.editor.Shows view v root d) :
    s.after (.closeGroup view) = s.onDocument root fun d => { d with log := d.log.boundary } := by
  rw [Session.after, Op.act, Act.run_quietly, Act.closeGroup, Act.run_changeLog hs]

theorem AtRest.after_closeGroup_cases (h : s.AtRest) (view : ViewId) :
    s.after (.closeGroup view) = s ∨ ∃ v root d, s.editor.Shows view v root d ∧
      s.after (.closeGroup view) = s.onDocument root fun d => { d with log := d.log.boundary } := by
  rcases h.wellFormed.registry.dead_or_shows view with hdead | ⟨v, root, d, hs⟩
  · apply Or.inl
    rw [Session.after, Op.act, Act.run_quietly, Act.closeGroup, Act.changeLog, Act.changeShown,
      Act.run_ask_bind_error (Editor.document_of_dead hdead)]
  · exact Or.inr ⟨v, root, d, hs, after_closeGroup hs⟩

theorem AtRest.restores_closeGroup (h : s.AtRest) (view : ViewId) :
    s.Restores (s.after (.closeGroup view)) [] := by
  rcases h.after_closeGroup_cases view with heq | ⟨v, root, d, -, heq⟩
  · exact .of_trace (by rw [heq])
  · exact .of_trace (by rw [heq]; rfl)

end Session

end Editing
