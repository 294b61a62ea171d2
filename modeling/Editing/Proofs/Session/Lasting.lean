import Editing.Proofs.Session.Moments

/-!
# Properties that last

A relation that holds across every move and across every change of a log alone, and that can be
followed from one session to the next, relates each moment of a run to every later one, those within
an undo and while a view is made current for other steps included. So what is not broken by moves
and by changes of logs holds throughout a run.
-/

namespace Editing

namespace Session

/-- A relation that leads from one session on to others, by moves and by changes of a log alone. -/
structure Onward (R : Session → Session → Prop) : Prop where
  refl : ∀ s, R s s
  trans : ∀ {s t u : Session}, R s t → R t u → R s u
  move : ∀ {s t : Session} {mark : Option ViewId}, s.editor.WellFormed → Move mark s t → R s t
  relog : ∀ (s : Session) (root : ViewId) (f : UndoLog → UndoLog),
    R s (s.onDocument root fun d => { d with log := f d.log })

section

variable {R : Session → Session → Prop} {s t : Session} {passed : List Session}

theorem Passes.pairwise (h : s.Passes R passed t)
    (htrans : ∀ {s t u : Session}, R s t → R t u → R s u) : (s :: passed).Pairwise R := by
  induction h with
  | nil s => exact List.pairwise_singleton R s
  | cons h _ ih =>
      refine List.pairwise_cons.mpr ⟨List.forall_mem_cons.mpr ⟨h, fun u hu => ?_⟩, ih⟩
      exact htrans h (List.rel_of_pairwise_cons ih hu)

theorem Passes.to_end (h : s.Passes R passed t) (hrefl : ∀ s, R s s)
    (htrans : ∀ {s t u : Session}, R s t → R t u → R s u) : ∀ r ∈ s :: passed, R r t := by
  induction h with
  | nil s => exact List.forall_mem_singleton.mpr (hrefl s)
  | cons h _ ih => exact List.forall_mem_cons.mpr ⟨htrans h (ih _ List.mem_cons_self), ih⟩

/-- What holds at the start and is passed on from each moment to the next holds in every reachable
session. -/
theorem Passing.reachable {P : Session → Prop} (hP : Passing fun s t => P s → P t)
    (hfresh : ∀ limits locks, P (fresh limits locks)) (h : s.Reachable) : P s := by
  induction h with
  | fresh limits locks => exact hfresh limits locks
  | @after s o hs ih =>
      have hpairs := (hP.moments hs.atRest o).pairwise fun h h' => h' ∘ h
      exact List.rel_of_pairwise_cons hpairs (after_mem_moments s o) ih

namespace Onward

variable (hR : Onward R)
include hR

theorem leads (hw : s.editor.WellFormed) (h : s.Leads t) : R s t := by
  obtain ⟨roots, -, hmoves⟩ := h
  induction hmoves with
  | refl s => exact hR.refl s
  | step hmoves hmove ih => exact hR.trans (ih hw) (hR.move (hmoves.wellFormed hw) hmove)

theorem passing : Passing R where
  refl := hR.refl
  leads hw h := hR.leads hw h
  begins s root := hR.relog s root UndoLog.beginReplay
  ends root _ := hR.relog _ root fun l => l.endReplay.boundary
  halts root cursor _ :=
    hR.trans (hR.relog _ root fun l => l.endReplay.boundary) (hR.relog _ root (·.rewind cursor))

/-- The session before an operation is in the relation to all that it passes through. -/
theorem op (h : s.AtRest) {o : Op} (ht : t ∈ s.moments o) : R s t :=
  List.rel_of_pairwise_cons ((hR.passing.moments h o).pairwise hR.trans) ht

/-- In a run, each moment is in the relation to all that come later. -/
theorem run (steps : List Step) (s : Session) (h : s.AtRest) :
    (s :: runMoments steps s).Pairwise R :=
  (hR.passing.run steps s h).pairwise hR.trans

theorem run_start (steps : List Step) (s : Session) (h : s.AtRest) :
    ∀ t ∈ s :: runMoments steps s, R s t :=
  List.forall_mem_cons.mpr
    ⟨hR.refl s, fun _ ht => List.rel_of_pairwise_cons (hR.run steps s h) ht⟩

theorem run_end (steps : List Step) (s : Session) (h : s.AtRest) :
    ∀ r ∈ s :: runMoments steps s, R r (takeAll steps s).2 :=
  (hR.passing.run steps s h).to_end hR.refl hR.trans

end Onward

end

/-- No move breaks the property, and no change of a log alone does. -/
structure Lasting (P : Session → Prop) : Prop where
  move : ∀ {s t : Session} {mark : Option ViewId}, s.editor.WellFormed → Move mark s t → P s → P t
  relog : ∀ {s : Session} (root : ViewId) (f : UndoLog → UndoLog), P s →
    P (s.onDocument root fun d => { d with log := f d.log })

namespace Lasting

variable {P : Session → Prop} {s : Session}

theorem onward (hP : Lasting P) : Onward fun s t => P s → P t where
  refl _ := id
  trans h h' := h' ∘ h
  move hw hmove := hP.move hw hmove
  relog _ root f := hP.relog root f

/-- What lasts and holds at the start of a run holds at each of its moments. -/
theorem moments (hP : Lasting P) (steps : List Step) (s : Session) (h : s.AtRest) (hs : P s) :
    ∀ t ∈ s :: runMoments steps s, P t :=
  fun t ht => hP.onward.run_start steps s h t ht hs

/-- What lasts and holds at the start of a run holds at each of its moments and at its end. -/
theorem run (hP : Lasting P) (steps : List Step) (s : Session) (h : s.AtRest) (hs : P s) :
    ∀ t ∈ (takeAll steps s).2 :: runMoments steps s, P t := by
  have hmoments := hP.moments steps s h hs
  exact List.forall_mem_cons.mpr
    ⟨hmoments _ (walk_all steps s h).end_mem, (List.forall_mem_cons.mp hmoments).2⟩

/-- What lasts and holds at the start holds in every reachable session. -/
theorem reachable (hP : Lasting P) (hfresh : ∀ limits locks, P (fresh limits locks))
    (h : s.Reachable) : P s :=
  hP.onward.passing.reachable hfresh h

end Lasting

/-! ## Views, documents and markers -/

/-- Views and their documents fit together, and markers lie where their owners are. -/
def Settled (s : Session) : Prop := s.editor.Registry ∧ s.editor.Marking

theorem Settled.relog {s : Session} (h : s.Settled) (root : ViewId) (f : UndoLog → UndoLog) :
    (s.onDocument root fun d => { d with log := f d.log }).Settled := by
  obtain ⟨hr, hm⟩ := h
  have hlater : ∀ r d, s.editor.documents.get? r = some d →
      ∃ c, (s.onDocument root fun d => { d with log := f d.log }).editor.documents.get? r = some c ∧
        c.markers = d.markers ∧ c.length = d.length := by
    intro r d hd
    rw [get?_onDocument, hd]
    split
    · exact ⟨_, rfl, rfl, rfl⟩
    · exact ⟨_, rfl, rfl, rfl⟩
  have hearlier : ∀ r c,
      (s.onDocument root fun d => { d with log := f d.log }).editor.documents.get? r = some c →
      ∃ d, s.editor.documents.get? r = some d ∧ c.markers = d.markers ∧ c.length = d.length := by
    intro r c hc
    rw [get?_onDocument] at hc
    split at hc
    · obtain ⟨d, hd, rfl⟩ := Option.map_eq_some_iff.mp hc
      exact ⟨d, hd, rfl, rfl⟩
    · exact ⟨c, hc, rfl, rfl⟩
  constructor
  · exact
      { hr with
        owned := by
          intro r v hv hb
          obtain ⟨d, hd⟩ := hr.owned r v hv hb
          obtain ⟨c, hc, -⟩ := hlater r d hd
          exact ⟨c, hc⟩
        owner := by
          intro r c hc
          obtain ⟨d, hd, -⟩ := hearlier r c hc
          exact hr.owner r d hd }
  · exact
      { hm with
        seated := by
          intro view v r c hs
          obtain ⟨d, hd, hmarkers, hlength⟩ := hearlier r c hs.document
          have hseats := hm.seated view v r d ⟨hs.live, hs.root_eq, hd⟩
          exact hseats.congr (by rw [hmarkers]) (by rw [hmarkers]) (by rw [hmarkers]) hlength
        homed := by
          intro marker u home hu hhome
          obtain ⟨v, d, hs, p, hp, hle⟩ := hm.homed marker u home hu hhome
          obtain ⟨c, hc, hmarkers, hlength⟩ := hlater home.root d hs.document
          have hkept : c.markers.get? marker = some ⟨p, u.advances, .user⟩ := by rw [hmarkers, hp]
          exact ⟨v, c, ⟨hs.live, hs.root_eq, hc⟩, p, hkept, by rw [hlength]; exact hle⟩
        known := by
          intro r c marker m hc hm' hkind
          obtain ⟨d, hd, hmarkers, -⟩ := hearlier r c hc
          exact hm.known r d marker m hd (by rw [← hmarkers, hm']) hkind }

theorem settled_lasting : Lasting Settled where
  move hw hmove _ := ⟨(hmove.wellFormed hw).registry, (hmove.wellFormed hw).marking⟩
  relog root f h := h.relog root f

theorem run_settled {limits : Limits} {locks : Option LockProtocol} {steps : List Step}
    {t : Session}
    (ht : t ∈ (takeAll steps (fresh limits locks)).2 :: runMoments steps (fresh limits locks)) :
    t.Settled := by
  have hrest := fresh_atRest limits locks
  exact settled_lasting.run steps _ hrest ⟨hrest.wellFormed.registry, hrest.wellFormed.marking⟩ t ht

end Session

end Editing
