import Mathlib.Data.List.Sort
import Editing.Proofs.Session.Naming
import Editing.Proofs.Session.Numbering

/-!
# The roster of views

Views are numbered in the order in which they are made, no number is given to two of them, and a
killed view stays dead. Whatever has been done, with views made current or killed on the way: the
live views have names of their own, each is a root or indirect to a live root, one of them is
current if there are any, and the lists of them are in order.
-/

namespace Editing

namespace Op

/-- The number of the view that an operation made, if it made one. -/
def viewMade : Op × Except Error Reply → Option ViewId
  | (createRoot _, .ok (.number id)) | (createIndirect .., .ok (.number id)) => some id
  | _ => none

/-- The name that an operation asks for a new view. -/
def nameWanted : Op → Option String
  | createRoot name | createIndirect _ name => some name
  | _ => none

/-- The view that an operation asks about, unless it also needs something else. -/
def viewAsked : Op → Option ViewId
  | baseOf view | nameOf view | isNarrowed view | atStart view | atEnd view | atLineStart view
  | atLineEnd view | point view | pointMin view | pointMax view | size view | text view
  | fullText view | charAfter view _ | isReadOnly view | isModified view | modifiedTick view
  | charsModifiedTick view | visitedFile view | hasMarkerAt view _ | overlaysIn view _ _
  | overlaysAt view _ | overlayList view | charProperty view _ _
  | undoEnabled view | undoRecords view | undoSize view => some view
  | _ => none

end Op

/-! ## Asking about views -/

/-- What is answered if a view is live, and refused if it is dead. -/
structure Editor.Asks {α : Type} (e : Editor) (view : ViewId) (answer : Except Error α) : Prop where
  live : e.isLive view = true → ∃ a, answer = .ok a
  dead : e.isLive view = false → answer = .error (.noLiveView view)

namespace Editor.Asks

variable {α β : Type} {e : Editor} {view : ViewId} {answer : Except Error α}

theorem of_shows {v : View} {root : ViewId} {d : Document} (hs : e.Shows view v root d) {a : α}
    (h : answer = .ok a) : e.Asks view answer where
  live _ := ⟨a, h⟩
  dead hdead := by
    rw [Act.isLive_eq_false, hs.live] at hdead
    cases hdead

theorem of_dead (hdead : e.views.get? view = none) (h : answer = .error (.noLiveView view)) :
    e.Asks view answer where
  live hlive := by
    obtain ⟨v, hv⟩ := Act.isLive_iff.mp hlive
    rw [hdead] at hv
    cases hv
  dead _ := h

theorem bind (h : e.Asks view answer) {f : α → Except Error β}
    (h' : ∀ a, e.Asks view (f a)) : e.Asks view (answer >>= f) where
  live hlive := by
    obtain ⟨a, rfl⟩ := h.live hlive
    exact (h' a).live hlive
  dead hdead := by
    rw [h.dead hdead]
    rfl

theorem map (h : e.Asks view answer) {f : α → β} :
    e.Asks view (answer >>= fun a => pure (f a)) where
  live hlive := by
    obtain ⟨a, rfl⟩ := h.live hlive
    exact ⟨f a, rfl⟩
  dead hdead := by
    rw [h.dead hdead]
    rfl

/-- An operation that only asks replies when its question is answered. -/
theorem reply {s : Session} {question : Editor → Except Error α}
    (h : s.editor.Asks view (question s.editor)) (f : α → β) :
    s.editor.Asks view ((f <$> Act.ask question).run s).1 := by
  rw [Act.run_map, Act.run_ask]
  exact h.map

end Editor.Asks

/-- What an operation asks about a view is answered just when the view is live. -/
theorem Op.asks {s : Session} (hr : s.editor.Registry) {o : Op} {view : ViewId}
    (ho : o.viewAsked = some view) : s.editor.Asks view (o.act.run s).1 := by
  obtain ⟨hview, hdocument, hextent⟩ : s.editor.Asks view (s.editor.view view) ∧
      s.editor.Asks view (s.editor.document view) ∧ s.editor.Asks view (s.editor.extent view) := by
    rcases hr.dead_or_shows view with hdead | ⟨v, root, d, hs⟩
    · exact ⟨.of_dead hdead (Editor.view_of_dead hdead),
        .of_dead hdead (Editor.document_of_dead hdead),
        .of_dead hdead (Editor.extent_of_dead hdead)⟩
    · exact ⟨.of_shows hs hs.view_eq, .of_shows hs hs.document_eq, .of_shows hs hs.extent_eq⟩
  cases o with
  | baseOf _ => cases ho; exact .reply (.map hview) _
  | nameOf _ =>
      cases ho
      rw [Op.act, Act.run_bind, Act.run_ask]
      have hname : s.editor.Asks view (s.editor.nameOf view) := .map hview
      refine ⟨fun hlive => ?_, fun hdead => ?_⟩
      · obtain ⟨name, hname⟩ := hname.live hlive
        exact ⟨_, by rw [hname]; rfl⟩
      · rw [hname.dead hdead]
  | isReadOnly _ => cases ho; exact .reply (.map hview) _
  | point _ => cases ho; exact .reply (.map hextent) _
  | pointMin _ => cases ho; exact .reply (.map hextent) _
  | pointMax _ => cases ho; exact .reply (.map hextent) _
  | atStart _ => cases ho; exact .reply (.map hextent) _
  | atEnd _ => cases ho; exact .reply (.map hextent) _
  | isNarrowed _ => cases ho; exact .reply (.bind hextent fun _ => .map (.map hdocument)) _
  | atLineStart _ => cases ho; exact .reply (.bind hextent fun _ => .map hdocument) _
  | atLineEnd _ => cases ho; exact .reply (.bind hextent fun _ => .map hdocument) _
  | text _ => cases ho; exact .reply (.bind hextent fun _ => .map hdocument) _
  | charAfter _ _ => cases ho; exact .reply (.bind hextent fun _ => .map hdocument) _
  | hasMarkerAt _ _ => cases ho; exact .reply (.bind hextent fun _ => .map hdocument) _
  | overlaysIn _ _ _ => cases ho; exact .reply (.bind (.map hextent) fun _ => .map hdocument) _
  | size _ => cases ho; exact .reply (.map hdocument) _
  | fullText _ => cases ho; exact .reply (.map hdocument) _
  | isModified _ => cases ho; exact .reply (.map hdocument) _
  | modifiedTick _ => cases ho; exact .reply (.map hdocument) _
  | charsModifiedTick _ => cases ho; exact .reply (.map hdocument) _
  | visitedFile _ => cases ho; exact .reply (.map hdocument) _
  | overlaysAt _ _ => cases ho; exact .reply (.map hdocument) _
  | overlayList _ => cases ho; exact .reply (.map hdocument) _
  | charProperty _ _ _ => cases ho; exact .reply (.map hdocument) _
  | undoEnabled _ => cases ho; exact .reply (.map hdocument) _
  | undoRecords _ => cases ho; exact .reply (.map hdocument) _
  | undoSize _ => cases ho; exact .reply (.map hdocument) _
  | _ => cases ho

/-! ## Making views -/

namespace Act

/-- Only making a view takes a number for views. -/
theorem respects_nextView (o : Op) (ho : o.nameWanted = none) :
    Respects (Editor.Within (Editor.Same Editor.nextView)) o.act := by
  refine o.respects ⟨fun heffect => ?_, fun heffect => ?_⟩
  all_goals
    cases o with
    | createRoot _ | createIndirect _ _ => cases ho
    | _ => cases heffect

end Act

namespace Session

theorem counts_views : Counts Editor.nextView Op.viewMade where
  current _ _ := rfl
  op s o := by
    cases hname : o.nameWanted with
    | none =>
        refine Or.inl ⟨?_, Act.respects_nextView o hname s⟩
        cases o with
        | createRoot name => cases hname
        | createIndirect base name => cases hname
        | _ => rfl
    | some name =>
        cases o with
        | createRoot name => exact Or.inr ⟨rfl, rfl⟩
        | createIndirect base name =>
            rw [answered, after, Op.act, Act.run_map]
            rcases Act.createIndirect_cases base name s with ⟨e, hrun⟩ | ⟨v, hrun⟩
            · rw [hrun]
              exact Or.inl ⟨rfl, rfl⟩
            · rw [hrun]
              exact Or.inr ⟨rfl, rfl⟩
        | _ => cases hname

end Session

/-! ## The roster -/

/-- The live views among those made in a run, with their names, the roots that they show, and the
view that is current. -/
structure Editor.Roster (e : Editor) (made : List ViewId) : Prop where
  ascending : e.viewList.Pairwise (· < ·)
  viewList_eq : e.viewList = made.filter e.isLive
  rootList_eq : e.rootList = e.viewList.filter fun view => e.baseOf view = .ok none
  named : ∀ view view' name, e.nameOf view = .ok name → e.nameOf view' = .ok name → view = view'
  /-- What a view is indirect to is a live root, and the view shows its text. -/
  based : ∀ view root, e.baseOf view = .ok (some root) →
    e.baseOf root = .ok none ∧ (∃ d, e.documents.get? root = some d) ∧
      e.document view = e.document root
  current_none : e.current = none ↔ e.viewList = []
  current_live : ∀ view, e.current = some view → view ∈ e.viewList

namespace Editor

variable {e : Editor} {view : ViewId} {v : View}

theorem mem_viewList : view ∈ e.viewList ↔ e.isLive view = true := by
  rw [viewList, Table.mem_keys, Act.isLive_iff]

theorem nameOf_of_get (h : e.views.get? view = some v) : e.nameOf view = .ok v.name := by
  rw [nameOf, view_of_get h]
  rfl

theorem nameOf_addView {e' : Editor} {name : String} {base : Option ViewId}
    (h : e'.views = (e.addView name base).views) :
    e'.nameOf e.nextView = .ok (e.freeName name) := by
  have hnew : e'.views.get? e.nextView = some ⟨e.freeName name, base, e.nextMarkers, false⟩ := by
    rw [h]
    exact Table.get?_insert_self _ _ _
  exact nameOf_of_get hnew

theorem baseOf_of_get (h : e.views.get? view = some v) : e.baseOf view = .ok v.base := by
  rw [baseOf, view_of_get h]
  rfl

theorem live_of_nameOf {name : String} (h : e.nameOf view = .ok name) :
    ∃ v, e.views.get? view = some v ∧ v.name = name := by
  cases hv : e.views.get? view with
  | none =>
      rw [nameOf, view_of_dead hv] at h
      cases h
  | some v =>
      rw [nameOf_of_get hv] at h
      exact ⟨v, rfl, Except.ok.inj h⟩

theorem live_of_baseOf {base : Option ViewId} (h : e.baseOf view = .ok base) :
    ∃ v, e.views.get? view = some v ∧ v.base = base := by
  cases hv : e.views.get? view with
  | none =>
      rw [baseOf, view_of_dead hv] at h
      cases h
  | some v =>
      rw [baseOf_of_get hv] at h
      exact ⟨v, rfl, Except.ok.inj h⟩

/-- The roots are the views in the list that have no base. -/
theorem rootList_eq_filter (e : Editor) :
    e.rootList = e.viewList.filter fun view => e.baseOf view = .ok none := by
  rw [rootList, viewList, Table.keys, List.filter_map]
  congr 1
  apply List.filter_congr
  rintro ⟨view, v⟩ hmem
  have hbase := baseOf_of_get (Table.mem_entries.mp hmem)
  simp only [Function.comp_apply, hbase]
  cases v.base <;> rfl

theorem viewList_eq_filter (h : e.Registry) {n : Nat} (hn : e.nextView ≤ n) :
    e.viewList = (List.range n).filter e.isLive := by
  refine e.views.keys_ascending.eq_of_mem_iff (List.pairwise_lt_range.filter _) fun view => ?_
  rw [List.mem_filter, List.mem_range, ← mem_viewList, viewList, Table.mem_keys]
  constructor
  · rintro ⟨v, hv⟩
    exact ⟨Nat.lt_of_lt_of_le (h.numbered view v hv) hn, v, hv⟩
  · exact And.right

theorem roster (h : e.Registry) (hn : e.Named) {n : Nat} (hnext : e.nextView ≤ n) :
    e.Roster (List.range n) where
  ascending := e.views.keys_ascending
  viewList_eq := viewList_eq_filter h hnext
  rootList_eq := e.rootList_eq_filter
  named view view' name hname hname' := by
    obtain ⟨v, hv, heq⟩ := live_of_nameOf hname
    obtain ⟨v', hv', heq'⟩ := live_of_nameOf hname'
    exact hn view v view' v' hv hv' (heq.trans heq'.symm)
  based view root hbase := by
    obtain ⟨v, hv, hb⟩ := live_of_baseOf hbase
    obtain ⟨w, hw, hwb⟩ := h.based view v root hv hb
    obtain ⟨d, hd⟩ := h.owned root w hw hwb
    have hs : e.Shows view v root d := ⟨hv, by rw [hb, Option.getD_some], hd⟩
    have hs' : e.Shows root w root d := ⟨hw, by rw [hwb, Option.getD_none], hd⟩
    exact ⟨by rw [baseOf_of_get hw, hwb], ⟨d, hd⟩, hs.document_eq.trans hs'.document_eq.symm⟩
  current_none := by
    rw [List.eq_nil_iff_forall_not_mem]
    constructor
    · intro hnone view hmem
      obtain ⟨v, hv⟩ := Act.isLive_iff.mp (mem_viewList.mp hmem)
      rw [h.current_none hnone view] at hv
      cases hv
    · intro hempty
      cases hc : e.current with
      | none => rfl
      | some view =>
          have hlive := mem_viewList.mpr (Act.isLive_iff.mpr (h.current_live view hc))
          exact absurd hlive (hempty view)
  current_live view hc := mem_viewList.mpr (Act.isLive_iff.mpr (h.current_live view hc))

end Editor

namespace Session

/-- A number that was given to a view which is dead by now stays without a view. -/
theorem onward_dead : Onward fun s t => s.editor.nextView ≤ t.editor.nextView ∧
    ∀ view < s.editor.nextView, s.editor.isLive view = false → t.editor.isLive view = false where
  refl s := ⟨Nat.le_refl _, fun _ _ h => h⟩
  trans h h' := ⟨Nat.le_trans h.1 h'.1, fun view hview hdead =>
    h'.2 view (Nat.lt_of_lt_of_le hview h.1) (h.2 view hview hdead)⟩
  move _ hmove := by
    refine ⟨hmove.peoples.numbered, fun view hview hdead => ?_⟩
    rw [Act.isLive_eq_false] at hdead ⊢
    rw [Option.eq_none_iff_forall_ne_some]
    intro v hv
    rcases hmove.peoples.descent view v hv with ⟨w, hw, -⟩ | ⟨hnew, -⟩
    · rw [hdead] at hw
      cases hw
    · exact absurd hnew (Nat.ne_of_lt hview)
  relog s root f := ⟨Nat.le_refl _, fun _ _ h => h⟩

/-- A new view gets the name found free for it. -/
theorem nameOf_made {s : Session} {o : Op} {name : String} {view : ViewId}
    (ho : o.nameWanted = some name) (h : (o.act.run s).1 = .ok (.number view)) :
    (s.after o).editor.nameOf view = .ok (s.editor.freeName name) := by
  cases o with
  | createRoot _ =>
      cases ho
      cases h
      exact Editor.nameOf_addView rfl
  | createIndirect base _ =>
      cases ho
      rw [after, Op.act, Act.run_map]
      rw [Op.act, Act.run_map] at h
      rcases Act.createIndirect_cases base name s with ⟨e, hrun⟩ | ⟨v, hrun⟩
      · rw [hrun] at h
        cases h
      · rw [hrun] at h ⊢
        cases h
        exact Editor.nameOf_addView rfl
  | _ => cases ho

/-- At every moment of a run, within changes of the current view too: the live views are on the
roster of those made, what is asked about a view is answered exactly if it is live, and a name asked
for finds its first free form, which the next view made with it gets. No number is given to two
views, and a view that was live and is dead stays dead. -/
theorem views_registered (limits : Limits) (locks : Option LockProtocol) (steps : List Step) :
    let start := fresh limits locks
    let run := takeAll steps start
    let moments := start :: runMoments steps start
    let made := (allPerformed steps run.1).filterMap Op.viewMade
    run.2 ∈ moments ∧
    (∀ t ∈ moments,
      t.editor.Roster made ∧
      (∀ o view, Op.viewAsked o = some view →
        (t.editor.isLive view = true → ∃ reply, (o.act.run t).1 = .ok reply) ∧
        (t.editor.isLive view = false → (o.act.run t).1 = .error (.noLiveView view))) ∧
      ∀ name, ∃ n, t.editor.viewNamed (Editor.candidate name n) = none ∧
        (∀ m < n, t.editor.viewNamed (Editor.candidate name m) ≠ none) ∧
        (∃ view, ((Op.createRoot name).act.run t).1 = .ok (.number view)) ∧
        ∀ o view, Op.nameWanted o = some name → (o.act.run t).1 = .ok (.number view) →
          (t.after o).editor.nameOf view = .ok (Editor.candidate name n)) ∧
    made.Nodup ∧
    ∀ earlier r later view, moments = earlier ++ r :: later →
      (∃ q ∈ earlier, q.editor.isLive view = true) → r.editor.isLive view = false →
      ∀ t ∈ later, t.editor.isLive view = false := by
  intro start run moments made
  have hrest := fresh_atRest limits locks
  have hmade : made = List.range run.2.editor.nextView :=
    counts_views.made_eq limits locks steps rfl
  have hregistry : ∀ t ∈ moments, t.editor.Registry := fun t ht =>
    (settled_lasting.moments steps start hrest
      ⟨hrest.wellFormed.registry, hrest.wellFormed.marking⟩ t ht).1
  refine ⟨(walk_all steps start hrest).end_mem,
    fun t ht => ⟨?_, fun o view ho => ?_, fun name => ?_⟩, ?_, ?_⟩
  · have hnamed := named_lasting.moments steps start hrest (fresh_named limits locks) t ht
    rw [hmade]
    exact Editor.roster (hregistry t ht) hnamed (onward_dead.run_end steps start hrest t ht).1
  · have hasks := Op.asks (hregistry t ht) ho
    exact ⟨hasks.live, hasks.dead⟩
  · obtain ⟨n, hname, hfree, hearlier⟩ := t.editor.freeName_eq name
    refine ⟨n, hfree, hearlier, ⟨_, rfl⟩, fun o view ho hview => ?_⟩
    rw [← hname]
    exact nameOf_made ho hview
  · rw [hmade]
    exact List.nodup_range
  · rintro earlier r later view hsplit ⟨q, hq, hlive⟩ hdead t ht
    have hpairs := onward_dead.run steps start hrest
    rw [show start :: runMoments steps start = earlier ++ r :: later from hsplit] at hpairs
    obtain ⟨-, hlater, hcross⟩ := List.pairwise_append.mp hpairs
    obtain ⟨v, hv⟩ := Act.isLive_iff.mp hlive
    have hnumbered := (hregistry q (hsplit ▸ List.mem_append_left _ hq)).numbered view v hv
    have hgiven : view < r.editor.nextView :=
      Nat.lt_of_lt_of_le hnumbered (hcross q hq r List.mem_cons_self).1
    exact (List.rel_of_pairwise_cons hlater ht).2 view hgiven hdead

/-- A run that asks for names that look like those found for others, and kills views while one of
them is current. -/
def crowdedRoster : List Step :=
  [.op (.createRoot "v"), .op (.createRoot "v<2>"), .op (.createRoot "v"),
    .op (.createIndirect 2 "v"),
    .withCurrent 3 [.op (.createIndirect 0 "v"), .withCurrent 4 [.op (.kill 0)] none,
      .op (.kill 3)] none,
    .op (.createRoot "v")]

theorem crowdedRoster_registered :
    (takeAll crowdedRoster (fresh .default none)).2.editor.viewList = [1, 2, 5] ∧
      (∃ reply, ((Op.text 1).act.run (takeAll crowdedRoster (fresh .default none)).2).1 =
        .ok reply) ∧
      ((Op.text 0).act.run (takeAll crowdedRoster (fresh .default none)).2).1 =
        .error (.noLiveView 0) ∧
      (∃ n, ((takeAll crowdedRoster (fresh .default none)).2.after (.createRoot "v")).editor.nameOf
        6 = .ok (Editor.candidate "v" n)) ∧
      ∀ t ∈ (fresh .default none :: runMoments crowdedRoster (fresh .default none)).drop 9,
        t.editor.isLive 0 = false := by
  obtain ⟨hlast, hmoments, -, hstays⟩ := views_registered .default none crowdedRoster
  obtain ⟨hroster, hasked, hnames⟩ := hmoments _ hlast
  obtain ⟨n, -, -, -, hname⟩ := hnames "v"
  have hmade : (allPerformed crowdedRoster
      (takeAll crowdedRoster (fresh .default none)).1).filterMap Op.viewMade =
        [0, 1, 2, 3, 4, 5] := by decide +kernel
  have hlength : 8 < (fresh .default none ::
      runMoments crowdedRoster (fresh .default none)).length := by decide +kernel
  have hdead : (fresh .default none ::
      runMoments crowdedRoster (fresh .default none))[8].editor.isLive 0 = false := by
    decide +kernel +revert
  have hlive : ∃ q ∈ (fresh .default none ::
      runMoments crowdedRoster (fresh .default none)).take 8, q.editor.isLive 0 = true := by
    rw [← List.any_eq_true]
    decide +kernel
  have hlist := hroster.viewList_eq
  rw [hmade] at hlist
  have hnext : ((Op.createRoot "v").act.run
      (takeAll crowdedRoster (fresh .default none)).2).1 = .ok (.number 6) :=
    congrArg (Except.ok ∘ Reply.number) (by decide +kernel)
  refine ⟨hlist.trans (by decide +kernel), (hasked (.text 1) 1 rfl).1 ?_,
    (hasked (.text 0) 0 rfl).2 ?_, ⟨n, hname (.createRoot "v") 6 rfl hnext⟩,
    hstays _ _ _ 0 ?_ hlive hdead⟩
  · decide +kernel
  · decide +kernel
  · rw [← List.drop_eq_getElem_cons hlength, List.take_append_drop]

end Session

end Editing
