import Editing.Proofs.Session.Touching

/-!
# Markers are known for good

A marker that was made or copied once can be asked about and changed ever after: when it has been
detached, when it has been set in another text, and when the view or the root where it was has been
killed. A number that no such marker has been given is refused by the same operations, the numbers
of the markers of views among them, so that these are out of reach.
-/

namespace Editing

namespace Op

/-- The number of the marker that an operation made, if it made one. -/
def markerMade : Op × Except Error Reply → Option MarkerId
  | (makeMarker, .ok (.number id)) | (copyMarker .., .ok (.number id)) => some id
  | _ => none

/-- Whether an operation gives out numbers for markers when it succeeds, be they the user's or those
of a view. -/
def numbersMarkers : Op → Bool
  | createRoot _ | createIndirect .. | makeMarker | copyMarker .. => true
  | _ => false

/-- Whether an operation is about markers. -/
def isMarking : Op → Bool
  | makeMarker | hasMarkerAt .. => true
  | o => o.markerNamed.isSome

end Op

namespace Editor

variable {e : Editor} {marker id : MarkerId} {u : UserMarker} {root : ViewId} {d : Document}
  {m : Marker}

theorem userMarker_of_get (h : e.userMarkers.get? marker = some u) :
    e.userMarker marker = .ok u := by
  rw [userMarker, h]

theorem userMarker_of_unknown (h : ¬e.Knows marker) :
    e.userMarker marker = .error (.notMarker marker) := by
  have hnone : e.userMarkers.get? marker = none := by
    cases hu : e.userMarkers.get? marker with
    | none => rfl
    | some u => exact absurd ⟨u, hu⟩ h
  rw [userMarker, hnone]

theorem markerView_of_get (h : e.userMarkers.get? marker = some u) :
    e.markerView marker = .ok (u.home.map MarkerHome.view) := by
  rw [markerView, userMarker_of_get h]
  rfl

theorem markerAdvances_of_get (h : e.userMarkers.get? marker = some u) :
    e.markerAdvances marker = .ok u.advances := by
  rw [markerAdvances, userMarker_of_get h]
  rfl

theorem markerPosition_of_home (hr : e.Registry) (hu : e.userMarkers.get? marker = some u)
    {view : ViewId} (hhome : u.home = some ⟨view, root⟩)
    (hd : e.documents.get? root = some d) :
    e.markerPosition marker = .ok (Markers.position? d.markers marker) := by
  obtain ⟨w, hs, -⟩ := hr.shows_root hd
  rw [markerPosition, userMarker_of_get hu]
  simp only [bind, Except.bind, hhome, hs.document_eq]
  rfl

theorem markerPosition_of_get (hr : e.Registry) (hm : e.Marking)
    (hu : e.userMarkers.get? marker = some u) : ∃ pos, e.markerPosition marker = .ok pos := by
  cases hhome : u.home with
  | none =>
      refine ⟨none, ?_⟩
      rw [markerPosition, userMarker_of_get hu]
      simp only [bind, Except.bind, hhome]
      rfl
  | some home =>
      obtain ⟨v, d, hs, -⟩ := hm.homed marker u home hu hhome
      exact ⟨_, markerPosition_of_home hr hu hhome hs.document⟩

/-- Every marker of the user that lies in a document is found there. -/
theorem markerPosition_of_lies (hr : e.Registry) (hm : e.Marking)
    (hd : e.documents.get? root = some d) (hmarker : d.markers.get? id = some m)
    (hkind : m.kind = .user) : e.markerPosition id = .ok (some m.position) := by
  obtain ⟨u, view, hu, hhome⟩ := hm.known root d id m hd hmarker hkind
  rw [markerPosition_of_home hr hu hhome hd, Markers.position?, hmarker]
  rfl

/-- Only markers of the user are found at a position. -/
theorem hasUserAt_iff (hr : e.Registry) (hm : e.Marking) (hd : e.documents.get? root = some d)
    (pos : Nat) : Markers.hasUserAt d.markers pos = true ↔
      ∃ id, e.Lies .user root id ∧ e.markerPosition id = .ok (some pos) := by
  rw [Markers.hasUserAt, List.any_eq_true]
  constructor
  · rintro ⟨m, hvalue, hat⟩
    obtain ⟨⟨id, _⟩, hmem, rfl⟩ := List.mem_map.mp hvalue
    rw [Bool.and_eq_true, beq_iff_eq, beq_iff_eq] at hat
    have hmarker := Table.mem_entries.mp hmem
    refine ⟨id, ⟨d, _, hd, hmarker, hat.1⟩, ?_⟩
    rw [markerPosition_of_lies hr hm hd hmarker hat.1, hat.2]
  · rintro ⟨id, ⟨c, m, hc, hmarker, hkind⟩, hpos⟩
    obtain rfl := Option.some.inj (hd.symm.trans hc)
    rw [markerPosition_of_lies hr hm hd hmarker hkind] at hpos
    refine ⟨m, List.mem_map.mpr ⟨(id, m), Table.mem_entries.mpr hmarker, rfl⟩, ?_⟩
    rw [Bool.and_eq_true, beq_iff_eq, beq_iff_eq]
    exact ⟨hkind, Option.some.inj (Except.ok.inj hpos)⟩

end Editor

namespace Act

variable {s : Session} {marker : MarkerId} {u : UserMarker}

theorem Succeeds.setMarkerAdvances (h : s.editor.WellFormed)
    (hu : s.editor.userMarkers.get? marker = some u) (advances : Bool) :
    Succeeds (setMarkerAdvances marker advances) s := by
  refine .ask_bind (Editor.userMarker_of_get hu) ?_
  split
  · exact .change _ s
  · rename_i home hhome
    obtain ⟨w, d, hs, -⟩ := shows_home h hu hhome
    exact .bind (.changeShown hs _) fun _ t _ => .change _ t

/-- What looks up a marker answers when the marker is known, and placing it only needs a live view
besides. -/
theorem answers_marker (h : s.editor.WellFormed) (hknown : s.editor.Knows marker) {o : Op}
    (ho : o.markerNamed = some marker)
    (hlive : ∀ view pos, o = .placeMarker marker view pos → s.editor.isLive view = true) :
    Succeeds o.act s := by
  obtain ⟨u, hu⟩ := hknown
  have hmarker := Editor.userMarker_of_get hu
  have hview := Editor.markerView_of_get hu
  obtain ⟨pos, hpos⟩ := Editor.markerPosition_of_get h.registry h.marking hu
  cases o with
  | placeMarker _ view pos =>
      cases ho
      obtain ⟨v, hv⟩ := isLive_iff.mp (hlive view pos rfl)
      obtain ⟨root, d, hs⟩ := h.registry.shows_of_live hv
      exact .quietly (.placeMarker h hmarker hs pos)
  | detachMarker _ =>
      cases ho
      exact .quietly (.detachMarker h hmarker)
  | copyMarker _ advances =>
      cases ho
      exact .map _ (.copyMarker h hview hpos advances)
  | markerPosition _ =>
      cases ho
      exact .map _ (.ask hpos)
  | markerView _ =>
      cases ho
      exact .map _ (.ask hview)
  | markerAdvances _ =>
      cases ho
      exact .map _ (.ask (Editor.markerAdvances_of_get hu))
  | setMarkerAdvances _ advances =>
      cases ho
      exact .quietly (.setMarkerAdvances h hu advances)
  | _ => cases ho

/-- What looks up a marker refuses a number that no marker of the user has, and changes nothing. -/
theorem refuses_marker (hnot : ¬s.editor.Knows marker) {o : Op}
    (ho : o.markerNamed = some marker) : o.act.run s = (.error (.notMarker marker), s) := by
  have hmarker := Editor.userMarker_of_unknown hnot
  have hview : s.editor.markerView marker = .error (.notMarker marker) := by
    rw [Editor.markerView, hmarker]
    rfl
  cases o with
  | placeMarker _ view pos =>
      cases ho
      rw [Op.act, run_quietly, placeMarker, run_ask_bind_error hmarker]
      rfl
  | detachMarker _ =>
      cases ho
      rw [Op.act, run_quietly, detachMarker, run_ask_bind_error hmarker]
      rfl
  | copyMarker _ advances =>
      cases ho
      rw [Op.act, run_map, copyMarker, run_ask_bind_error hview]
      rfl
  | markerPosition _ =>
      cases ho
      rw [Op.act, run_map, run_ask, Editor.markerPosition, hmarker]
      rfl
  | markerView _ =>
      cases ho
      rw [Op.act, run_map, run_ask, hview]
      rfl
  | markerAdvances _ =>
      cases ho
      rw [Op.act, run_map, run_ask, Editor.markerAdvances, hmarker]
      rfl
  | setMarkerAdvances _ advances =>
      cases ho
      rw [Op.act, run_quietly, setMarkerAdvances, run_ask_bind_error hmarker]
      rfl
  | _ => cases ho

theorem respects_nextMarker (o : Op) (ho : o.numbersMarkers = false) :
    Respects (Editor.Within (Editor.Same Editor.nextMarker)) o.act := by
  refine o.respects ⟨fun heffect => ?_, fun heffect => ?_, fun heffect => ?_⟩
  all_goals
    cases o with
    | createRoot _ | createIndirect _ _ | makeMarker | copyMarker _ _ => cases ho
    | _ => cases heffect

end Act

/-! ## Markers made in a run -/

namespace Session

variable {s t : Session} {o : Op} {id : MarkerId} {starts more : List (Session × Op)}
  {passed : List Session}

/-- The markers that operations made. -/
def markersMade (starts : List (Session × Op)) : List MarkerId :=
  (starts.map answered).filterMap Op.markerMade

theorem mem_markersMade_concat :
    id ∈ markersMade (starts ++ [(s, o)]) ↔
      id ∈ markersMade starts ∨ Op.markerMade (answered (s, o)) = some id := by
  rw [markersMade, List.map_append, List.filterMap_append, List.mem_append]
  refine or_congr Iff.rfl ?_
  rw [List.mem_filterMap]
  constructor
  · rintro ⟨x, hx, hmade⟩
    rwa [List.mem_singleton.mp hx] at hmade
  · exact fun hmade => ⟨_, List.mem_singleton_self _, hmade⟩

/-- An operation lets one more marker be known if it makes one, and none otherwise. -/
theorem knows_after (h : s.AtRest) (o : Op) (id : MarkerId) :
    (s.after o).editor.Knows id ↔
      s.editor.Knows id ∨ Op.markerMade (answered (s, o)) = some id := by
  have hmade : ∀ id, (Act.makeMarker.run s).2.editor.Knows id ↔
      s.editor.Knows id ∨ s.editor.nextMarker = id := by
    intro id
    rw [Act.run_makeMarker]
    unfold Editor.Knows
    rw [editor_edit, Table.get?_insert]
    split
    · rename_i hid
      exact ⟨fun _ => Or.inr hid.symm, fun _ => ⟨_, rfl⟩⟩
    · rename_i hid
      exact ⟨Or.inl, fun hor => hor.resolve_right (Ne.symm hid)⟩
  cases hnumbers : o.numbersMarkers with
  | false =>
      have hnone : Op.markerMade (answered (s, o)) = none := by
        cases o with
        | makeMarker => cases hnumbers
        | copyMarker _ _ => cases hnumbers
        | _ => rfl
      have hnext := Act.respects_nextMarker o hnumbers s
      rw [hnone, (onward_numbers.op h (after_mem_moments s o)).knows_iff
        (h.after o).wellFormed.marking hnext id]
      simp only [reduceCtorEq, or_false]
  | true =>
      cases o with
      | createRoot name =>
          change s.editor.Knows id ↔ s.editor.Knows id ∨ none = some id
          simp only [reduceCtorEq, or_false]
      | createIndirect base name =>
          have hnone : Op.markerMade (answered (s, .createIndirect base name)) = none := rfl
          rw [hnone, after, Op.act, Act.run_map]
          rcases Act.createIndirect_cases base name s with ⟨e, hrun⟩ | ⟨v, hrun⟩
          · rw [hrun]
            simp only [reduceCtorEq, or_false]
          · rw [hrun]
            simp only [reduceCtorEq, or_false]
            rfl
      | makeMarker =>
          refine (hmade id).trans (or_congr Iff.rfl ?_)
          exact Option.some_inj.symm
      | copyMarker source advances =>
          rw [answered, after, Op.act, Act.run_map]
          rcases Act.copyMarker_cases h.wellFormed source advances with
            ⟨e, t, hrun, heq⟩ | ⟨t, hrun, htouches⟩
          · rw [hrun]
            simp only [heq]
            exact (or_iff_left (fun hnone => by cases hnone)).symm
          · rw [hrun]
            refine ((htouches.known id).trans (hmade id)).trans (or_congr Iff.rfl ?_)
            exact Option.some_inj.symm
      | _ => cases hnumbers

/-- Wherever operations and changes of the current view lead, the markers known are those that the
operations made. -/
theorem Walk.knows (hwalk : s.Walk starts passed t) (hrest : s.AtRest)
    (h : ∀ id, ¬s.editor.Knows id) (id : MarkerId) :
    t.editor.Knows id ↔ id ∈ markersMade starts := by
  induction hwalk with
  | rest => exact ⟨fun hid => absurd hid (h id), fun hid => by cases hid⟩
  | op hwalk o ih =>
      rw [knows_after (hwalk.atRest hrest) o id, ih, mem_markersMade_concat]
  | switch hwalk ht ih =>
      rcases ht with rfl | ⟨view, v, -, rfl⟩
      · exact ih
      · exact ih

/-! ## Marker operations -/

/-- What looks up a marker answers for those that were made, unless it is to set one in a dead view,
and refuses all other numbers without a change. What is found at a position is a marker that was
made, and no view moves its point or bounds. -/
structure Serves (s : Session) (starts : List (Session × Op)) : Prop where
  known : ∀ id, s.editor.Knows id ↔ id ∈ markersMade starts
  answers : ∀ id ∈ markersMade starts, ∀ o, Op.markerNamed o = some id →
    (∀ view pos, o = .placeMarker id view pos → s.editor.isLive view = true) →
    ∃ reply, (o.act.run s).1 = .ok reply
  refuses : ∀ id ∉ markersMade starts, ∀ o, Op.markerNamed o = some id →
    o.act.run s = (.error (.notMarker id), s)
  finds : ∀ view pos root x, s.editor.rootOf view = .ok root → s.editor.extent view = .ok x →
    ∃ found, ((Op.hasMarkerAt view pos).act.run s).1 = .ok (.flag found) ∧
      (found = true ↔ ∃ id ∈ markersMade starts, s.editor.Lies .user root id ∧
        s.editor.markerPosition id = .ok (some (Position.clamp x.low x.high pos)))
  still : ∀ o, Op.isMarking o = true →
    ∀ view, (s.after o).editor.extent view = s.editor.extent view

/-- Operations about markers leave every view where it is. -/
theorem AtRest.extent_after_marking (h : s.AtRest) (ho : o.isMarking = true) (view : ViewId) :
    (s.after o).editor.extent view = s.editor.extent view := by
  have hm := h.wellFormed.marking
  cases hnamed : o.markerNamed with
  | none =>
      cases o with
      | makeMarker => rfl
      | hasMarkerAt _ _ => rw [Session.after, Op.act, Act.run_map, Act.run_ask]
      | placeMarker _ _ _ | detachMarker _ | copyMarker _ _ | markerPosition _ | markerView _
      | markerAdvances _ | setMarkerAdvances _ _ => cases hnamed
      | _ => cases ho
  | some marker =>
      by_cases hknown : s.editor.Knows marker
      · obtain ⟨u, hu⟩ := hknown
        by_cases hcopy : ∃ advances, o = .copyMarker marker advances
        · obtain ⟨advances, rfl⟩ := hcopy
          rw [Session.after, Op.act, Act.run_map]
          rcases Act.copyMarker_cases h.wellFormed marker advances with
            ⟨e, t, hrun, heq⟩ | ⟨t, hrun, htouches⟩
          · rw [hrun]
            exact congrArg (Editor.extent · view) heq
          · rw [hrun]
            refine htouches.extent_eq (fun view v hv => ?_) view
            have hd := hm.distinct view v hv
            exact ⟨(Nat.ne_of_lt hd.point_lt).symm, (Nat.ne_of_lt hd.low_lt).symm,
              (Nat.ne_of_lt hd.high_lt).symm⟩
        · have htouches := Act.touches_named hnamed (fun advances heq => hcopy ⟨advances, heq⟩) s
          exact htouches.extent_eq (fun view v hv => hm.foreign marker u view v hu hv) view
      · rw [Session.after, Act.refuses_marker hknown hnamed]

theorem AtRest.serves (h : s.AtRest)
    (hknown : ∀ id, s.editor.Knows id ↔ id ∈ markersMade starts) : s.Serves starts where
  known := hknown
  answers id hid o ho hlive :=
    (Act.answers_marker h.wellFormed ((hknown id).mpr hid) ho hlive).reply
  refuses id hid o ho := Act.refuses_marker (fun hk => hid ((hknown id).mp hk)) ho
  finds view pos root x hroot hx := by
    obtain ⟨hr, hm, -⟩ := h.wellFormed
    obtain ⟨v, d, hs⟩ := hr.shows_of_rootOf hroot
    obtain rfl : d.extent v.markers = x := Except.ok.inj (hs.extent_eq.symm.trans hx)
    refine ⟨Markers.hasUserAt d.markers (Position.clamp (d.extent v.markers).low
      (d.extent v.markers).high pos), ?_, ?_⟩
    · rw [Op.act, Act.run_map, Act.run_ask, Editor.hasMarkerAt, hs.extent_eq, hs.document_eq]
      rfl
    · rw [Editor.hasUserAt_iff hr hm hs.document]
      constructor
      · rintro ⟨id, hlies, hpos⟩
        obtain ⟨c, m, hc, hmarker, hkind⟩ := hlies
        obtain ⟨u, home, hu, -⟩ := hm.known root c id m hc hmarker hkind
        exact ⟨id, (hknown id).mp ⟨u, hu⟩, ⟨c, m, hc, hmarker, hkind⟩, hpos⟩
      · rintro ⟨id, -, hlies, hpos⟩
        exact ⟨id, hlies, hpos⟩
  still _ ho view := h.extent_after_marking ho view

/-! ## Runs -/

/-- At every moment of a run, within an undo too: a marker of the user is at home in a root just
when it lies in its document and nowhere else, with the insertion type that is known, and was set in
that live root or in a view indirect to it; a marker without a home lies nowhere; and the numbers of
the markers of views, whenever these were or will be made, are not those of any marker of the user,
and refused as such. What looks up a marker answers for those that the operations begun so far have
made, refuses all other numbers, and leaves every view where it is. -/
theorem markers_registered (limits : Limits) (locks : Option LockProtocol) (steps : List Step) :
    let start := fresh limits locks
    let run := takeAll steps start
    let moments := start :: runMoments steps start
    let starts := runStarts steps start
    run.2 ∈ moments ∧
    (∀ t ∈ moments, t.editor.Homing ∧
      ∀ r ∈ moments, ∀ view v id, r.editor.views.get? view = some v →
        (t.editor.Knows id → v.markers.Outside id) ∧
        (¬v.markers.Outside id → ∀ o, Op.markerNamed o = some id →
          o.act.run t = (.error (.notMarker id), t))) ∧
    (∀ earlier s o later, starts = earlier ++ (s, o) :: later →
      s ∈ moments ∧ s.Serves earlier) ∧
    run.2.Serves starts ∧
    markersMade starts = (allPerformed steps run.1).filterMap Op.markerMade ∧
    ∀ id, (Error.notMarker id).kind = .wrongType := by
  intro start run moments starts
  have hrest := fresh_atRest limits locks
  have hwalk := walk_all steps start hrest
  have hnone : ∀ id, ¬start.editor.Knows id := by
    rintro id ⟨u, hu⟩
    cases hu
  have hsettled : ∀ t ∈ moments, t.Settled :=
    settled_lasting.moments steps start hrest
      ⟨hrest.wellFormed.registry, hrest.wellFormed.marking⟩
  have hparted := parted_lasting.moments steps start hrest (fresh_parted limits locks)
  refine ⟨hwalk.end_mem, fun t ht => ⟨?_, fun r hr view v id hv => ?_⟩, ?_, ?_, ?_, fun _ => rfl⟩
  · exact Editor.homing (hsettled t ht).1 (hsettled t ht).2 (hparted t ht)
  · have hstrange := (run_strangers steps hrest hsettled hr ht).1 view v id hv
    exact ⟨hstrange, fun hid o ho => Act.refuses_marker (fun hknown => hid (hstrange hknown)) ho⟩
  · intro earlier s o later hsplit
    have hmem : (s, o) ∈ starts := hsplit ▸ List.mem_append_right _ List.mem_cons_self
    obtain ⟨passed, hcut⟩ := hwalk.cut hsplit
    exact ⟨hwalk.start_mem hmem, (hcut.atRest hrest).serves (hcut.knows hrest hnone)⟩
  · exact (hwalk.atRest hrest).serves (hwalk.knows hrest hnone)
  · rw [performed_all]
    rfl

/-- A run that sets a marker in an indirect view and a copy of it in another root, and kills both
the view and the root. -/
def strayMarkers : List Step :=
  [.op (.createRoot "v"), .op (.insert 0 "abc".toList), .op (.createIndirect 0 "w"),
    .op (.createRoot "x"), .op .makeMarker, .op (.placeMarker 9 1 2), .op (.copyMarker 9 true),
    .op (.placeMarker 10 2 0), .op .makeMarker,
    .withCurrent 1 [.op (.kill 1), .op (.placeMarker 11 0 1), .op (.kill 2)] none]

theorem strayMarkers_registered :
    markersMade (runStarts strayMarkers (fresh .default none)) = [9, 10, 11] ∧
      (∃ reply, ((Op.markerPosition 9).act.run
        (takeAll strayMarkers (fresh .default none)).2).1 = .ok reply) ∧
      (∃ reply, ((Op.copyMarker 10 false).act.run
        (takeAll strayMarkers (fresh .default none)).2).1 = .ok reply) ∧
      (Op.markerPosition 4).act.run (takeAll strayMarkers (fresh .default none)).2 =
        (.error (.notMarker 4), (takeAll strayMarkers (fresh .default none)).2) ∧
      (∃ s o, (runStarts strayMarkers (fresh .default none))[8]? = some (s, o) ∧
        (∃ reply, ((Op.markerAdvances 10).act.run s).1 = .ok reply) ∧
        (Op.markerAdvances 11).act.run s = (.error (.notMarker 11), s)) ∧
      ∃ d p, (takeAll strayMarkers (fresh .default none)).2.editor.documents.get? 0 = some d ∧
        d.markers.get? 11 = some ⟨p, false, .user⟩ := by
  obtain ⟨hlast, hmoments, hcuts, hserves, -, -⟩ := markers_registered .default none strayMarkers
  have hmade : markersMade (runStarts strayMarkers (fresh .default none)) = [9, 10, 11] := by
    decide +kernel
  have hmem : ∀ id ∈ [9, 10, 11],
      id ∈ markersMade (runStarts strayMarkers (fresh .default none)) := by
    rw [hmade]
    exact fun _ hid => hid
  refine ⟨hmade, ?_, ?_, ?_, ?_, ?_⟩
  · exact hserves.answers 9 (hmem 9 (by decide)) (.markerPosition 9) rfl nofun
  · exact hserves.answers 10 (hmem 10 (by decide)) (.copyMarker 10 false) rfl nofun
  · refine hserves.refuses 4 ?_ (.markerPosition 4) rfl
    rw [hmade]
    decide
  · have hlength : 8 < (runStarts strayMarkers (fresh .default none)).length := by decide +kernel
    have hsplit : runStarts strayMarkers (fresh .default none) =
        (runStarts strayMarkers (fresh .default none)).take 8 ++
          (runStarts strayMarkers (fresh .default none))[8] ::
            (runStarts strayMarkers (fresh .default none)).drop 9 := by
      rw [← List.drop_eq_getElem_cons hlength, List.take_append_drop]
    have hearlier : markersMade ((runStarts strayMarkers (fresh .default none)).take 8) =
        [9, 10] := by decide +kernel
    obtain ⟨-, hserves⟩ := hcuts _ _ _ _ hsplit
    refine ⟨_, _, List.getElem?_eq_getElem hlength,
      hserves.answers 10 ?_ (.markerAdvances 10) rfl nofun,
      hserves.refuses 11 ?_ (.markerAdvances 11) rfl⟩
    · rw [hearlier]
      decide
    · rw [hearlier]
      decide
  · have hu : (takeAll strayMarkers (fresh .default none)).2.editor.userMarkers.get? 11 =
        some ⟨some ⟨0, 0⟩, false⟩ := by decide +kernel
    obtain ⟨-, hlies, -⟩ := ((hmoments _ hlast).1.homed 11 _ 0 hu).mp ⟨0, rfl⟩
    exact hlies

end Session

end Editing
