import Editing.Proofs.Machine.Straying

/-!
# Runs in words

In a run whose texts a word with a sign can count, every operation in words has the result that it
has otherwise. What an operation reads stems from texts that were as short when it was written: the
positions of markers and overlays lie within the text that is there, and what the undo log holds lay
within one that has been there.
-/

namespace Editing

namespace Document

variable {d : Document}

/-- An insertion is recorded in a text that holds it. -/
theorem fits_of_notes {c : Change} (hrange : c.rangeError d.length = none)
    (hwithin : (d.apply c).text.length ≤ maxInteger) {r : Record} (h : r.Notes d c) : r.Fits := by
  cases c with
  | insert pos text =>
      obtain ⟨start, n, rfl, hend⟩ := h
      have hpos := Change.insert_le hrange
      have hlonger : (d.text.insert pos text).length = d.length + text.length :=
        Text.length_insert _ _ _
      change (d.text.insert pos text).length ≤ maxInteger at hwithin
      change start + n ≤ maxInteger
      omega
  | delete start stop =>
      obtain rfl := h
      exact trivial
  | property start stop key value =>
      obtain rfl := h
      exact trivial

theorem recorded_turning : Turning (Within maxInteger) fun d => ∀ r ∈ d.log.records, r.Fits :=
  turning_of_records (·.length ≤ maxInteger) trivial fun hrange hwithin hnotes =>
    fits_of_notes hrange hwithin hnotes

end Document

namespace Machine.Suffices

variable {exempt : Marker → MarkerAdjustment → Bool} {limit : Nat} {s : Session}

/-- An operation agrees with the one in words, when all that it passes through fits into words. -/
theorem op (hexempt : Suffices exempt limit) (h : s.AtRest) (hmeasured : s.Every Document.Measured)
    {o : Op} (hfits : ∀ t ∈ s :: s.moments o, t.Every Document.Fits)
    (hwithin : ∀ t ∈ s.moments o, t.Every (Document.Within limit)) :
    Agrees (o.inWords exempt) o.act s := by
  have hready : Ready s := ⟨h.wellFormed, hfits s List.mem_cons_self⟩
  have hafter : (o.act.run s).2.Every (Document.Within maxInteger) := fun r d hd =>
    (hwithin _ (Session.after_mem_moments s o) r d hd).mono hexempt.limit_le
  cases o with
  | insert view added =>
      rw [Op.act, Editing.Act.run_map] at hafter
      exact (hready.insert hafter).map _
  | deleteRegion view p q =>
      rw [Op.act, Editing.Act.run_map] at hafter
      exact (hready.deleteRegion hafter).map _
  | erase view =>
      rw [Op.act, Editing.Act.run_quietly] at hafter
      exact (hready.erase hafter).quietly
  | insertRaw view pos added =>
      rw [Op.act, Editing.Act.run_map] at hafter
      exact (hready.insertRaw hafter).map _
  | deleteRaw view start stop =>
      rw [Op.act, Editing.Act.run_map] at hafter
      exact (hready.deleteRaw hafter).map _
  | notePropertyRaw view start stop key value =>
      rw [Op.act, Editing.Act.run_quietly] at hafter
      refine Agrees.quietly (hready.makeChange fun t ht => ?_)
      rwa [Editing.Act.notePropertyRaw, ht] at hafter
  | noteProperty view pos length key value =>
      rw [Op.act, Editing.Act.run_quietly] at hafter
      exact (hready.noteProperty hafter).quietly
  | atLineStart view => exact (Agrees.atLineStart view s).map _
  | undo view => exact (hexempt.undo h hmeasured hfits hwithin).quietly
  | _ => exact .plainly _ s

end Machine.Suffices

namespace Session

variable {limits : Limits} {locks : Option LockProtocol} {steps : List Step} {t : Session} {o : Op}

/-- At all moments of a run whose texts can be counted in words, all numbers fit into words. -/
theorem run_fits
    (hshort : ∀ t ∈ runMoments steps (fresh limits locks), t.Every (Document.Within maxInteger)) :
    ∀ t ∈ fresh limits locks :: runMoments steps (fresh limits locks), t.Every Document.Fits := by
  have hrest := fresh_atRest limits locks
  have hplaced := placed_lasting.moments steps _ hrest (fresh_every limits locks)
  have hcovered :=
    Document.covered_enduring.lasting.moments steps _ hrest (fresh_every limits locks)
  have hrecorded :=
    Document.recorded_turning.moments steps _ hrest hshort (fresh_every limits locks)
  have hlength := List.forall_mem_cons.mpr ⟨fresh_every limits locks, hshort⟩
  exact fun t ht r d hd =>
    ⟨hlength t ht r d hd, hplaced t ht r d hd, hcovered t ht r d hd, hrecorded t ht r d hd⟩

/-- So do all that an operation of the run starts from and passes through. -/
theorem start_fits
    (hshort : ∀ t ∈ runMoments steps (fresh limits locks), t.Every (Document.Within maxInteger))
    (hop : (t, o) ∈ runStarts steps (fresh limits locks)) :
    ∀ u ∈ t :: t.moments o, u.Every Document.Fits := by
  have hwalk := walk_all steps _ (fresh_atRest limits locks)
  refine List.forall_mem_cons.mpr ⟨run_fits hshort t (hwalk.start_mem hop), fun u hu => ?_⟩
  exact run_fits hshort u (List.mem_cons_of_mem _ (hwalk.moments_mem hop u hu))

/-- In a run whose texts a word with a sign can count, every operation has the result in words of
the machine that it has with numbers of any size, and needs no exception while the texts are no
longer than half of what such a word can count. -/
theorem sums_fit_words
    (hshort : ∀ t ∈ runMoments steps (fresh limits locks), t.Every fun d => d.length ≤ maxInteger)
    (hop : (t, o) ∈ runStarts steps (fresh limits locks)) :
    (o.inWords Machine.turnedExempt).run t = some (o.act.run t) ∧
      ((∀ u ∈ t.moments o, u.Every fun d => d.length ≤ maxInteger / 2) →
        (o.inWords Machine.noneExempt).run t = some (o.act.run t)) := by
  have hrest := fresh_atRest limits locks
  have hwalk := walk_all steps _ hrest
  obtain ⟨_, _, hstart⟩ := hwalk.exists_to_start hop
  have hmeasured := ((Reachable.fresh limits locks).walk hstart).measured
  have hfits := start_fits hshort hop
  constructor
  · exact Machine.turned_suffices.op (hstart.atRest hrest) hmeasured hfits fun u hu =>
      hshort u (hwalk.moments_mem hop u hu)
  · exact Machine.none_suffices.op (hstart.atRest hrest) hmeasured hfits

/-- A text is short, and a marker is sent behind it. -/
theorem collapsedMarker_in_words :
    let os := collapsedMarker ++ [Op.setMarkerAdvances 3 true]
    let start := (fresh .default none).afterAll os
    (∀ t ∈ runMoments ((os ++ [Op.undo 0]).map .op) (fresh .default none),
      t.Every fun d => d.length ≤ maxInteger) ∧
    (start, Op.undo 0) ∈ runStarts ((os ++ [Op.undo 0]).map .op) (fresh .default none) ∧
    (∀ u ∈ start.moments (.undo 0), u.Every fun d => d.length ≤ maxInteger / 2) ∧
    ((Op.undo 0).inWords Machine.noneExempt).run start = some ((Op.undo 0).act.run start) ∧
    start.editor.markerPosition 3 = .ok (some 2) ∧
    (start.after (.undo 0)).editor.markerPosition 3 = .ok (some 7) := by
  intro os start
  have hmoments : ∀ t ∈ runMoments ((os ++ [Op.undo 0]).map .op) (fresh .default none),
      ∀ e ∈ t.editor.documents.entries, e.2.length ≤ maxInteger / 2 := by decide +kernel
  have hshorter : ∀ t ∈ runMoments ((os ++ [Op.undo 0]).map .op) (fresh .default none),
      t.Every fun d => d.length ≤ maxInteger / 2 :=
    fun t ht _ _ hd => hmoments t ht _ (Table.mem_entries.mpr hd)
  have hshort : ∀ t ∈ runMoments ((os ++ [Op.undo 0]).map .op) (fresh .default none),
      t.Every fun d => d.length ≤ maxInteger :=
    fun t ht root d hd => Nat.le_trans (hshorter t ht root d hd) (Nat.div_le_self _ _)
  have hop :
      (start, Op.undo 0) ∈ runStarts ((os ++ [Op.undo 0]).map .op) (fresh .default none) := by
    rw [runStarts_concat]
    exact List.mem_concat_self
  have hundo : ∀ u ∈ start.moments (.undo 0), u.Every fun d => d.length ≤ maxInteger / 2 := by
    intro u hu
    refine hshorter u ?_
    rw [runMoments_concat]
    exact List.mem_append_right _ hu
  exact ⟨hshort, hop, hundo, (sums_fit_words hshort hop).2 hundo, by decide +kernel,
    by decide +kernel⟩

/-- The place where a marker is sent is in no word when a text is longer than half of what one can
count, and neither is the end of a range at the last position. -/
theorem sums_beyond_words :
    (let text := List.replicate (maxInteger / 2 + 1) 'x'
      let start := (fresh .default none).afterAll (farMarker text)
      let steps := (farMarker text ++ [Op.undo 0]).map Step.op
      (∀ t ∈ runMoments steps (fresh .default none), t.Every fun d => d.length ≤ maxInteger) ∧
      (start, Op.undo 0) ∈ runStarts steps (fresh .default none) ∧
      ((Op.undo 0).inWords Machine.noneExempt).run start = none) ∧
    Machine.add maxPosition 1 = none ∧
    ((Op.noteProperty 0 maxPosition 1 "k" .nil).act.run
      ((fresh .default none).afterAll [.createRoot "v", .insert 0 ['a', 'b', 'c']])).1 =
        .error (.lengthOverflow 1) := by
  refine ⟨?_, by decide, by rfl⟩
  intro text start steps
  have hlength : text.length = maxInteger / 2 + 1 := List.length_replicate
  have htext : text ≠ [] := List.ne_nil_of_length_eq_add_one hlength
  have hshort : ∀ t ∈ runMoments steps (fresh .default none),
      t.Every (Document.Within maxInteger) := fun t ht root d hd =>
    (moments_farMarker htext t ht root d hd).mono (hlength ▸ (by decide))
  have hop : (start, Op.undo 0) ∈ runStarts steps (fresh .default none) := by
    rw [runStarts_concat]
    exact List.mem_concat_self
  refine ⟨hshort, hop, ?_⟩
  exact Machine.run_bind_of_none (Machine.run_undo_farMarker (Nat.lt_of_succ_le (Nat.le_of_eq
    hlength.symm)) (start_fits hshort hop))

end Session

end Editing
