import Editing.Proofs.History.Growing
import Editing.Proofs.History.Tracing

/-!
# Groups that remain

What an undo has not yet taken back is a list of groups, the next one first. Closing a group does
not change that list, and an undo takes its first group away, whatever it records on top of the log
meanwhile.
-/

namespace Editing

namespace Record

variable {rs ss : List Record} {text : Text}

theorem groups_boundary (rs : List Record) : groups (.boundary :: rs) = groups rs := rfl

theorem splitGroups_append {group : List Record} (h : ∀ r ∈ group, r.isBoundary = false)
    (rs : List Record) :
    splitGroups (group ++ rs) = (group ++ (splitGroups rs).1, (splitGroups rs).2) := by
  induction group with
  | nil => rfl
  | cons r group ih =>
      have hr := h r List.mem_cons_self
      have hgroup := ih fun q hq => h q (List.mem_cons_of_mem r hq)
      rw [List.cons_append, splitGroups, hgroup]
      simp only [hr, Bool.false_eq_true, if_false, List.cons_append]

/-- A group is the first one when nothing or a boundary comes behind it. -/
theorem groups_append {group : List Record} (h : ∀ r ∈ group, r.isBoundary = false)
    (hne : group ≠ []) (hrs : rs = [] ∨ ∃ ss, rs = .boundary :: ss) :
    groups (group ++ rs) = group :: groups rs := by
  have hopen : (splitGroups rs).1 = [] := by
    rcases hrs with rfl | ⟨ss, rfl⟩
    · rfl
    · rfl
  have holder : groups rs = (splitGroups rs).2 := by
    rw [groups]
    simp only [hopen, List.isEmpty_nil, if_true]
  have hgroup : group.isEmpty = false := by
    cases group with
    | nil => exact absurd rfl hne
    | cons _ _ => rfl
  rw [groups, splitGroups_append h, hopen, List.append_nil, holder]
  simp only [hgroup, Bool.false_eq_true, if_false]

theorem groups_dropWhile (rs : List Record) : groups (rs.dropWhile isBoundary) = groups rs := by
  induction rs with
  | nil => rfl
  | cons r rs ih =>
      cases r with
      | boundary => exact ih
      | insert _ _ => rfl
      | delete _ _ _ => rfl
      | property _ _ _ _ => rfl

theorem dropWhile_group (rs : List Record) :
    (rs.dropWhile fun r => !r.isBoundary) = [] ∨
      ∃ ss, (rs.dropWhile fun r => !r.isBoundary) = .boundary :: ss := by
  induction rs with
  | nil => exact Or.inl rfl
  | cons r rs ih =>
      cases r with
      | boundary => exact Or.inr ⟨rs, rfl⟩
      | insert _ _ => exact ih
      | delete _ _ _ => exact ih
      | property _ _ _ _ => exact ih

/-- Each record lies within the text when its turn comes to be reverted. -/
def FitsAll : List Record → Text → Prop
  | [], _ => True
  | r :: rs, text => r.fits text.length = true ∧ FitsAll rs (r.revert text)

theorem Traces.fitsAll {texts : List Text} (h : Traces rs text texts) : FitsAll rs text := by
  induction rs generalizing text texts with
  | nil => trivial
  | cons r rs ih =>
      cases texts with
      | nil => exact h.elim
      | cons before earlier =>
          have hearlier : Traces rs (r.revert text) earlier := by
            rw [h.2.1]
            exact h.2.2
          exact ⟨h.1, ih hearlier⟩

theorem fitsAll_append : FitsAll (rs ++ ss) text ↔ FitsAll rs text ∧
    FitsAll ss (revertAll rs text) := by
  induction rs generalizing text with
  | nil => exact ⟨fun h => ⟨trivial, h⟩, fun h => h.2⟩
  | cons r rs ih =>
      rw [List.cons_append, FitsAll, FitsAll, ih, revertAll_cons, and_assoc]

theorem fitsAll_dropWhile (rs : List Record) (text : Text) :
    FitsAll (rs.dropWhile isBoundary) text ↔ FitsAll rs text := by
  induction rs with
  | nil => exact Iff.rfl
  | cons r rs ih =>
      cases r with
      | boundary => exact ih.trans (Iff.intro (fun h => ⟨rfl, h⟩) fun h => h.2)
      | insert _ _ => exact Iff.rfl
      | delete _ _ _ => exact Iff.rfl
      | property _ _ _ _ => exact Iff.rfl

end Record

namespace UndoLog

variable {l m : UndoLog}

/-- The records that the next undos look at, newest first. -/
def remaining (l : UndoLog) : List Record :=
  l.ahead.map Prod.snd

theorem remaining_idle (h : l.cursor = .idle) : l.remaining = l.records := by
  rw [remaining, ahead_idle h, records_eq]

/-- What is put on top of a log does not matter to a cursor that has moved. -/
theorem ahead_of_suffix {top : List (Nat × Record)} (hl : l.WellFormed) (hm : m.WellFormed)
    (hcursor : m.cursor = l.cursor) (hchain : m.chain = top ++ l.chain)
    (htop : l.cursor = .idle → top = []) : m.ahead = l.ahead := by
  cases hc : l.cursor with
  | idle => rw [ahead_idle (hcursor.trans hc), ahead_idle hc, hchain, htop hc, List.nil_append]
  | resume i =>
      obtain ⟨e, he, rfl⟩ := List.mem_map.mp (hl.cursor i hc)
      obtain ⟨newer, older, hsplit⟩ := List.append_of_mem he
      have hlonger : m.chain = (top ++ newer) ++ e :: older := by
        rw [hchain, hsplit, List.append_assoc]
      rw [hm.ahead_resume (hcursor.trans hc) hlonger, hl.ahead_resume hc hsplit]
  | exhausted => rw [ahead_exhausted (hcursor.trans hc), ahead_exhausted hc]

/-- Closing a group does not matter to a cursor that has moved. -/
theorem WellFormed.remaining_boundary_of_moved (h : l.WellFormed) (hc : l.cursor ≠ .idle) :
    l.boundary.remaining = l.remaining := by
  obtain ⟨closing, hchain⟩ := h.chain_boundary
  have hahead := ahead_of_suffix h h.boundary (cursor_boundary l) hchain fun hidle =>
    absurd hidle hc
  rw [remaining, hahead, remaining]

/-- Closing a group leaves the same groups to be undone. -/
theorem WellFormed.remaining_boundary (h : l.WellFormed) :
    l.boundary.remaining = l.remaining ∨ l.boundary.remaining = .boundary :: l.remaining := by
  by_cases hold : l.cursor = .idle
  · have hclosed := remaining_idle ((cursor_boundary l).trans hold)
    rw [hclosed, remaining_idle hold, h.records_boundary]
    split
    · cases l.records with
      | nil => exact Or.inl rfl
      | cons r rs =>
          rw [Record.close]
          split
          · exact Or.inl rfl
          · exact Or.inr rfl
    · exact Or.inl rfl
  · exact Or.inl (h.remaining_boundary_of_moved hold)

theorem WellFormed.groups_boundary (h : l.WellFormed) :
    Record.groups l.boundary.remaining = Record.groups l.remaining := by
  rcases h.remaining_boundary with heq | heq
  · rw [heq]
  · rw [heq, Record.groups_boundary]

theorem WellFormed.fitsAll_boundary (h : l.WellFormed) (text : Text) :
    Record.FitsAll l.boundary.remaining text ↔ Record.FitsAll l.remaining text := by
  rcases h.remaining_boundary with heq | heq
  · rw [heq]
  · rw [heq]
    exact ⟨fun h => h.2, fun h => ⟨rfl, h⟩⟩

theorem next_records (l : UndoLog) :
    l.nextEntries.map Prod.snd =
      (l.remaining.dropWhile Record.isBoundary).takeWhile fun r => !r.isBoundary := by
  rw [nextEntries, remaining, List.dropWhile_map, List.takeWhile_map]
  rfl

theorem behind_records (l : UndoLog) :
    l.behindEntries.map Prod.snd =
      (l.remaining.dropWhile Record.isBoundary).dropWhile fun r => !r.isBoundary := by
  rw [behindEntries, remaining, List.dropWhile_map, List.dropWhile_map]
  rfl

/-- The next group and what lies behind it are what remains without the boundaries before them. -/
theorem next_append_behind (l : UndoLog) :
    l.nextEntries.map Prod.snd ++ l.behindEntries.map Prod.snd =
      l.remaining.dropWhile Record.isBoundary := by
  rw [next_records, behind_records, List.takeWhile_append_dropWhile]

theorem not_boundary_of_next {e : Nat × Record} (h : e ∈ l.nextEntries) :
    e.2.isBoundary = false := by
  have hkept := List.all_takeWhile (l := l.ahead.dropWhile fun e => e.2.isBoundary)
    (p := fun e : Nat × Record => !e.2.isBoundary)
  simpa using List.all_eq_true.mp hkept e h

theorem behind_closed (l : UndoLog) :
    l.behindEntries.map Prod.snd = [] ∨ ∃ ss, l.behindEntries.map Prod.snd = .boundary :: ss := by
  rw [behind_records]
  exact Record.dropWhile_group _

theorem behind_of_no_next (h : l.nextEntries = []) : l.behindEntries = [] := by
  rw [behindEntries]
  cases hahead : l.ahead.dropWhile fun e => e.2.isBoundary with
  | nil => rfl
  | cons e es =>
      have hhead := List.head_dropWhile_not (fun e : Nat × Record => e.2.isBoundary)
        (l := l.ahead) (by rw [hahead]; exact List.cons_ne_nil e es)
      rw [nextEntries, hahead] at h
      simp only [hahead, List.head_cons] at hhead
      rw [List.takeWhile_cons_of_pos (by rw [hhead]; rfl)] at h
      cases h

theorem groups_of_no_next (h : l.nextEntries = []) : Record.groups l.remaining = [] := by
  rw [← Record.groups_dropWhile, ← next_append_behind, h, behind_of_no_next h]
  rfl

theorem groups_of_next (h : l.nextEntries ≠ []) :
    Record.groups l.remaining =
      l.nextEntries.map Prod.snd :: Record.groups ((l.behindEntries.drop 1).map Prod.snd) := by
  have hdrop : Record.groups ((l.behindEntries.drop 1).map Prod.snd) =
      Record.groups (l.behindEntries.map Prod.snd) := by
    rw [List.map_drop]
    rcases l.behind_closed with heq | ⟨ss, heq⟩
    · rw [heq]
      rfl
    · rw [heq, Record.groups_boundary]
      rfl
  rw [← Record.groups_dropWhile, ← next_append_behind, hdrop]
  refine Record.groups_append ?_ ?_ l.behind_closed
  · intro r hr
    obtain ⟨e, he, rfl⟩ := List.mem_map.mp hr
    exact not_boundary_of_next he
  · exact fun hnil => h (List.map_eq_nil_iff.mp hnil)

/-- The next undo takes the first group that remains. -/
theorem WellFormed.nextGroup_of_groups (h : l.WellFormed) (he : l.isEnabled = true)
    {group : List Record} {older : List (List Record)}
    (hgroups : Record.groups l.remaining = group :: older) :
    l.boundary.nextGroup.1 = .ok group := by
  rw [← h.groups_boundary] at hgroups
  have hnext : l.boundary.nextEntries ≠ [] := by
    intro hnil
    rw [groups_of_no_next hnil] at hgroups
    cases hgroups
  rw [groups_of_next hnext] at hgroups
  rw [nextGroup_of_next ((isEnabled_boundary l).trans he) hnext, (List.cons.inj hgroups).1]

theorem fitsAll_behind {text : Text} (h : Record.FitsAll l.remaining text) :
    Record.FitsAll (l.nextEntries.map Prod.snd) text ∧
      Record.FitsAll ((l.behindEntries.drop 1).map Prod.snd)
        (Record.revertAll (l.nextEntries.map Prod.snd) text) := by
  rw [← Record.fitsAll_dropWhile, ← next_append_behind, Record.fitsAll_append] at h
  refine ⟨h.1, ?_⟩
  have hbehind := h.2
  rw [List.map_drop]
  rcases l.behind_closed with heq | ⟨ss, heq⟩
  · rw [heq]
    trivial
  · rw [heq] at hbehind ⊢
    exact hbehind.2

/-- Once a group has been taken, whatever is put on top, the records behind its boundary remain. -/
theorem Grown.remaining_eq (hl : l.WellFormed)
    (h : m.Grown l.chain (cursorBehind l.behindEntries)) (hm : m.WellFormed) :
    m.remaining = (l.behindEntries.drop 1).map Prod.snd := by
  obtain ⟨news, hnews⟩ := h.chain_eq
  obtain ⟨newer, hsplit⟩ := hl.split_next
  have hcursor := h.cursor_eq
  rcases hbehind : l.behindEntries with _ | ⟨x, _ | ⟨e, es⟩⟩
  · rw [hbehind] at hcursor
    rw [remaining, ahead_exhausted hcursor]
    rfl
  · rw [hbehind] at hcursor
    rw [remaining, ahead_exhausted hcursor]
    rfl
  · rw [hbehind] at hcursor hsplit
    have hchain : m.chain = (news ++ newer ++ l.nextEntries ++ [x]) ++ e :: es := by
      rw [hnews, hsplit]
      simp only [List.append_assoc, List.singleton_append]
    rw [remaining, hm.ahead_resume hcursor hchain]
    rfl

end UndoLog

end Editing
