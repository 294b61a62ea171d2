import Editing.Proofs.History.Keeping
import Mathlib.Data.List.Chain

/-!
# The normal form of records

The records of a log are kept short: an insertion is not recorded beside one that it goes on from,
and no group is closed twice. So there is no group without records, and as many groups as there are
boundaries, with one more while the newest one is open. Putting records on top keeps this up where
the top is, and cutting a log at a boundary where the end is.
-/

namespace Editing

namespace Record

variable {r q : Record} {rs ss : List Record} {pos length : Nat}

/-- Whether there is nothing to take back in what was inserted or deleted. -/
def isVoid : Record → Bool
  | insert _ length => length == 0
  | delete _ text _ => text.isEmpty
  | _ => false

/-- Whether a record may lie right on top of another: not if both are boundaries, and not if it is
an insertion that goes on where the older one ends. -/
def Apart : Record → Record → Prop
  | boundary, boundary => False
  | insert pos _, insert start n => start + n ≠ pos
  | _, _ => True

/-- The normal form of the records of a log, newest first. -/
structure Normal (rs : List Record) : Prop where
  /-- The oldest record is not a boundary. -/
  oldest : rs.getLast? ≠ some boundary
  /-- Every insertion and every deletion has some text. -/
  solid : ∀ r ∈ rs, r.isVoid = false
  /-- Each record may lie where it does. -/
  apart : rs.IsChain Apart

theorem not_apart_boundary : ¬Apart boundary boundary := id

theorem apart_of_ne (h : r ≠ boundary) : Apart r boundary ∧ Apart boundary r := by
  cases r with
  | boundary => exact absurd rfl h
  | _ => exact ⟨trivial, trivial⟩

/-- What lies below an insertion does not depend on its length. -/
theorem apart_insert {n m : Nat} (h : Apart (insert pos n) q) : Apart (insert pos m) q := by
  cases q <;> exact h

/-! ## What keeps records normal -/

theorem normal_nil : Normal [] :=
  ⟨nofun, fun _ h => absurd h List.not_mem_nil, .nil⟩

theorem Normal.tail (h : Normal (r :: rs)) : Normal rs := by
  refine ⟨fun hlast => h.oldest ?_, fun q hq => h.solid q (List.mem_cons_of_mem r hq), h.apart.tail⟩
  rw [List.getLast?_cons, hlast]
  rfl

theorem Normal.cons (h : Normal rs) (hold : r ≠ boundary ∨ rs ≠ []) (hvoid : r.isVoid = false)
    (hapart : ∀ q ∈ rs.head?, Apart r q) : Normal (r :: rs) := by
  refine ⟨fun hlast => ?_, fun q hq => ?_, h.apart.cons hapart⟩
  · rw [List.getLast?_cons, Option.some_inj] at hlast
    cases hrs : rs.getLast? with
    | none =>
        rw [hrs] at hlast
        rcases hold with hr | hne
        · exact hr hlast
        · exact hne (List.getLast?_eq_none_iff.mp hrs)
    | some q =>
        rw [hrs] at hlast
        exact h.oldest (hrs.trans (congrArg some hlast))
  · rcases List.mem_cons.mp hq with rfl | hq
    · exact hvoid
    · exact h.solid q hq

theorem Normal.addInsert (h : Normal rs) (hlength : 0 < length) :
    Normal (Record.addInsert pos length rs) := by
  have hvoid (start n : Nat) : (insert start (n + length)).isVoid = false := by
    rw [isVoid, beq_eq_false_iff_ne]
    omega
  have hnew (hapart : ∀ q ∈ rs.head?, Apart (insert pos length) q) :
      Normal (insert pos length :: rs) :=
    h.cons (.inl Record.noConfusion) (by have := hvoid pos 0; rwa [Nat.zero_add] at this) hapart
  cases rs with
  | nil => exact hnew fun q hq => by cases hq
  | cons r rs =>
      cases r with
      | insert start n =>
          rw [Record.addInsert]
          split
          · -- The merged insertion starts where the older one did, and takes its place.
            exact h.tail.cons (.inl Record.noConfusion) (hvoid start n) fun q hq =>
              apart_insert (h.apart.rel_head? hq)
          · refine hnew fun q hq => ?_
            cases hq
            assumption
      | delete _ _ _ => exact hnew fun q hq => by cases hq; trivial
      | property _ _ _ _ => exact hnew fun q hq => by cases hq; trivial
      | boundary => exact hnew fun q hq => by cases hq; trivial

theorem Normal.close (h : Normal rs) : Normal (Record.close rs) := by
  cases rs with
  | nil => exact h
  | cons r rs =>
      rw [Record.close]
      split
      · exact h
      · rename_i hr
        refine h.cons (.inr (List.cons_ne_nil r rs)) rfl fun q hq => ?_
        cases hq
        exact (apart_of_ne fun heq => hr (by rw [heq]; rfl)).2

/-- What is newer than a boundary is normal by itself. -/
theorem Normal.of_cut (h : Normal (rs ++ boundary :: ss)) : Normal rs := by
  obtain ⟨hrs, -, hbetween⟩ := List.isChain_append.mp h.apart
  refine ⟨fun hlast => ?_, fun r hr => h.solid r (List.mem_append_left _ hr), hrs⟩
  exact not_apart_boundary (hbetween boundary hlast boundary rfl)

/-! ## Groups of normal records -/

/-- A boundary has a group behind it. -/
theorem Normal.exists_behind (h : Normal (ss ++ boundary :: rs)) :
    ∃ r older, rs = r :: older ∧ r ≠ boundary := by
  cases rs with
  | nil => exact absurd (List.getLast?_concat ..) h.oldest
  | cons r older =>
      refine ⟨r, older, rfl, ?_⟩
      rintro rfl
      exact not_apart_boundary (List.isChain_append.mp h.apart).2.1.rel

/-- Normal records have a group for each boundary, and one more on top that none closes; in a group
that is under way nothing is begun on top. -/
theorem Normal.countGroups_eq (h : Normal rs) :
    countGroups false rs =
        rs.countP isBoundary + (if rs.head?.any fun r => !r.isBoundary then 1 else 0) ∧
      countGroups true rs = rs.countP isBoundary := by
  induction rs with
  | nil => exact ⟨rfl, rfl⟩
  | cons r rs ih =>
      obtain ⟨hclosed, hopen⟩ := ih h.tail
      cases hr : r.isBoundary with
      | true =>
          obtain ⟨q, older, rfl, hq⟩ : ∃ q older, rs = q :: older ∧ q ≠ boundary := by
            cases r with
            | boundary => exact exists_behind (show Normal ([] ++ boundary :: rs) from h)
            | _ => cases hr
          have hchange : q.isBoundary = false := by
            cases q with
            | boundary => exact absurd rfl hq
            | _ => rfl
          have hcount : (r :: q :: older).countP isBoundary = (q :: older).countP isBoundary + 1 :=
            List.countP_cons_of_pos hr
          rw [List.head?_cons, Option.any_some, hchange, Bool.not_false, if_pos rfl, ← hcount]
            at hclosed
          constructor
          · rw [countGroups, if_pos hr, hclosed, List.head?_cons, Option.any_some, hr]
            rfl
          · rw [countGroups, if_pos hr, hclosed]
      | false =>
          simp only [countGroups, hr, Bool.false_eq_true, if_false, if_true, hopen, List.countP_cons,
            List.head?_cons, Option.any_some, Bool.not_false, Nat.add_zero, and_self]

end Record

namespace UndoLog

variable {l m : UndoLog}

theorem WellFormed.normal_boundary (hl : l.WellFormed) (h : Record.Normal l.records) :
    Record.Normal l.boundary.records := by
  rw [hl.records_boundary]
  split
  · exact h.close
  · exact h

theorem WellFormed.normal_cutBack (hl : l.WellFormed) (h : Record.Normal l.records)
    (soft strong : Nat) : Record.Normal (l.cutBack soft strong).2.records := by
  obtain ⟨tail, hextends, -⟩ := hl.extends_cutBack soft strong
  rw [hextends.records] at h
  rcases hextends.apart with rfl | ⟨-, older, rfl⟩
  · rwa [List.append_nil] at h
  · exact h.of_cut

theorem records_clear (l : UndoLog) : l.clear.records = [] := by
  cases harena : l.arena with
  | none => rw [UndoLog.clear, harena]; rfl
  | some a => rw [UndoLog.clear, harena]; rfl

theorem Remains.wellFormed (hr : l.Remains m) (hl : l.WellFormed) : m.WellFormed := by
  rcases hr with rfl | rfl | rfl
  · exact hl
  · exact hl.clear
  · exact hl.disable

theorem Remains.normal (hr : l.Remains m) (h : Record.Normal l.records) :
    Record.Normal m.records := by
  rcases hr with rfl | rfl | rfl
  · exact h
  · rw [records_clear]
    exact Record.normal_nil
  · exact Record.normal_nil

theorem WellFormed.normal_uncalled (hl : l.WellFormed) (h : Record.Normal l.records)
    (hs : l.suspended = false) {limits : Limits}
    (huncalled : limits.handler = none ∨ passes limits.outer l.newestCost = false) :
    Record.Normal (l.truncate limits).log.records := by
  have hquiet : limits.handler.map Handler.run = none ∨
      passes limits.outer l.newestCost = false :=
    huncalled.imp_left fun hnone => by rw [hnone, Option.map_none]
  rw [UndoLog.truncate, truncateWith_of_uncalled hs _ _ hquiet]
  exact hl.normal_cutBack h _ _

/-- A truncation cuts the log at a boundary, or what its handler leaves of it. -/
theorem WellFormed.normal_truncate (hl : l.WellFormed) (h : Record.Normal l.records)
    (limits : Limits) : Record.Normal (l.truncate limits).log.records := by
  cases hs : l.suspended with
  | true =>
      rw [UndoLog.truncate, truncateWith_of_suspended hs]
      exact h
  | false =>
      cases hpasses : passes limits.outer l.newestCost with
      | false => exact hl.normal_uncalled h hs (.inr hpasses)
      | true =>
          cases hhandler : limits.handler with
          | none => exact hl.normal_uncalled h hs (.inl hhandler)
          | some handler =>
              obtain ⟨actions, handled⟩ := handler
              have henabled : isEnabled { l with suspended := true } = true :=
                enabled_of_passes hpasses
              have hremains := (withstands henabled rfl actions).remains.resume hs
              obtain ⟨-, hsettled, hdeclined⟩ := truncate_of_called hs hhandler hpasses
              have hleft := hremains.normal h
              cases handled with
              | true =>
                  rw [(hsettled rfl).2]
                  exact hleft
              | false =>
                  rw [(hdeclined rfl).2]
                  exact (hremains.wellFormed hl).normal_uncalled hleft rfl (.inl rfl)

end UndoLog

end Editing
