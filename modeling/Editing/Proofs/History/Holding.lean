import Editing.History.PlainLog
import Editing.Proofs.History.Handling
import Editing.Proofs.History.Severing

/-!
# Where cursors may be

A cursor names a slot behind a boundary, and the record in this slot is a change. What is put on top
of the chain does not matter to it, since an insertion is merged only into the newest record, which
is in front of that boundary; and when the log is cut, either the slot is kept or the cursor is at
the end. So no cursor is left that names a slot which has been used again.
-/

namespace Editing

namespace Record

variable {r : Record} {rs : List Record}

/-- No two boundaries lie side by side. -/
def Separate (rs : List Record) : Prop :=
  ¬[boundary, boundary] <:+: rs

theorem separate_nil : Separate [] := fun h => by
  cases List.infix_nil.mp h

theorem Separate.cons (h : Separate rs) (hr : r ≠ .boundary) : Separate (r :: rs) := by
  intro hpart
  rcases List.infix_cons_iff.mp hpart with hfront | hpart
  · exact hr (List.cons_prefix_cons.mp hfront).1.symm
  · exact h hpart

theorem Separate.of_part {ss : List Record} (h : Separate rs) (hs : ss <:+: rs) : Separate ss :=
  fun hpart => h (hpart.trans hs)

theorem Separate.take (h : Separate rs) (k : Nat) : Separate (rs.take k) :=
  h.of_part (List.take_prefix k rs).isInfix

theorem Separate.close (h : Separate rs) : Separate (Record.close rs) := by
  cases rs with
  | nil => exact h
  | cons r rs =>
      rw [Record.close]
      split
      · exact h
      · rename_i hr
        intro hpart
        rcases List.infix_cons_iff.mp hpart with hfront | hpart
        · have hboundary := (List.cons_prefix_cons.mp (List.cons_prefix_cons.mp hfront).2).1
          exact hr (hboundary ▸ rfl)
        · exact h hpart

theorem Separate.addInsert (h : Separate rs) (pos length : Nat) :
    Separate (Record.addInsert pos length rs) := by
  have happart : Separate (.insert pos length :: rs) := h.cons Record.noConfusion
  cases rs with
  | nil => exact happart
  | cons r rs =>
      cases r with
      | insert start n =>
          rw [Record.addInsert]
          split
          · exact (h.of_part (List.suffix_cons _ rs).isInfix).cons Record.noConfusion
          · exact happart
      | delete _ _ _ => exact happart
      | property _ _ _ _ => exact happart
      | boundary => exact happart

end Record

namespace UndoLog

variable {l m : UndoLog} {c : Cursor} {i : Nat} {r : Record}

/-! ## Cursors and marks -/

/-- The mark of a cursor. -/
def markOf (l : UndoLog) (c : Cursor) : Mark :=
  match l.arena with
  | none => .idle
  | some a => c.mark a

/-- A cursor that goes on with a record goes on behind a boundary, with a change. A log that is
disabled has no group to undo. -/
def Holds (l : UndoLog) : Cursor → Prop
  | .idle => True
  | .resume i => ∃ newer b r older, l.chain = newer ++ (b, .boundary) :: (i, r) :: older ∧
      r ≠ .boundary
  | .exhausted => l.isEnabled = true

/-- What every log keeps up: a well-formed arena, groups set apart by one boundary each, and a
cursor behind one of these. -/
structure Sound (l : UndoLog) : Prop where
  wellFormed : l.WellFormed
  separate : Record.Separate l.records
  holds : l.Holds l.cursor

theorem markOf_idle (l : UndoLog) : l.markOf .idle = .idle := by
  cases harena : l.arena <;> simp only [markOf, harena, Cursor.mark]

theorem markOf_exhausted (h : l.isEnabled = true) : l.markOf .exhausted = .exhausted := by
  obtain ⟨a, harena⟩ := exists_arena_of_enabled h
  simp only [markOf, harena, Cursor.mark]

/-- The mark counts the record in the slot that the cursor names, and all older ones. -/
theorem WellFormed.markOf_resume (h : l.WellFormed) {newer older : List (Nat × Record)}
    (hc : l.chain = newer ++ (i, r) :: older) :
    l.markOf (.resume i) = .remaining (older.length + 1) := by
  cases harena : l.arena with
  | none =>
      rw [chain, harena] at hc
      exact absurd hc.symm (List.append_ne_nil_of_right_ne_nil newer (List.cons_ne_nil _ _))
  | some a =>
      rw [chain_of_arena harena] at hc
      simp only [markOf, harena, Cursor.mark, (h.arena a harena).chainFrom_eq hc, List.length_cons]

/-- A cursor does not notice what becomes of the records on top, if no boundary is among them. -/
theorem Holds.of_top (h : l.Holds c) (top top' : List (Nat × Record)) {rest : List (Nat × Record)}
    (hl : l.WellFormed) (hm : m.WellFormed) (he : m.isEnabled = l.isEnabled)
    (hchain : l.chain = top ++ rest) (hchain' : m.chain = top' ++ rest)
    (htop : ∀ e ∈ top, e.2 ≠ .boundary) : m.Holds c ∧ m.markOf c = l.markOf c := by
  cases c with
  | idle => exact ⟨trivial, by rw [markOf_idle, markOf_idle]⟩
  | exhausted =>
      have h' : m.isEnabled = true := he.trans h
      exact ⟨h', by rw [markOf_exhausted h, markOf_exhausted h']⟩
  | resume i =>
      obtain ⟨newer, b, r, older, hsplit, hr⟩ := h
      -- The boundary in front of what the cursor names is not on top, and so neither is that.
      obtain ⟨between, hrest⟩ : ∃ between, rest = between ++ (b, .boundary) :: (i, r) :: older := by
        rcases List.append_eq_append_iff.mp (hchain.symm.trans hsplit) with
          ⟨between, -, hrest⟩ | ⟨later, htop', hrest⟩
        · exact ⟨between, hrest⟩
        · cases later with
          | nil => exact ⟨[], hrest.symm⟩
          | cons e later =>
              have heq : (b, .boundary) = e := (List.cons.inj hrest).1
              refine absurd rfl (htop (b, .boundary) ?_)
              rw [htop', heq]
              exact List.mem_append_right newer List.mem_cons_self
      have hsplit' : m.chain = (top' ++ between) ++ (b, .boundary) :: (i, r) :: older := by
        rw [hchain', hrest, List.append_assoc]
      refine ⟨⟨_, b, r, older, hsplit', hr⟩, ?_⟩
      rw [List.append_cons] at hsplit hsplit'
      rw [hm.markOf_resume hsplit', hl.markOf_resume hsplit]

/-- A cursor never goes on with the newest record. -/
theorem Holds.ne_newest (h : l.Holds c) (hl : l.WellFormed) {e : Nat × Record}
    {es : List (Nat × Record)} (hc : l.chain = e :: es) : c ≠ .resume e.1 := by
  rintro rfl
  obtain ⟨newer, b, r, older, hsplit, -⟩ := h
  have holder : e.1 ∈ es.map Prod.fst := by
    rw [hc] at hsplit
    cases newer with
    | nil =>
        rw [(List.cons.inj hsplit).2, List.map_cons]
        exact List.mem_cons_self
    | cons x newer =>
        rw [(List.cons.inj hsplit).2, List.append_eq, List.map_append]
        exact List.mem_append_right _ (List.mem_cons_of_mem _ List.mem_cons_self)
  have hnodup := hl.nodup_chain
  rw [hc, List.map_cons, List.nodup_cons] at hnodup
  exact hnodup.1 holder

/-! ## Records put on top -/

/-- What becomes of a cursor while records are put on top of a log: it goes on naming the same one,
and so does any other that held. -/
structure Keeps (l m : UndoLog) : Prop where
  enabled : m.isEnabled = l.isEnabled
  holds : ∀ c, l.Holds c → m.Holds c ∧ m.markOf c = l.markOf c

theorem Keeps.refl (l : UndoLog) : l.Keeps l := ⟨rfl, fun _ h => ⟨h, rfl⟩⟩

theorem WellFormed.keeps_record (h : l.WellFormed) (r : Record) : l.Keeps (l.record r) := by
  cases ha : l.acceptsRecords with
  | false =>
      rw [record_of_rejects ha]
      exact .refl l
  | true =>
      obtain ⟨j, -, hc⟩ := h.chain_record ha r
      exact ⟨isEnabled_record l r, fun c hl => hl.of_top [] [(j, r)] h
        (h.record r) (isEnabled_record l r) rfl hc fun _ he => absurd he List.not_mem_nil⟩

theorem WellFormed.keeps_recordInsert (h : l.WellFormed) (pos length : Nat) :
    l.Keeps (l.recordInsert pos length) := by
  cases ha : l.acceptsRecords with
  | false =>
      rw [recordInsert_of_rejects ha]
      exact .refl l
  | true =>
      rcases h.chain_recordInsert ha pos length with
        ⟨i, start, n, j, es, hc, -, hmerged⟩ | ⟨hapart, -⟩
      · refine ⟨isEnabled_recordInsert l pos length, fun c hl => hl.of_top
          [(i, .insert start n)] [(j, .insert start (n + length))] h
          (h.recordInsert pos length) (isEnabled_recordInsert l pos length) hc hmerged ?_⟩
        intro e he
        rw [List.mem_singleton.mp he]
        exact Record.noConfusion
      · rw [h.recordInsert_apart hapart]
        exact h.keeps_record _

theorem WellFormed.keeps_boundary (h : l.WellFormed) : l.Keeps l.boundary := by
  obtain ⟨closing, hc⟩ := h.chain_boundary
  exact ⟨isEnabled_boundary l, fun c hl => hl.of_top [] closing h h.boundary
    (isEnabled_boundary l) rfl hc fun _ he => absurd he List.not_mem_nil⟩

theorem Holds.markOf_ne {c : Cursor} (h : l.Holds c) (hl : l.WellFormed)
    {e : Nat × Record} {es : List (Nat × Record)} (hc : l.chain = e :: es) :
    l.markOf c ≠ .remaining (es.length + 1) := by
  cases c with
  | idle =>
      rw [markOf_idle]
      exact Mark.noConfusion
  | exhausted =>
      rw [markOf_exhausted h]
      exact Mark.noConfusion
  | resume i =>
      obtain ⟨newer, b, r, older, hsplit, -⟩ := h
      have hlength := congrArg List.length (hc.symm.trans hsplit)
      rw [List.append_cons] at hsplit
      rw [hl.markOf_resume hsplit]
      simp only [List.length_cons, List.length_append] at hlength
      intro hmark
      have heq := Mark.remaining.inj hmark
      omega

/-! ## Groups taken and records cut off -/

/-- The cursor behind a group is the mark behind its records, and it is one that holds. -/
theorem Sound.cursorBehind (h : l.Sound) (he : l.isEnabled = true) :
    l.Holds (cursorBehind l.behindEntries) ∧
      l.markOf (cursorBehind l.behindEntries) =
        PlainLog.markBehind (l.behindEntries.map Prod.snd) := by
  obtain ⟨newer, hsplit⟩ := h.wellFormed.split_next
  rw [← List.append_assoc] at hsplit
  rcases hbehind : l.behindEntries with _ | ⟨⟨b, q⟩, _ | ⟨⟨i, r⟩, older⟩⟩
  · exact ⟨he, markOf_exhausted he⟩
  · exact ⟨he, markOf_exhausted he⟩
  · have hq : q = .boundary := by
      rcases l.behind_closed with hnil | ⟨ss, hcons⟩
      · rw [hbehind] at hnil
        cases hnil
      · rw [hbehind] at hcons
        exact (List.cons.inj hcons).1
    rw [hbehind, hq] at hsplit
    -- Behind the boundary stands a change, or two boundaries would lie side by side.
    have hr : r ≠ .boundary := by
      rintro rfl
      refine h.separate ⟨(newer ++ l.nextEntries).map Prod.snd, older.map Prod.snd, ?_⟩
      rw [records_eq, hsplit]
      simp only [List.map_append, List.map_cons, List.append_assoc, List.cons_append,
        List.nil_append]
    refine ⟨⟨_, b, r, older, hsplit, hr⟩, ?_⟩
    rw [List.append_cons] at hsplit
    exact (h.wellFormed.markOf_resume hsplit).trans (by simp [PlainLog.markBehind])

theorem mem_drop_iff {front older : List (Nat × Record)} {e : Nat × Record}
    (h : ((front ++ e :: older).map Prod.fst).Nodup) (k : Nat) :
    e.1 ∈ ((front ++ e :: older).drop k).map Prod.fst ↔ k ≤ front.length := by
  rw [List.drop_append, List.map_append, List.mem_append]
  rw [List.map_append, List.map_cons, List.nodup_append] at h
  obtain ⟨-, holder, hapart⟩ := h
  constructor
  · intro hmem
    rcases Nat.lt_or_ge front.length k with hlt | hle
    · obtain ⟨j, rfl⟩ := Nat.exists_eq_add_of_lt hlt
      rcases hmem with hfront | hback
      · rw [List.drop_of_length_le (Nat.le_of_lt hlt)] at hfront
        cases hfront
      · have hshift : front.length + j + 1 - front.length = j + 1 := by omega
        rw [hshift, List.drop_succ_cons] at hback
        exact absurd (List.map_subset _ (List.drop_subset j older) hback)
          (List.nodup_cons.mp holder).1
    · exact hle
  · intro hle
    rw [Nat.sub_eq_zero_of_le hle]
    exact Or.inr List.mem_cons_self

/-- What a cursor becomes when only so many of the newest entries are kept. -/
theorem Holds.cut {k : Nat} (h : l.Holds l.cursor) (hl : l.WellFormed) (hm : m.WellFormed)
    (he : m.isEnabled = true) (hk : k < l.chain.length) (hchain : m.chain = l.chain.take k)
    (hcursor : m.cursor =
      match l.cursor with
      | .resume i => if i ∈ (l.chain.drop k).map Prod.fst then .exhausted else .resume i
      | cursor => cursor) :
    m.Holds m.cursor ∧
      m.markOf m.cursor = Mark.without (l.chain.length - k) (l.markOf l.cursor) := by
  cases hc : l.cursor with
  | idle =>
      rw [hc] at hcursor
      rw [hcursor, markOf_idle, markOf_idle]
      exact ⟨trivial, rfl⟩
  | exhausted =>
      rw [hc] at hcursor h
      rw [hcursor, markOf_exhausted he, markOf_exhausted h]
      exact ⟨he, rfl⟩
  | resume i =>
      rw [hc] at hcursor h
      obtain ⟨newer, b, r, older, hsplit, hr⟩ := h
      have hfront := hsplit
      rw [List.append_cons] at hfront
      have hlength : l.chain.length = newer.length + 1 + (older.length + 1) := by
        rw [hfront, List.length_append, List.length_append, List.length_singleton,
          List.length_cons]
      have hmem := mem_drop_iff (hfront ▸ hl.nodup_chain) k
      rw [← hfront, List.length_append, List.length_singleton] at hmem
      simp only [hmem] at hcursor
      rw [hl.markOf_resume hfront, hlength, Mark.without]
      by_cases hin : k ≤ newer.length + 1
      · have hlost : older.length + 1 ≤ newer.length + 1 + (older.length + 1) - k := by omega
        rw [if_pos hin] at hcursor
        rw [hcursor, if_pos hlost, markOf_exhausted he]
        exact ⟨he, rfl⟩
      · -- What the cursor names is kept, with the boundary in front of it.
        obtain ⟨j, rfl⟩ := Nat.exists_eq_add_of_lt (Nat.lt_of_not_le hin)
        have htake : m.chain = newer ++ (b, .boundary) :: (i, r) :: older.take j := by
          have hrest : newer.length + 1 + j + 1 - newer.length = j + 2 := by omega
          rw [hchain, hsplit, List.take_append, List.take_of_length_le (by omega), hrest,
            List.take_succ_cons, List.take_succ_cons]
        have hkept : ¬older.length + 1 ≤
            newer.length + 1 + (older.length + 1) - (newer.length + 1 + j + 1) := by omega
        rw [if_neg hin] at hcursor
        rw [hcursor, if_neg hkept]
        refine ⟨⟨newer, b, r, _, htake, hr⟩, ?_⟩
        rw [List.append_cons] at htake
        rw [hm.markOf_resume htake, List.length_take, Nat.min_eq_left (by omega)]
        congr 1
        omega

/-! ## What keeps a log sound -/

theorem empty_sound : empty.Sound := ⟨empty_wellFormed, Record.separate_nil, trivial⟩

theorem Sound.disable (h : l.Sound) : l.disable.Sound :=
  ⟨h.wellFormed.disable, Record.separate_nil, trivial⟩

theorem Sound.clear (h : l.Sound) : l.clear.Sound := by
  refine ⟨h.wellFormed.clear, ?_, trivial⟩
  cases harena : l.arena with
  | none => rw [UndoLog.clear, harena]; exact Record.separate_nil
  | some a => rw [UndoLog.clear, harena]; exact Record.separate_nil

theorem Sound.enable (h : l.Sound) : l.enable.Sound := by
  cases harena : l.arena with
  | none =>
      have heq : l.enable = { l with arena := some .empty, cursor := .idle } := by
        simp only [UndoLog.enable, harena]
      have hw := h.wellFormed.enable
      rw [heq] at hw ⊢
      exact ⟨hw, Record.separate_nil, trivial⟩
  | some a =>
      simp only [UndoLog.enable, harena]
      exact h

theorem Sound.of_remains (h : l.Sound) (hr : l.Remains m) : m.Sound := by
  rcases hr with rfl | rfl | rfl
  · exact h
  · exact h.clear
  · exact h.disable

theorem Sound.suspend (h : l.Sound) (b : Bool) : Sound { l with suspended := b } :=
  ⟨(CutTo.suspend l b).1 h.wellFormed, h.separate, h.holds⟩

theorem Sound.record (h : l.Sound) (hr : r ≠ .boundary) : (l.record r).Sound := by
  refine ⟨h.wellFormed.record r, ?_, ?_⟩
  · rw [h.wellFormed.records_record]
    split
    · exact h.separate.cons hr
    · exact h.separate
  · cases ha : l.acceptsRecords with
    | false =>
        rw [record_of_rejects ha]
        exact h.holds
    | true =>
        rw [cursor_record ha]
        split
        · exact ((h.wellFormed.keeps_record r).holds _ h.holds).1
        · trivial

theorem Sound.recordInsert (h : l.Sound) (pos length : Nat) :
    (l.recordInsert pos length).Sound := by
  refine ⟨h.wellFormed.recordInsert pos length, ?_, ?_⟩
  · rw [h.wellFormed.records_recordInsert]
    split
    · exact h.separate.addInsert pos length
    · exact h.separate
  · cases ha : l.acceptsRecords with
    | false =>
        rw [recordInsert_of_rejects ha]
        exact h.holds
    | true =>
        rw [h.wellFormed.cursor_recordInsert ha pos length fun _ _ =>
          h.holds.ne_newest h.wellFormed]
        split
        · exact ((h.wellFormed.keeps_recordInsert pos length).holds _ h.holds).1
        · trivial

theorem Sound.boundary (h : l.Sound) : l.boundary.Sound := by
  refine ⟨h.wellFormed.boundary, ?_, ?_⟩
  · rw [h.wellFormed.records_boundary]
    split
    · exact h.separate.close
    · exact h.separate
  · rw [cursor_boundary]
    exact ((h.wellFormed.keeps_boundary).holds _ h.holds).1

theorem keeps_nextGroup (l : UndoLog) : l.Keeps l.nextGroup.2 := by
  have henabled : l.nextGroup.2.isEnabled = l.isEnabled := by
    rw [isEnabled, arena_nextGroup, isEnabled]
  refine ⟨henabled, fun c h => ⟨?_, ?_⟩⟩
  · cases c with
    | idle => trivial
    | exhausted => exact henabled.trans h
    | resume i =>
        obtain ⟨newer, b, r, older, hsplit, hr⟩ := h
        exact ⟨newer, b, r, older, (chain_nextGroup l).trans hsplit, hr⟩
  · rw [markOf, arena_nextGroup, markOf]

theorem Sound.nextGroup (h : l.Sound) : l.nextGroup.2.Sound := by
  refine ⟨h.wellFormed.nextGroup, ?_, ?_⟩
  · rw [records_nextGroup]
    exact h.separate
  · cases he : l.isEnabled with
    | false =>
        rw [nextGroup_of_disabled he]
        exact h.holds
    | true =>
        have hcursor : l.nextGroup.2.cursor = UndoLog.cursorBehind l.behindEntries := by
          rw [nextGroup_eq he]
        rw [hcursor]
        exact ((keeps_nextGroup l).holds _ (h.cursorBehind he).1).1

theorem Sound.beginReplay (h : l.Sound) : l.beginReplay.Sound :=
  ⟨h.wellFormed.beginReplay, h.separate, h.holds⟩

theorem Sound.endReplay (h : l.Sound) : l.endReplay.Sound :=
  ⟨h.wellFormed.endReplay, h.separate, h.holds⟩

theorem Holds.mem (h : l.Holds c) {i : Nat} (hc : c = .resume i) :
    ∃ r, (i, r) ∈ l.chain ∧ r ≠ .boundary := by
  subst hc
  obtain ⟨newer, b, r, older, hsplit, hr⟩ := h
  refine ⟨r, ?_, hr⟩
  rw [hsplit]
  exact List.mem_append_right newer (List.mem_cons_of_mem _ List.mem_cons_self)

theorem Sound.rewind (h : l.Sound) (hc : l.Holds c) : (l.rewind c).Sound := by
  refine ⟨h.wellFormed.rewind fun i hi => ?_, h.separate, hc⟩
  obtain ⟨r, hmem, -⟩ := hc.mem hi
  exact List.mem_map_of_mem hmem

end UndoLog

end Editing
