import Editing.History.Truncation
import Editing.Proofs.History.Chain

/-!
# What is logged

Every operation on an undo log is described by what it does to the chain of records. Records are
only put on top, merged at the top, or dropped from the bottom, so the cursor of a log goes on
naming the same record.
-/

namespace Editing

namespace Record

/-- The records after an insertion, which is merged into the newest one where it goes on. -/
def addInsert (pos length : Nat) : List Record → List Record
  | .insert start n :: rs =>
      if start + n = pos then .insert start (n + length) :: rs
      else .insert pos length :: .insert start n :: rs
  | rs => .insert pos length :: rs

/-- The records with the newest group closed. -/
def close : List Record → List Record
  | [] => []
  | r :: rs => if r.isBoundary then r :: rs else .boundary :: r :: rs

end Record

namespace UndoLog

variable {l : UndoLog}

/-- The slots and records of a log, newest first. -/
def chain (l : UndoLog) : List (Nat × Record) :=
  match l.arena with
  | none => []
  | some a => a.chain

/-- What an undo may still take back, from where the next one starts to look. -/
def ahead (l : UndoLog) : List (Nat × Record) :=
  match l.arena with
  | none => []
  | some a => a.chainFrom (l.resumption a)

/-- The arena is well formed, and the cursor names a slot on its chain. -/
structure WellFormed (l : UndoLog) : Prop where
  arena : ∀ a, l.arena = some a → a.WellFormed
  cursor : ∀ i, l.cursor = .resume i → i ∈ l.chain.map Prod.fst

theorem records_eq (l : UndoLog) : l.records = l.chain.map Prod.snd := by
  rcases l with ⟨_ | a, _, _, _⟩ <;> rfl

theorem chain_of_arena {a : Arena} (h : l.arena = some a) : l.chain = a.chain := by
  rw [chain, h]

theorem chain_of_disabled (h : l.isEnabled = false) : l.chain = [] := by
  have harena : l.arena = none := by simpa [isEnabled] using h
  rw [chain, harena]

theorem records_of_disabled (h : l.isEnabled = false) : l.records = [] := by
  rw [records_eq, chain_of_disabled h, List.map_nil]

theorem empty_wellFormed : empty.WellFormed where
  arena a h := by
    cases h
    exact Arena.empty_wellFormed
  cursor i h := nomatch h

/-! ## Records put on top -/

theorem isEnabled_of_accepts (h : l.acceptsRecords = true) : l.isEnabled = true :=
  (Bool.and_eq_true_iff.mp h).1

theorem suspended_of_accepts (h : l.acceptsRecords = true) : l.suspended = false := by
  simpa using (Bool.and_eq_true_iff.mp h).2

theorem exists_arena_of_enabled (h : l.isEnabled = true) : ∃ a, l.arena = some a :=
  Option.isSome_iff_exists.mp h

theorem accepts_of_enabled (h : l.isEnabled = true) (hs : l.suspended = false) :
    l.acceptsRecords = true := by
  rw [acceptsRecords, hs, Bool.not_false, Bool.and_true]
  exact h

theorem record_eq {a : Arena} (ha : l.arena = some a) (hs : l.suspended = false) (r : Record) :
    l.record r =
      { l with arena := some (a.push r), cursor := if l.replaying then l.cursor else .idle } := by
  simp [record, ha, hs]

theorem record_of_rejects (h : l.acceptsRecords = false) (r : Record) : l.record r = l := by
  rcases l with ⟨_ | a, suspended, replaying, cursor⟩
  · cases suspended <;> rfl
  · have hs : suspended = true := by simpa [acceptsRecords] using h
    subst hs
    rfl

@[simp] theorem suspended_record (l : UndoLog) (r : Record) :
    (l.record r).suspended = l.suspended := by
  rcases l with ⟨_ | a, _ | _, _, _⟩ <;> rfl

@[simp] theorem replaying_record (l : UndoLog) (r : Record) :
    (l.record r).replaying = l.replaying := by
  rcases l with ⟨_ | a, _ | _, _, _⟩ <;> rfl

@[simp] theorem isEnabled_record (l : UndoLog) (r : Record) :
    (l.record r).isEnabled = l.isEnabled := by
  rcases l with ⟨_ | a, _ | _, _, _⟩ <;> rfl

theorem acceptsRecords_record (l : UndoLog) (r : Record) :
    (l.record r).acceptsRecords = l.acceptsRecords := by
  rcases l with ⟨_ | a, _ | _, _, _⟩ <;> rfl

theorem cursor_record (h : l.acceptsRecords = true) (r : Record) :
    (l.record r).cursor = if l.replaying then l.cursor else .idle := by
  obtain ⟨a, ha⟩ := exists_arena_of_enabled (isEnabled_of_accepts h)
  rw [record_eq ha (suspended_of_accepts h)]

theorem WellFormed.chain_record (h : l.WellFormed) (ha : l.acceptsRecords = true) (r : Record) :
    ∃ i, i ∉ l.chain.map Prod.fst ∧ (l.record r).chain = (i, r) :: l.chain := by
  obtain ⟨a, harena⟩ := exists_arena_of_enabled (isEnabled_of_accepts ha)
  obtain ⟨-, i, hi, hc⟩ := (h.arena a harena).push r
  rw [record_eq harena (suspended_of_accepts ha), chain_of_arena harena]
  exact ⟨i, hi, hc⟩

theorem WellFormed.record (h : l.WellFormed) (r : Record) : (l.record r).WellFormed := by
  cases ha : l.acceptsRecords with
  | false => rwa [record_of_rejects ha]
  | true =>
      obtain ⟨a, harena⟩ := exists_arena_of_enabled (isEnabled_of_accepts ha)
      obtain ⟨i, -, hc⟩ := h.chain_record ha r
      constructor
      · intro b hb
        rw [record_eq harena (suspended_of_accepts ha)] at hb
        cases hb
        exact ((h.arena a harena).push r).1
      · intro j hj
        rw [cursor_record ha] at hj
        rw [hc]
        split at hj
        · exact List.mem_cons_of_mem _ (h.cursor j hj)
        · cases hj

theorem WellFormed.records_record (h : l.WellFormed) (r : Record) :
    (l.record r).records = if l.acceptsRecords then r :: l.records else l.records := by
  cases ha : l.acceptsRecords with
  | false => rw [record_of_rejects ha, if_neg Bool.false_ne_true]
  | true =>
      obtain ⟨i, -, hc⟩ := h.chain_record ha r
      rw [records_eq, hc, records_eq, if_pos rfl]
      rfl

/-! ## Insertions, which may be merged -/

theorem recordInsert_of_rejects (h : l.acceptsRecords = false) (pos length : Nat) :
    l.recordInsert pos length = l := by
  rcases l with ⟨_ | a, suspended, replaying, cursor⟩
  · cases suspended <;> rfl
  · have hs : suspended = true := by simpa [acceptsRecords] using h
    subst hs
    rfl

/-- An insertion that goes on where the newest record ends replaces it by the merged record. -/
theorem WellFormed.recordInsert_merged (h : l.WellFormed) (ha : l.acceptsRecords = true)
    {i start n pos : Nat} {es : List (Nat × Record)} (hc : l.chain = (i, .insert start n) :: es)
    (hp : start + n = pos) (length : Nat) :
    ∃ b : Arena, b.WellFormed ∧ b.chain = es ∧ l.recordInsert pos length =
      { l with
        arena := some (b.push (.insert start (n + length)))
        cursor :=
          if l.replaying then if l.cursor = Cursor.resume i then .exhausted else l.cursor
          else .idle } := by
  obtain ⟨a, harena⟩ := exists_arena_of_enabled (isEnabled_of_accepts ha)
  rw [chain_of_arena harena] at hc
  obtain ⟨b, hpop, hb, hbc⟩ := (h.arena a harena).pop hc
  refine ⟨b, hb, hbc, ?_⟩
  simp [UndoLog.recordInsert, UndoLog.record, suspended_of_accepts ha, harena, hpop, hp]

theorem WellFormed.recordInsert_apart (h : l.WellFormed) {pos : Nat}
    (hc : ∀ i start n es, l.chain = (i, .insert start n) :: es → start + n ≠ pos) (length : Nat) :
    l.recordInsert pos length = l.record (.insert pos length) := by
  cases hs : l.suspended with
  | true => simp [UndoLog.recordInsert, UndoLog.record, hs]
  | false =>
      cases harena : l.arena with
      | none => simp [UndoLog.recordInsert, UndoLog.record, harena]
      | some a =>
          rw [chain_of_arena harena] at hc
          have ha := h.arena a harena
          cases hchain : a.chain with
          | nil => simp [UndoLog.recordInsert, hs, harena, Arena.pop_of_chain_nil ha hchain]
          | cons e es =>
              obtain ⟨i, r⟩ := e
              obtain ⟨b, hpop, -⟩ := ha.pop hchain
              cases r with
              | insert start n =>
                  have hne := hc i start n es hchain
                  simp [UndoLog.recordInsert, hs, harena, hpop, hne]
              | delete _ _ _ => simp [UndoLog.recordInsert, hs, harena, hpop]
              | property _ _ _ _ => simp [UndoLog.recordInsert, hs, harena, hpop]
              | boundary => simp [UndoLog.recordInsert, hs, harena, hpop]

/-- Either the newest record is an insertion that ends at the position, or an insertion there is
recorded on its own. -/
theorem merges_or_apart (l : UndoLog) (pos : Nat) :
    (∃ i start n es, l.chain = (i, .insert start n) :: es ∧ start + n = pos) ∨
      ∀ i start n es, l.chain = (i, .insert start n) :: es → start + n ≠ pos := by
  by_cases h : ∃ i start n es, l.chain = (i, .insert start n) :: es ∧ start + n = pos
  · exact Or.inl h
  · exact Or.inr fun i start n es hc hp => h ⟨i, start, n, es, hc, hp⟩

@[simp] theorem suspended_recordInsert (l : UndoLog) (pos length : Nat) :
    (l.recordInsert pos length).suspended = l.suspended := by
  unfold recordInsert
  repeat' split
  all_goals simp

@[simp] theorem replaying_recordInsert (l : UndoLog) (pos length : Nat) :
    (l.recordInsert pos length).replaying = l.replaying := by
  unfold recordInsert
  repeat' split
  all_goals simp

@[simp] theorem isEnabled_recordInsert (l : UndoLog) (pos length : Nat) :
    (l.recordInsert pos length).isEnabled = l.isEnabled := by
  cases h : l.arena with
  | none => simp [recordInsert, record, isEnabled, h]
  | some a =>
      have hl : l.isEnabled = true := by rw [isEnabled, h, Option.isSome_some]
      unfold recordInsert
      repeat' split
      all_goals simp only [isEnabled_record, hl]
      all_goals rfl

theorem acceptsRecords_recordInsert (l : UndoLog) (pos length : Nat) :
    (l.recordInsert pos length).acceptsRecords = l.acceptsRecords := by
  have henabled := isEnabled_recordInsert l pos length
  rw [isEnabled, isEnabled] at henabled
  rw [acceptsRecords, acceptsRecords, henabled, suspended_recordInsert]

theorem WellFormed.recordInsert (h : l.WellFormed) (pos length : Nat) :
    (l.recordInsert pos length).WellFormed := by
  cases ha : l.acceptsRecords with
  | false => rwa [recordInsert_of_rejects ha]
  | true =>
      rcases merges_or_apart l pos with ⟨i, start, n, es, hc, hp⟩ | hc
      · obtain ⟨b, hb, hbc, heq⟩ := h.recordInsert_merged ha hc hp length
        obtain ⟨hpushed, k, -, hk⟩ := hb.push (.insert start (n + length))
        rw [heq]
        refine ⟨fun a hab => Option.some.inj hab ▸ hpushed, fun j hj => ?_⟩
        -- the slot just popped is not named any more, and no other one has left the chain
        have hcursor : l.cursor = .resume j ∧ j ≠ i := by
          by_cases hr : l.replaying
          · by_cases hi : l.cursor = .resume i
            · simp [hr, hi] at hj
            · have hj' : l.cursor = .resume j := by simpa [hr, hi] using hj
              exact ⟨hj', fun hji => hi (hji ▸ hj')⟩
          · simp [hr] at hj
        have hmem := h.cursor j hcursor.1
        rw [hc] at hmem
        change j ∈ (b.push _).chain.map Prod.fst
        rw [hk, hbc]
        exact List.mem_cons_of_mem _ ((List.mem_cons.mp hmem).resolve_left hcursor.2)
      · rw [h.recordInsert_apart hc]
        exact h.record _

/-- What an insertion does to the chain: one entry more, or the newest one replaced. -/
theorem WellFormed.chain_recordInsert (h : l.WellFormed) (ha : l.acceptsRecords = true)
    (pos length : Nat) :
    (∃ i start n j es, l.chain = (i, .insert start n) :: es ∧ start + n = pos ∧
      (l.recordInsert pos length).chain = (j, .insert start (n + length)) :: es) ∨
    ((∀ i start n es, l.chain = (i, .insert start n) :: es → start + n ≠ pos) ∧
      ∃ j, (l.recordInsert pos length).chain = (j, .insert pos length) :: l.chain) := by
  rcases merges_or_apart l pos with ⟨i, start, n, es, hc, hp⟩ | hc
  · obtain ⟨b, hb, hbc, heq⟩ := h.recordInsert_merged ha hc hp length
    obtain ⟨j, -, hj⟩ := hb.push (.insert start (n + length)) |>.2
    refine Or.inl ⟨i, start, n, j, es, hc, hp, ?_⟩
    rw [heq]
    change (b.push _).chain = _
    rw [hj, hbc]
  · obtain ⟨j, -, hj⟩ := h.chain_record ha (.insert pos length)
    exact Or.inr ⟨hc, j, h.recordInsert_apart hc length ▸ hj⟩

theorem WellFormed.cursor_recordInsert (h : l.WellFormed) (ha : l.acceptsRecords = true)
    (pos length : Nat) (hn : ∀ e es, l.chain = e :: es → l.cursor ≠ .resume e.1) :
    (l.recordInsert pos length).cursor = if l.replaying then l.cursor else .idle := by
  rcases merges_or_apart l pos with ⟨i, start, n, es, hc, hp⟩ | hc
  · obtain ⟨b, -, -, heq⟩ := h.recordInsert_merged ha hc hp length
    rw [heq]
    simp [hn _ _ hc]
  · rw [h.recordInsert_apart hc, cursor_record ha]

theorem WellFormed.cursor_recordInsert_idle (h : l.WellFormed) (ha : l.acceptsRecords = true)
    (hr : l.replaying = false) (pos length : Nat) :
    (l.recordInsert pos length).cursor = .idle := by
  rcases merges_or_apart l pos with ⟨i, start, n, es, hc, hp⟩ | hc
  · obtain ⟨b, -, -, heq⟩ := h.recordInsert_merged ha hc hp length
    rw [heq]
    simp [hr]
  · rw [h.recordInsert_apart hc, cursor_record ha, hr]
    rfl

theorem WellFormed.records_recordInsert (h : l.WellFormed) (pos length : Nat) :
    (l.recordInsert pos length).records =
      if l.acceptsRecords then Record.addInsert pos length l.records else l.records := by
  cases ha : l.acceptsRecords with
  | false => rw [recordInsert_of_rejects ha, if_neg Bool.false_ne_true]
  | true =>
      rw [if_pos rfl, records_eq, records_eq]
      rcases h.chain_recordInsert ha pos length with ⟨i, start, n, j, es, hc, hp, hl⟩ | ⟨hc, j, hl⟩
      · rw [hl, hc]
        simp [Record.addInsert, hp]
      · rw [hl]
        cases hchain : l.chain with
        | nil => rfl
        | cons e es =>
            obtain ⟨i, r⟩ := e
            cases r with
            | insert start n => simp [Record.addInsert, hc i start n es hchain]
            | delete _ _ _ => rfl
            | property _ _ _ _ => rfl
            | boundary => rfl

/-! ## Boundaries -/

@[simp] theorem suspended_boundary (l : UndoLog) : l.boundary.suspended = l.suspended := by
  unfold boundary
  repeat' split
  all_goals rfl

@[simp] theorem replaying_boundary (l : UndoLog) : l.boundary.replaying = l.replaying := by
  unfold boundary
  repeat' split
  all_goals rfl

@[simp] theorem cursor_boundary (l : UndoLog) : l.boundary.cursor = l.cursor := by
  unfold boundary
  repeat' split
  all_goals rfl

@[simp] theorem isEnabled_boundary (l : UndoLog) : l.boundary.isEnabled = l.isEnabled := by
  cases h : l.arena with
  | none => simp [boundary, isEnabled, h]
  | some a =>
      unfold boundary
      repeat' split
      all_goals simp [isEnabled, h]

/-- A boundary is put on top of a chain that ends with a change, and only there. -/
theorem WellFormed.boundary_eq (h : l.WellFormed) :
    (l.boundary = l ∧ (l.acceptsRecords = true → Record.close l.records = l.records)) ∨
      ∃ a i, l.acceptsRecords = true ∧ l.arena = some a ∧
        l.boundary = { l with arena := some (a.push .boundary) } ∧
        Record.close l.records = .boundary :: l.records ∧
        l.boundary.chain = (i, .boundary) :: l.chain := by
  cases hs : l.suspended with
  | true => exact Or.inl ⟨by simp [UndoLog.boundary, hs], by simp [acceptsRecords, hs]⟩
  | false =>
      cases harena : l.arena with
      | none => exact Or.inl ⟨by simp [UndoLog.boundary, harena], by simp [acceptsRecords, harena]⟩
      | some a =>
          have ha := h.arena a harena
          have hnewest := ha.newestRecord?_eq
          have hrecords : l.records = a.records := by rw [records, harena]
          cases hr : a.records with
          | nil =>
              rw [hr] at hnewest
              exact Or.inl
                ⟨by simp [UndoLog.boundary, harena, hnewest], by simp [hrecords, hr, Record.close]⟩
          | cons r rs =>
              rw [hr] at hnewest
              by_cases hb : r = .boundary
              · subst hb
                exact Or.inl ⟨by simp [UndoLog.boundary, harena, hnewest],
                  by simp [hrecords, hr, Record.close, Record.isBoundary]⟩
              · obtain ⟨-, i, -, hi⟩ := ha.push .boundary
                have heq : l.boundary = { l with arena := some (a.push .boundary) } := by
                  cases r <;> simp_all [UndoLog.boundary]
                refine Or.inr ⟨a, i, by simp [acceptsRecords, harena, hs], rfl, hs ▸ heq, ?_, ?_⟩
                · cases r <;> simp_all [Record.close, Record.isBoundary]
                · rw [heq, chain_of_arena harena]
                  exact hi

theorem WellFormed.boundary (h : l.WellFormed) : l.boundary.WellFormed := by
  rcases h.boundary_eq with ⟨heq, -⟩ | ⟨a, i, -, harena, heq, -, hc⟩
  · rwa [heq]
  · constructor
    · intro b hb
      rw [heq] at hb
      cases hb
      exact ((h.arena a harena).push _).1
    · intro j hj
      rw [cursor_boundary] at hj
      rw [hc]
      exact List.mem_cons_of_mem _ (h.cursor j hj)

theorem WellFormed.records_boundary (h : l.WellFormed) :
    l.boundary.records = if l.acceptsRecords then Record.close l.records else l.records := by
  rcases h.boundary_eq with ⟨heq, hclosed⟩ | ⟨a, i, ha, -, -, hclosed, hc⟩
  · rw [heq]
    split
    · rename_i ha
      exact (hclosed ha).symm
    · rfl
  · rw [ha, if_pos rfl, hclosed, records_eq, hc, records_eq]
    rfl

theorem WellFormed.chain_boundary (h : l.WellFormed) :
    ∃ closing, l.boundary.chain = closing ++ l.chain := by
  rcases h.boundary_eq with ⟨heq, -⟩ | ⟨a, i, -, -, -, -, hc⟩
  · exact ⟨[], by rw [heq, List.nil_append]⟩
  · exact ⟨[(i, .boundary)], hc⟩

theorem WellFormed.boundary_of_closed (h : l.WellFormed) {rs : List Record}
    (hr : l.records = .boundary :: rs) : l.boundary = l := by
  rcases h.boundary_eq with ⟨heq, -⟩ | ⟨a, i, -, -, -, hclosed, -⟩
  · exact heq
  · rw [hr] at hclosed
    exact absurd (congrArg List.length hclosed) (by simp [Record.close, Record.isBoundary])

end UndoLog

end Editing
