/-!
# Tables

Finite maps from numbers to values, kept in ascending order of the keys. A table is determined by
its look-up function `get?`, and each operation is described by what it does to look-ups.
-/

namespace Editing

/-- A finite map with number keys; no key has two entries. -/
structure Table (α : Type) where
  entries : List (Nat × α)
  ascending : entries.Pairwise (fun a b => a.1 < b.1)

namespace Table

variable {α β : Type}

def empty : Table α := ⟨[], List.Pairwise.nil⟩

instance : Inhabited (Table α) := ⟨empty⟩

/-- The value that a list of entries gives to a key. -/
def find (k : Nat) : List (Nat × α) → Option α
  | [] => none
  | e :: es => if k = e.1 then some e.2 else find k es

def get? (t : Table α) (k : Nat) : Option α :=
  find k t.entries

/-- Whether a key has a value. -/
def contains (t : Table α) (k : Nat) : Bool :=
  (t.get? k).isSome

/-- The keys, ascending. -/
def keys (t : Table α) : List Nat :=
  t.entries.map Prod.fst

def values (t : Table α) : List α :=
  t.entries.map Prod.snd

def size (t : Table α) : Nat :=
  t.entries.length

/-- Puts an entry at its place in an ascending list, over the one with the same key if any. -/
def insertEntry (k : Nat) (v : α) : List (Nat × α) → List (Nat × α)
  | [] => [(k, v)]
  | e :: es =>
      if k < e.1 then (k, v) :: e :: es
      else if k = e.1 then (k, v) :: es
      else e :: insertEntry k v es

theorem mem_insertEntry {k : Nat} {v : α} {es : List (Nat × α)} {e : Nat × α}
    (h : e ∈ insertEntry k v es) : e = (k, v) ∨ e ∈ es := by
  induction es with
  | nil => simpa [insertEntry] using h
  | cons d es ih =>
      unfold insertEntry at h
      split at h
      · simpa using h
      · split at h
        · rcases List.mem_cons.mp h with h | h
          · exact Or.inl h
          · exact Or.inr (List.mem_cons_of_mem d h)
        · rcases List.mem_cons.mp h with rfl | h
          · exact Or.inr List.mem_cons_self
          · exact (ih h).imp_right (List.mem_cons_of_mem d)

theorem insertEntry_ascending {k : Nat} {v : α} {es : List (Nat × α)}
    (h : es.Pairwise (fun a b => a.1 < b.1)) :
    (insertEntry k v es).Pairwise (fun a b => a.1 < b.1) := by
  induction es with
  | nil => exact List.pairwise_singleton _ _
  | cons d es ih =>
      obtain ⟨hd, hes⟩ := List.pairwise_cons.mp h
      unfold insertEntry
      split
      · rename_i hk
        refine List.pairwise_cons.mpr ⟨fun e he => ?_, h⟩
        rcases List.mem_cons.mp he with rfl | he
        · exact hk
        · exact Nat.lt_trans hk (hd e he)
      · split
        · rename_i hk
          subst hk
          exact List.pairwise_cons.mpr ⟨hd, hes⟩
        · refine List.pairwise_cons.mpr ⟨fun e he => ?_, ih hes⟩
          rcases mem_insertEntry he with rfl | he
          · show d.1 < k
            omega
          · exact hd e he

/-- The table with `v` at `k`. -/
def insert (t : Table α) (k : Nat) (v : α) : Table α :=
  ⟨insertEntry k v t.entries, insertEntry_ascending t.ascending⟩

/-- The table of the entries that pass a test. -/
def filter (t : Table α) (p : Nat → α → Bool) : Table α :=
  ⟨t.entries.filter (fun e => p e.1 e.2), t.ascending.filter _⟩

def erase (t : Table α) (k : Nat) : Table α :=
  t.filter (fun j _ => j != k)

/-- The table with every value replaced by a function of it and its key. -/
def mapEntries (t : Table α) (f : Nat → α → β) : Table β :=
  ⟨t.entries.map (fun e => (e.1, f e.1 e.2)), List.pairwise_map.mpr t.ascending⟩

/-- The table with every value replaced. -/
def map (t : Table α) (f : α → β) : Table β :=
  t.mapEntries (fun _ => f)

/-- The table with the value at one key replaced, if there is one. -/
def modify (t : Table α) (k : Nat) (f : α → α) : Table α :=
  t.mapEntries (fun j v => if j = k then f v else v)

/-! ## Look-ups -/

theorem find_insertEntry (k j : Nat) (v : α) (es : List (Nat × α)) :
    find j (insertEntry k v es) = if j = k then some v else find j es := by
  induction es with
  | nil => rfl
  | cons d es ih =>
      unfold insertEntry
      split
      · rfl
      · split
        · rename_i hk
          by_cases h : j = k <;> simp [find, ← hk, h]
        · by_cases h : j = d.1 <;> by_cases h' : j = k <;> simp_all [find]

theorem find_eq_none_of_lt {es : List (Nat × α)} {k : Nat} (h : ∀ e ∈ es, k < e.1) :
    find k es = none := by
  induction es with
  | nil => rfl
  | cons d es ih =>
      rw [find, if_neg (Nat.ne_of_lt (h d List.mem_cons_self))]
      exact ih fun e he => h e (List.mem_cons_of_mem d he)

theorem find_filter {es : List (Nat × α)} (hes : es.Pairwise (fun a b => a.1 < b.1))
    (p : Nat → α → Bool) (k : Nat) :
    find k (es.filter (fun e => p e.1 e.2)) = (find k es).filter (p k) := by
  induction es with
  | nil => rfl
  | cons d es ih =>
      obtain ⟨hd, hes⟩ := List.pairwise_cons.mp hes
      have ih := ih hes
      by_cases hk : k = d.1
      · subst hk
        rw [find_eq_none_of_lt hd] at ih
        by_cases hp : p d.1 d.2 <;> simp [find, Option.filter, hp, ih]
      · by_cases hp : p d.1 d.2 <;> simp [find, hp, hk, ih]

theorem find_map (f : Nat → α → β) (k : Nat) (es : List (Nat × α)) :
    find k (es.map fun e => (e.1, f e.1 e.2)) = (find k es).map (f k) := by
  induction es with
  | nil => rfl
  | cons d es ih =>
      by_cases hk : k = d.1
      · subst hk
        simp [find]
      · simp [find, hk, ih]

@[simp] theorem get?_empty (k : Nat) : (empty : Table α).get? k = none := rfl

theorem get?_insert (t : Table α) (k j : Nat) (v : α) :
    (t.insert k v).get? j = if j = k then some v else t.get? j :=
  find_insertEntry k j v t.entries

@[simp] theorem get?_insert_self (t : Table α) (k : Nat) (v : α) :
    (t.insert k v).get? k = some v := by
  simp [get?_insert]

theorem get?_insert_of_ne (t : Table α) {k j : Nat} (v : α) (h : j ≠ k) :
    (t.insert k v).get? j = t.get? j := by
  simp [get?_insert, h]

theorem get?_filter (t : Table α) (p : Nat → α → Bool) (k : Nat) :
    (t.filter p).get? k = (t.get? k).filter (p k) :=
  find_filter t.ascending p k

theorem get?_erase (t : Table α) (k j : Nat) :
    (t.erase k).get? j = if j = k then none else t.get? j := by
  rw [erase, get?_filter]
  cases t.get? j <;> by_cases h : j = k <;> simp [Option.filter, h]

@[simp] theorem get?_erase_self (t : Table α) (k : Nat) : (t.erase k).get? k = none := by
  simp [get?_erase]

theorem get?_erase_of_ne (t : Table α) {k j : Nat} (h : j ≠ k) :
    (t.erase k).get? j = t.get? j := by
  simp [get?_erase, h]

theorem get?_mapEntries (t : Table α) (f : Nat → α → β) (k : Nat) :
    (t.mapEntries f).get? k = (t.get? k).map (f k) :=
  find_map f k t.entries

@[simp] theorem get?_map (t : Table α) (f : α → β) (k : Nat) :
    (t.map f).get? k = (t.get? k).map f :=
  get?_mapEntries t (fun _ => f) k

theorem get?_modify (t : Table α) (k j : Nat) (f : α → α) :
    (t.modify k f).get? j = if j = k then (t.get? j).map f else t.get? j := by
  rw [modify, get?_mapEntries]
  cases t.get? j <;> by_cases h : j = k <;> simp [h]

/-! ## Entries -/

theorem mem_entries {t : Table α} {k : Nat} {v : α} :
    (k, v) ∈ t.entries ↔ t.get? k = some v := by
  obtain ⟨es, h⟩ := t
  show (k, v) ∈ es ↔ find k es = some v
  induction es with
  | nil => simp [find]
  | cons d es ih =>
      obtain ⟨hd, hes⟩ := List.pairwise_cons.mp h
      rw [find, List.mem_cons]
      split
      · rename_i hk
        have hn : (k, v) ∉ es := fun he => Nat.lt_irrefl d.1 (hk ▸ hd _ he)
        constructor
        · rintro (rfl | he)
          · rfl
          · exact absurd he hn
        · intro hv
          exact Or.inl (Prod.ext hk (Option.some.inj hv).symm)
      · rename_i hk
        constructor
        · rintro (rfl | he)
          · exact absurd rfl hk
          · exact (ih hes).mp he
        · exact fun hv => Or.inr ((ih hes).mpr hv)

theorem mem_keys {t : Table α} {k : Nat} : k ∈ t.keys ↔ ∃ v, t.get? k = some v := by
  simp only [keys, List.mem_map]
  constructor
  · rintro ⟨⟨j, v⟩, hm, rfl⟩
    exact ⟨v, mem_entries.mp hm⟩
  · rintro ⟨v, hv⟩
    exact ⟨(k, v), mem_entries.mpr hv, rfl⟩

theorem keys_ascending (t : Table α) : t.keys.Pairwise (· < ·) :=
  List.pairwise_map.mpr t.ascending

/-- Two tables with the same look-ups are the same table. -/
theorem ext_get? {s t : Table α} (h : ∀ k, s.get? k = t.get? k) : s = t := by
  obtain ⟨es, hes⟩ := s
  obtain ⟨ds, hds⟩ := t
  have key : ∀ k v, (k, v) ∈ es ↔ (k, v) ∈ ds := fun k v =>
    (mem_entries (t := ⟨es, hes⟩)).trans ((iff_of_eq (congrArg (· = some v) (h k))).trans
      (mem_entries (t := ⟨ds, hds⟩)).symm)
  clear h
  have : es = ds := by
    induction es generalizing ds with
    | nil =>
        cases ds with
        | nil => rfl
        | cons d ds => exact absurd ((key d.1 d.2).mpr List.mem_cons_self) List.not_mem_nil
    | cons e es ih =>
        cases ds with
        | nil => exact absurd ((key e.1 e.2).mp List.mem_cons_self) List.not_mem_nil
        | cons d ds =>
            obtain ⟨he, hes⟩ := List.pairwise_cons.mp hes
            have hd := (List.pairwise_cons.mp hds).1
            have hed : e = d := by
              rcases List.mem_cons.mp ((key e.1 e.2).mp List.mem_cons_self) with h1 | h1
              · exact h1
              · rcases List.mem_cons.mp ((key d.1 d.2).mpr List.mem_cons_self) with h2 | h2
                · exact h2.symm
                · exact absurd (Nat.lt_trans (hd _ h1) (he _ h2)) (Nat.lt_irrefl _)
            subst hed
            have htail : ∀ k v, (k, v) ∈ es ↔ (k, v) ∈ ds := by
              intro k v
              constructor
              · intro hm
                rcases List.mem_cons.mp ((key k v).mp (List.mem_cons_of_mem e hm)) with h1 | h1
                · exact absurd (he _ hm) (by rw [← h1]; exact Nat.lt_irrefl _)
                · exact h1
              · intro hm
                rcases List.mem_cons.mp ((key k v).mpr (List.mem_cons_of_mem e hm)) with h1 | h1
                · exact absurd (hd _ hm) (by rw [← h1]; exact Nat.lt_irrefl _)
                · exact h1
            rw [ih hes ds (List.pairwise_cons.mp hds).2 htail]
  subst this
  rfl

end Table

end Editing
