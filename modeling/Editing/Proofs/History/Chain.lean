import Editing.History.Arena

/-!
# The chain of an arena

The links of an arena lead from the newest record through every slot in use. Each slot number is on
that chain or on the list of free slots, once and never both, so a slot that is used again cannot
be reached through an old link.
-/

namespace Editing.Arena

variable {a b : Arena}

/-- From a slot on, the links lead through these entries and end there. -/
def Linked (a : Arena) : Option Nat → List (Nat × Record) → Prop
  | start, [] => start = none
  | start, e :: es =>
      start = some e.1 ∧ ∃ older, a.slot? e.1 = some ⟨e.2, older⟩ ∧ a.Linked older es

/-- The chain accounts for the slots in use, and the list of free slots for all others. -/
structure WellFormed (a : Arena) : Prop where
  linked : a.Linked a.newest a.chain
  used_eq : a.used = a.chain.length
  numbering : (a.chain.map Prod.fst ++ a.free).Perm (List.range a.slots.size)
  vacant : ∀ i ∈ a.free, a.slot? i = none

theorem Linked.walk_eq {start : Option Nat} {es : List (Nat × Record)} {fuel : Nat}
    (h : a.Linked start es) (hf : es.length ≤ fuel) : a.walk fuel start = es := by
  induction es generalizing start fuel with
  | nil =>
      rw [show start = none from h]
      cases fuel <;> rfl
  | cons e es ih =>
      obtain ⟨rfl, older, hs, he⟩ := h
      cases fuel with
      | zero => exact absurd hf (Nat.not_succ_le_zero _)
      | succ fuel =>
          rw [walk, hs]
          exact congrArg (e :: ·) (ih he (Nat.le_of_succ_le_succ hf))

theorem Linked.congr {start : Option Nat} {es : List (Nat × Record)} (h : a.Linked start es)
    (hs : ∀ e ∈ es, b.slot? e.1 = a.slot? e.1) : b.Linked start es := by
  induction es generalizing start with
  | nil => exact h
  | cons e es ih =>
      obtain ⟨hstart, older, he, hes⟩ := h
      refine ⟨hstart, older, ?_, ih hes fun d hd => hs d (List.mem_cons_of_mem e hd)⟩
      rw [hs e List.mem_cons_self]
      exact he

theorem Linked.suffix {start : Option Nat} {newer older : List (Nat × Record)} {e : Nat × Record}
    (h : a.Linked start (newer ++ e :: older)) : a.Linked (some e.1) (e :: older) := by
  induction newer generalizing start with
  | nil => exact ⟨rfl, h.2⟩
  | cons d newer ih =>
      obtain ⟨-, next, -, hd⟩ := h
      exact ih hd

/-- An arena is well formed as soon as some entries are linked and account for its slots, and these
entries are its chain. -/
theorem wellFormed_of_linked {es : List (Nat × Record)} (hl : a.Linked a.newest es)
    (hu : a.used = es.length) (hn : (es.map Prod.fst ++ a.free).Perm (List.range a.slots.size))
    (hv : ∀ i ∈ a.free, a.slot? i = none) : a.WellFormed ∧ a.chain = es := by
  have hc : a.chain = es := hl.walk_eq (Nat.le_of_eq hu.symm)
  exact ⟨⟨hc.symm ▸ hl, hc.symm ▸ hu, hc.symm ▸ hn, hv⟩, hc⟩

theorem empty_wellFormed : empty.WellFormed :=
  have hlinked : empty.Linked empty.newest [] := rfl
  (wellFormed_of_linked hlinked rfl (List.Perm.refl _) (by simp [empty])).1

@[simp] theorem chain_empty : empty.chain = [] := rfl

@[simp] theorem records_empty : empty.records = [] := rfl

namespace WellFormed

theorem nodup (h : a.WellFormed) : (a.chain.map Prod.fst ++ a.free).Nodup :=
  h.numbering.nodup_iff.mpr List.nodup_range

theorem nodup_chain (h : a.WellFormed) : (a.chain.map Prod.fst).Nodup :=
  (List.nodup_append.mp h.nodup).1

theorem lt_size (h : a.WellFormed) {i : Nat} (hi : i ∈ a.chain.map Prod.fst) :
    i < a.slots.size :=
  List.mem_range.mp (h.numbering.mem_iff.mp (List.mem_append_left a.free hi))

theorem chainFrom_eq (h : a.WellFormed) {newer older : List (Nat × Record)} {e : Nat × Record}
    (hc : a.chain = newer ++ e :: older) : a.chainFrom (some e.1) = e :: older := by
  have hl : a.Linked (some e.1) (e :: older) := Linked.suffix (hc ▸ h.linked)
  apply hl.walk_eq
  rw [h.used_eq, hc, List.length_append]
  exact Nat.le_add_left _ _

theorem newest_eq (h : a.WellFormed) : a.newest = a.chain.head?.map Prod.fst := by
  have hl := h.linked
  cases hc : a.chain with
  | nil =>
      rw [hc] at hl
      exact hl
  | cons e es =>
      rw [hc] at hl
      exact hl.1

theorem slot?_of_mem (h : a.WellFormed) {e : Nat × Record} (he : e ∈ a.chain) :
    ∃ older, a.slot? e.1 = some ⟨e.2, older⟩ := by
  obtain ⟨newer, older, hc⟩ := List.append_of_mem he
  obtain ⟨-, next, hs, -⟩ := Linked.suffix (hc ▸ h.linked)
  exact ⟨next, hs⟩

theorem newestRecord?_eq (h : a.WellFormed) : a.newestRecord? = a.records.head? := by
  rw [newestRecord?, h.newest_eq, records]
  cases hc : a.chain with
  | nil => rfl
  | cons e es =>
      obtain ⟨older, hs⟩ := h.slot?_of_mem (e := e) (by simp [hc])
      simp [hs]

end WellFormed

theorem slot?_set (a : Arena) (i j : Nat) (s : Option Slot) (free : List Nat) (newest : Option Nat)
    (used : Nat) : slot? ⟨a.slots.setIfInBounds i s, free, newest, used⟩ j =
      if i = j ∧ i < a.slots.size then s else a.slot? j := by
  rw [slot?, slot?, Array.getElem?_setIfInBounds]
  by_cases hij : i = j
  · subst hij
    by_cases hi : i < a.slots.size
    · simp [hi]
    · simp [hi]
  · simp [hij]

theorem slot?_push (a : Arena) (j : Nat) (s : Option Slot) (free : List Nat) (newest : Option Nat)
    (used : Nat) : slot? ⟨a.slots.push s, free, newest, used⟩ j =
      if j = a.slots.size then s else a.slot? j := by
  rw [slot?, slot?, Array.getElem?_push]
  by_cases hj : j = a.slots.size <;> simp [hj]

/-- A record pushed goes on top of the chain, in a slot that was not on it. -/
theorem WellFormed.push (h : a.WellFormed) (r : Record) :
    (a.push r).WellFormed ∧
      ∃ i, i ∉ a.chain.map Prod.fst ∧ (a.push r).chain = (i, r) :: a.chain := by
  cases hf : a.free with
  | nil =>
      have hnew : a.slots.size ∉ a.chain.map Prod.fst :=
        fun hi => Nat.lt_irrefl _ (h.lt_size hi)
      have hp :
          a.push r = ⟨a.slots.push (some ⟨r, a.newest⟩), [], some a.slots.size, a.used + 1⟩ := by
        rw [Arena.push, hf]
      have hkept : ∀ e ∈ a.chain, (a.push r).slot? e.1 = a.slot? e.1 := by
        intro e he
        have hne : e.1 ≠ a.slots.size := fun hi =>
          hnew (hi ▸ List.mem_map_of_mem he)
        rw [hp, slot?_push, if_neg hne]
      have hl : (a.push r).Linked (a.push r).newest ((a.slots.size, r) :: a.chain) := by
        refine ⟨by rw [hp], a.newest, ?_, h.linked.congr hkept⟩
        rw [hp, slot?_push, if_pos rfl]
      have hn : (((a.slots.size, r) :: a.chain).map Prod.fst ++ (a.push r).free).Perm
          (List.range (a.push r).slots.size) := by
        have hold := h.numbering
        rw [hf, List.append_nil] at hold
        rw [hp]
        simp only [List.map_cons, List.append_nil, Array.size_push, List.range_succ]
        exact (hold.cons _).trans (List.perm_append_singleton _ _).symm
      have hu : (a.push r).used = ((a.slots.size, r) :: a.chain).length := by
        rw [hp, List.length_cons, ← h.used_eq]
      obtain ⟨hw, hc⟩ := wellFormed_of_linked hl hu hn (by simp [hp])
      exact ⟨hw, a.slots.size, hnew, hc⟩
  | cons i free =>
      have hi : i ∈ a.free := by simp [hf]
      have hnew : i ∉ a.chain.map Prod.fst := fun hc =>
        (List.nodup_append.mp h.nodup).2.2 i hc i hi rfl
      have hlt : i < a.slots.size :=
        List.mem_range.mp (h.numbering.mem_iff.mp (List.mem_append_right _ hi))
      have hp : a.push r =
          ⟨a.slots.setIfInBounds i (some ⟨r, a.newest⟩), free, some i, a.used + 1⟩ := by
        rw [Arena.push, hf]
      have hkept : ∀ e ∈ a.chain, (a.push r).slot? e.1 = a.slot? e.1 := by
        intro e he
        have hne : ¬(i = e.1 ∧ i < a.slots.size) := fun hie =>
          hnew (hie.1 ▸ List.mem_map_of_mem he)
        rw [hp, slot?_set, if_neg hne]
      have hl : (a.push r).Linked (a.push r).newest ((i, r) :: a.chain) := by
        refine ⟨by rw [hp], a.newest, ?_, h.linked.congr hkept⟩
        rw [hp, slot?_set, if_pos ⟨rfl, hlt⟩]
      have hn : (((i, r) :: a.chain).map Prod.fst ++ (a.push r).free).Perm
          (List.range (a.push r).slots.size) := by
        have hold := h.numbering
        rw [hf] at hold
        rw [hp]
        simpa using List.perm_middle.symm.trans hold
      have hu : (a.push r).used = ((i, r) :: a.chain).length := by
        rw [hp, List.length_cons, ← h.used_eq]
      have hv : ∀ j ∈ (a.push r).free, (a.push r).slot? j = none := by
        intro j hj
        have hj' : j ∈ free := by simpa [hp] using hj
        have hfree : (i :: free).Nodup := hf ▸ (List.nodup_append.mp h.nodup).2.1
        have hne : ¬(i = j ∧ i < a.slots.size) := fun hij =>
          (List.nodup_cons.mp hfree).1 (hij.1 ▸ hj')
        rw [hp, slot?_set, if_neg hne]
        exact h.vacant j (by simp [hf, hj'])
      obtain ⟨hw, hc⟩ := wellFormed_of_linked hl hu hn hv
      exact ⟨hw, i, hnew, hc⟩

theorem pop_of_chain_nil (h : a.WellFormed) (hc : a.chain = []) : a.pop = none := by
  rw [pop, h.newest_eq, hc]
  rfl

/-- Popping takes the newest entry off the chain and frees its slot. -/
theorem WellFormed.pop (h : a.WellFormed) {i : Nat} {r : Record} {es : List (Nat × Record)}
    (hc : a.chain = (i, r) :: es) :
    ∃ b, a.pop = some (i, r, b) ∧ b.WellFormed ∧ b.chain = es := by
  have hlinked := h.linked
  rw [hc] at hlinked
  obtain ⟨hnewest, older, hs, hes⟩ := hlinked
  have hlt : i < a.slots.size := h.lt_size (by simp [hc])
  refine ⟨⟨a.slots.setIfInBounds i none, i :: a.free, older, a.used - 1⟩, ?_, ?_⟩
  · simp [Arena.pop, hnewest, release, hs]
  · have hnodup := h.nodup_chain
    rw [hc, List.map_cons, List.nodup_cons] at hnodup
    have hkept :
        ∀ e ∈ es, slot? ⟨a.slots.setIfInBounds i none, i :: a.free, older, a.used - 1⟩ e.1 =
        a.slot? e.1 := by
      intro e he
      have hne : ¬(i = e.1 ∧ i < a.slots.size) := fun hie =>
        hnodup.1 (List.mem_map.mpr ⟨e, he, hie.1.symm⟩)
      rw [slot?_set, if_neg hne]
    refine wellFormed_of_linked (hes.congr hkept) ?_ ?_ ?_
    · have := h.used_eq
      simp only [hc, List.length_cons] at this
      simp [this]
    · have hold := h.numbering
      rw [hc] at hold
      simpa using List.perm_middle.trans hold
    · intro j hj
      rw [slot?_set]
      split
      · rfl
      · rename_i hij
        rcases List.mem_cons.mp hj with rfl | hj
        · exact absurd ⟨rfl, hlt⟩ hij
        · exact h.vacant j hj

/-- Releasing a linked run of slots empties and frees just these. -/
theorem releaseFrom_eq {start : Option Nat} {es : List (Nat × Record)} {fuel : Nat}
    (hl : a.Linked start es) (hn : (es.map Prod.fst).Nodup)
    (hlt : ∀ i ∈ es.map Prod.fst, i < a.slots.size) (hf : es.length ≤ fuel) :
    (a.releaseFrom fuel start).1 = es.map Prod.fst ∧
      (a.releaseFrom fuel start).2.newest = a.newest ∧
      (a.releaseFrom fuel start).2.used = a.used - es.length ∧
      (a.releaseFrom fuel start).2.free = (es.map Prod.fst).reverse ++ a.free ∧
      (a.releaseFrom fuel start).2.slots.size = a.slots.size ∧
      ∀ j, (a.releaseFrom fuel start).2.slot? j =
        if j ∈ es.map Prod.fst then none else a.slot? j := by
  induction es generalizing a start fuel with
  | nil =>
      rw [show start = none from hl]
      cases fuel <;> simp [releaseFrom]
  | cons e es ih =>
      obtain ⟨rfl, older, hs, hes⟩ := hl
      obtain ⟨hne, hn⟩ := List.nodup_cons.mp hn
      cases fuel with
      | zero => exact absurd hf (Nat.not_succ_le_zero _)
      | succ fuel =>
          have hi : e.1 < a.slots.size := hlt e.1 List.mem_cons_self
          have hkept : ∀ d ∈ es, slot? ⟨a.slots.setIfInBounds e.1 none, e.1 :: a.free, a.newest,
              a.used - 1⟩ d.1 = a.slot? d.1 := by
            intro d hd
            have hed : ¬(e.1 = d.1 ∧ e.1 < a.slots.size) := fun h =>
              hne (h.1 ▸ List.mem_map_of_mem hd)
            rw [slot?_set, if_neg hed]
          obtain ⟨h1, h2, h3, h4, h5, h6⟩ := ih (hes.congr hkept) hn
            (fun i hi => by simpa using hlt i (List.mem_cons_of_mem _ hi))
            (Nat.le_of_succ_le_succ hf)
          simp only [releaseFrom, release, hs, Option.map_some]
          refine ⟨by simp [h1], h2, ?_, by simp [h4], by simpa using h5, fun j => ?_⟩
          · rw [h3, List.length_cons]
            change a.used - 1 - es.length = a.used - (es.length + 1)
            omega
          · rw [h6, slot?_set, List.map_cons]
            by_cases hj : e.1 = j
            · simp [hj, hj ▸ hi]
            · simp only [hj, false_and, if_false, List.mem_cons, Ne.symm hj, false_or]

/-- Severing keeps the chain up to a slot, and frees the slots of all older entries. -/
theorem WellFormed.severAfter (h : a.WellFormed) {newer older : List (Nat × Record)} {i : Nat}
    {r : Record} (hc : a.chain = newer ++ (i, r) :: older) :
    (a.severAfter i).1 = older.map Prod.fst ∧ (a.severAfter i).2.WellFormed ∧
      (a.severAfter i).2.chain = newer ++ [(i, r)] := by
  obtain ⟨-, next, hs, hold⟩ := Linked.suffix (hc ▸ h.linked)
  have hi : i < a.slots.size := h.lt_size (by simp [hc])
  have hnodup := h.nodup_chain
  rw [hc, List.map_append, List.map_cons, List.nodup_append] at hnodup
  obtain ⟨hnewer, holder, hapart⟩ := hnodup
  obtain ⟨hni, holder⟩ := List.nodup_cons.mp holder
  -- First the link behind the slot is cut, then the run behind it is released.
  let c : Arena := { a with slots := a.slots.setIfInBounds i (some ⟨r, none⟩) }
  have hcut : ∀ j, c.slot? j = if i = j then some ⟨r, none⟩ else a.slot? j := by
    intro j
    rw [slot?_set]
    simp [hi]
  have hsever : a.severAfter i = c.releaseFrom a.used next := by
    simp only [Arena.severAfter, hs]
    rfl
  have hlinked : c.Linked next older := hold.congr fun e he => by
    rw [hcut, if_neg]
    exact fun hie => hni (List.mem_map.mpr ⟨e, he, hie.symm⟩)
  have hlen : older.length ≤ a.used := by
    rw [h.used_eq, hc]
    simp only [List.length_append, List.length_cons]
    omega
  obtain ⟨h1, h2, h3, h4, h5, h6⟩ := releaseFrom_eq hlinked holder
    (fun j hj => by
      have hj' : j ∈ a.chain.map Prod.fst := by
        rw [hc]
        simp only [List.map_append, List.map_cons, List.mem_append, List.mem_cons]
        exact Or.inr (Or.inr hj)
      simpa [c] using h.lt_size hj') hlen
  -- The part that stays is linked as before, since neither step touches its slots.
  have hpath : ∀ {start : Option Nat} {es : List (Nat × Record)},
      a.Linked start (es ++ (i, r) :: older) →
      (∀ j ∈ es.map Prod.fst, j ≠ i ∧ j ∉ older.map Prod.fst) →
      (a.severAfter i).2.Linked start (es ++ [(i, r)]) := by
    intro start es
    induction es generalizing start with
    | nil =>
        intro hstart _
        refine ⟨hstart.1, none, ?_, rfl⟩
        rw [hsever, h6, if_neg hni, hcut, if_pos rfl]
    | cons e es ih =>
        intro hstart hout
        obtain ⟨hstart, after, hslot, hes⟩ := hstart
        have he := hout e.1 List.mem_cons_self
        refine ⟨hstart, after, ?_, ih hes fun j hj => hout j (List.mem_cons_of_mem _ hj)⟩
        rw [hsever, h6, if_neg he.2, hcut, if_neg (Ne.symm he.1)]
        exact hslot
  refine ⟨hsever ▸ h1, wellFormed_of_linked ?_ ?_ ?_ ?_⟩
  · have hstart : (a.severAfter i).2.newest = a.newest := hsever ▸ h2
    rw [hstart]
    refine hpath (hc ▸ h.linked) fun j hj => ⟨hapart j hj i List.mem_cons_self, fun hold => ?_⟩
    exact hapart j hj j (List.mem_cons_of_mem i hold) rfl
  · have hused := h.used_eq
    rw [hsever, h3]
    simp only [c, hused, hc, List.length_append, List.length_cons, List.length_nil]
    omega
  · have hperm := h.numbering
    rw [hsever, h4, h5]
    simp only [c, Array.size_setIfInBounds]
    rw [hc] at hperm
    refine List.Perm.trans ?_ hperm
    simp only [List.map_append, List.map_cons, List.map_nil, List.append_assoc, List.cons_append,
      List.nil_append]
    exact ((List.reverse_perm _).append_right a.free).cons i |>.append_left _
  · intro j hj
    rw [hsever, h4, List.mem_append, List.mem_reverse] at hj
    rw [hsever, h6]
    split
    · rfl
    · rename_i hold
      rcases hj with hj | hj
      · exact absurd hj hold
      · have hne : i ≠ j := by
          rintro rfl
          exact (List.nodup_append.mp h.nodup).2.2 i (by simp [hc]) i hj rfl
        rw [hcut, if_neg hne]
        exact h.vacant j hj

end Editing.Arena
