import Editing.Proofs.History.Handling
import Editing.Proofs.History.Severing

/-!
# What truncation keeps

A log can be cut at every boundary that has a newer record. Truncation looks for the first of these,
going back from the newest record, where the newer records cost more than the soft limit. It cuts
there, or at the one before where they cost more than the strong limit too. What is left does not
pass the soft limit at any boundary that is left, so another truncation leaves it alone.
-/

namespace Editing

namespace Record

variable {rs all : List Record} {soft strong size kept lastCut i j k : Nat}

/-- The record behind so many newer ones is a boundary, and there are newer ones. -/
def IsInterior (rs : List Record) (i : Nat) : Prop :=
  0 < i ∧ rs[i]? = some .boundary

instance (rs : List Record) (i : Nat) : Decidable (IsInterior rs i) :=
  inferInstanceAs (Decidable (_ ∧ _))

/-- The first interior boundary where the newer records pass the limit. -/
structure IsFirstOver (limit : Nat) (rs : List Record) (i : Nat) : Prop where
  interior : IsInterior rs i
  exceeds : limit < totalCost (rs.take i)
  within : ∀ j < i, IsInterior rs j → totalCost (rs.take j) ≤ limit

/-- Where a log is cut whose records pass the soft limit at a boundary: there, or at the interior
boundary just newer where the records pass the strong limit too, unless there is none. -/
inductive CutAt (strong : Nat) (rs : List Record) (i : Nat) : Nat → Prop
  | here (h : totalCost (rs.take i) ≤ strong ∨ ∀ j < i, ¬IsInterior rs j) : CutAt strong rs i i
  | before {j : Nat} (hover : strong < totalCost (rs.take i)) (hinterior : IsInterior rs j)
      (hlt : j < i) (hlast : ∀ k, j < k → k < i → ¬IsInterior rs k) : CutAt strong rs i j

theorem CutAt.le (h : CutAt strong rs i k) : k ≤ i := by
  cases h with
  | here => exact Nat.le_refl i
  | before _ _ hlt _ => exact Nat.le_of_lt hlt

theorem CutAt.interior (h : CutAt strong rs i k) (hi : IsInterior rs i) : IsInterior rs k := by
  cases h with
  | here => exact hi
  | before _ hinterior _ _ => exact hinterior

theorem IsInterior.lt_length (h : IsInterior rs i) : i < rs.length :=
  (List.getElem?_eq_some_iff.mp h.2).1

theorem isInterior_take : IsInterior (rs.take k) i ↔ i < k ∧ IsInterior rs i := by
  rw [IsInterior, IsInterior, List.getElem?_take]
  by_cases hik : i < k
  · simp [hik]
  · simp [hik]

theorem eq_boundary_of {r : Record} (h : r.isBoundary = true) : r = .boundary := by
  cases r with
  | boundary => rfl
  | _ => cases h

theorem getElem?_of_drop {r : Record} (h : all.drop kept = r :: rs) : all[kept]? = some r := by
  rw [← List.head?_drop, h, List.head?_cons]

theorem drop_succ_of_drop {r : Record} (h : all.drop kept = r :: rs) :
    all.drop (kept + 1) = rs := by
  rw [← List.tail_drop, h, List.tail_cons]

theorem totalCost_take_succ {r : Record} (h : all.drop kept = r :: rs) :
    totalCost (all.take (kept + 1)) = totalCost (all.take kept) + r.cost := by
  rw [List.take_add_one, getElem?_of_drop h, totalCost_append]
  rfl

/-! ## The walk over the older groups -/

theorem keptAt_eq_none (hlimits : soft < strong) (hrest : all.drop kept = rs)
    (hsize : size = totalCost (all.take kept)) (hkept : 0 < kept)
    (h : ∀ i, kept ≤ i → IsInterior all i → totalCost (all.take i) ≤ soft) :
    keptAt soft strong size kept lastCut rs = none := by
  induction rs generalizing size kept lastCut with
  | nil => rfl
  | cons r rs ih =>
      have hlater : ∀ lastCut, keptAt soft strong (size + r.cost) (kept + 1) lastCut rs = none :=
        fun _ => ih (drop_succ_of_drop hrest) (by rw [hsize, totalCost_take_succ hrest])
          (Nat.succ_pos kept) fun i hi => h i (Nat.le_of_succ_le hi)
      rw [keptAt]
      split
      · rename_i hr
        obtain rfl := eq_boundary_of hr
        have hwithin := h kept (Nat.le_refl kept) ⟨hkept, getElem?_of_drop hrest⟩
        rw [if_neg (by omega), if_neg (by omega)]
        exact hlater kept
      · exact hlater lastCut

/-- The last cut so far is the interior boundary met last, or the first one that will be met. -/
inductive LastCut (all : List Record) (kept : Nat) : Nat → Prop
  | met {j : Nat} (hinterior : IsInterior all j) (hlt : j < kept)
      (hlast : ∀ k, j < k → k < kept → ¬IsInterior all k) : LastCut all kept j
  | ahead (hnone : ∀ j < kept, ¬IsInterior all j)
      (hnext : all.drop kept = [] ∨ ∃ older, all.drop kept = .boundary :: older) :
      LastCut all kept kept

theorem LastCut.succ {r : Record} (h : LastCut all kept lastCut) (hrest : all.drop kept = r :: rs)
    (hr : r.isBoundary = false) : LastCut all (kept + 1) lastCut := by
  have hkept : ¬IsInterior all kept := by
    rintro ⟨-, hboundary⟩
    obtain rfl := Option.some.inj ((getElem?_of_drop hrest).symm.trans hboundary)
    cases hr
  cases h with
  | met hinterior hlt hlast =>
      refine .met hinterior (Nat.lt_succ_of_lt hlt) fun k hk hle => ?_
      rcases Nat.lt_succ_iff_lt_or_eq.mp hle with hlt | rfl
      · exact hlast k hk hlt
      · exact hkept
  | ahead hnone hnext =>
      rw [hrest] at hnext
      rcases hnext with hnil | ⟨older, hcons⟩
      · cases hnil
      · cases hcons
        cases hr

theorem keptAt_eq_some (hlimits : soft < strong) (hrest : all.drop kept = rs)
    (hsize : size = totalCost (all.take kept)) (hkept : 0 < kept)
    (hlast : LastCut all kept lastCut) (hi : IsFirstOver soft all i) (hle : kept ≤ i) :
    ∃ k, keptAt soft strong size kept lastCut rs = some k ∧ CutAt strong all i k := by
  -- By induction on the records ahead. Each step keeps what `LastCut` says of the cut so far.
  induction rs generalizing size kept lastCut with
  | nil =>
      have hlength := List.drop_eq_nil_iff.mp hrest
      have hlt := hi.interior.lt_length
      omega
  | cons r rs ih =>
      have hnext := drop_succ_of_drop hrest
      have hcost : size + r.cost = totalCost (all.take (kept + 1)) := by
        rw [hsize, totalCost_take_succ hrest]
      rw [keptAt]
      by_cases hr : r.isBoundary = true
      · obtain rfl := eq_boundary_of hr
        have hhere : IsInterior all kept := ⟨hkept, getElem?_of_drop hrest⟩
        rw [if_pos hr]
        rcases Nat.eq_or_lt_of_le hle with rfl | hlt
        -- this is the boundary looked for
        · by_cases hover : strong < size
          · rw [if_pos hover]
            refine ⟨lastCut, rfl, ?_⟩
            cases hlast with
            | met hinterior hlt hlast => exact .before (hsize ▸ hover) hinterior hlt hlast
            | ahead hnone _ => exact .here (.inr hnone)
          · rw [if_neg hover, if_pos (hsize ▸ hi.exceeds)]
            exact ⟨kept, rfl, .here (.inl (hsize ▸ Nat.le_of_not_lt hover))⟩
        · have hwithin := hi.within kept hlt hhere
          rw [if_neg (by omega), if_neg (by omega)]
          refine ih hnext hcost (Nat.succ_pos kept) (.met hhere (Nat.lt_succ_self kept) ?_) hlt
          exact fun k hk hk' => absurd hk (Nat.not_lt.mpr (Nat.le_of_lt_succ hk'))
      · rw [if_neg hr]
        have hne : kept ≠ i := by
          rintro rfl
          obtain rfl :=
            Option.some.inj ((getElem?_of_drop hrest).symm.trans hi.interior.2)
          exact hr rfl
        exact ih hnext hcost (Nat.succ_pos kept) (hlast.succ hrest (Bool.eq_false_iff.mpr hr))
          (Nat.lt_of_le_of_ne hle hne)

/-! ## The newest group -/

theorem newestGroup_initial (rs : List Record) : newestGroup rs <+: rs := by
  unfold newestGroup
  split
  · exact List.cons_prefix_cons.mpr ⟨rfl, List.takeWhile_prefix _⟩
  · exact List.takeWhile_prefix _

theorem take_newestGroup (rs : List Record) : rs.take (newestGroup rs).length = newestGroup rs :=
  (List.prefix_iff_eq_take.mp (newestGroup_initial rs)).symm

/-- The newest group has no boundary but the one that closes it. -/
theorem not_interior_newestGroup (h : j < (newestGroup rs).length) : ¬IsInterior rs j := by
  rintro ⟨hpos, hboundary⟩
  have hmember : (newestGroup rs)[j]? = some .boundary := by
    rw [← take_newestGroup, List.getElem?_take, if_pos h, hboundary]
  have hopen : ∀ ss : List Record, .boundary ∉ ss.takeWhile fun r => !r.isBoundary :=
    fun ss hmem => Bool.false_ne_true (List.all_eq_true.mp List.all_takeWhile _ hmem)
  unfold newestGroup at hmember
  split at hmember
  · obtain ⟨n, rfl⟩ := Nat.exists_eq_succ_of_ne_zero (Nat.ne_of_gt hpos)
    rw [List.getElem?_cons_succ] at hmember
    exact hopen _ (List.mem_of_getElem? hmember)
  · exact hopen _ (List.mem_of_getElem? hmember)

theorem newestGroup_le (h : IsInterior rs i) : (newestGroup rs).length ≤ i :=
  Nat.le_of_not_lt fun hlt => not_interior_newestGroup hlt h

/-- A log cut at an interior boundary keeps its newest group. -/
theorem newestGroup_take (h : IsInterior rs k) : newestGroup (rs.take k) = newestGroup rs := by
  have hsplit : ∀ {ss : List Record} {n : Nat}, ss[n]? = some .boundary →
      ((ss.take n).takeWhile fun r => !r.isBoundary) = ss.takeWhile fun r => !r.isBoundary := by
    intro ss n hboundary
    obtain ⟨hlt, hget⟩ := List.getElem?_eq_some_iff.mp hboundary
    have hdrop : (ss.drop n).takeWhile (fun r => !r.isBoundary) = [] := by
      rw [List.drop_eq_getElem_cons hlt, hget]
      rfl
    calc ((ss.take n).takeWhile fun r => !r.isBoundary)
        = (ss.take n ++ ss.drop n).takeWhile fun r => !r.isBoundary := ?_
      _ = ss.takeWhile fun r => !r.isBoundary := by rw [List.take_append_drop]
    rw [List.takeWhile_append, hdrop, List.append_nil]
    split
    · rename_i hall
      exact (List.takeWhile_prefix _).eq_of_length hall
    · rfl
  obtain ⟨n, rfl⟩ := Nat.exists_eq_succ_of_ne_zero (Nat.ne_of_gt h.1)
  cases rs with
  | nil => rfl
  | cons r rs =>
      cases r with
      | boundary => exact congrArg (Record.boundary :: ·) (hsplit h.2)
      | insert pos length => exact hsplit h.2
      | delete pos text markers => exact hsplit h.2
      | property start stop key value => exact hsplit h.2

/-- No log is cut whose records stay within the soft limit at every interior boundary. -/
theorem keptWithin_eq_none (hlimits : soft < strong)
    (h : ∀ i, IsInterior rs i → totalCost (rs.take i) ≤ soft) :
    keptWithin soft strong rs = none := by
  by_cases hne : rs = []
  · rw [hne]
    rfl
  · exact keptAt_eq_none hlimits rfl (by rw [take_newestGroup]) (newestGroup_pos hne)
      fun i _ => h i

theorem keptWithin_eq_some (hlimits : soft < strong) (hi : IsFirstOver soft rs i) :
    ∃ k, keptWithin soft strong rs = some k ∧ CutAt strong rs i k := by
  have hne : rs ≠ [] := by
    rintro rfl
    cases hi.interior.2
  exact keptAt_eq_some hlimits rfl (by rw [take_newestGroup]) (newestGroup_pos hne)
    (.ahead (fun j => not_interior_newestGroup) (drop_newestGroup rs)) hi
    (newestGroup_le hi.interior)

theorem within_or_firstOver (limit : Nat) (rs : List Record) :
    (∀ i, IsInterior rs i → totalCost (rs.take i) ≤ limit) ∨ ∃ i, IsFirstOver limit rs i := by
  by_cases h : ∀ i, IsInterior rs i → totalCost (rs.take i) ≤ limit
  · exact .inl h
  · obtain ⟨i, hi⟩ := Classical.not_forall.mp h
    obtain ⟨hinterior, hover⟩ := Classical.not_imp.mp hi
    clear hi
    induction i using Nat.strongRecOn with
    | ind i ih =>
        by_cases hwithin : ∀ j < i, IsInterior rs j → totalCost (rs.take j) ≤ limit
        · exact .inr ⟨i, hinterior, Nat.lt_of_not_le hover, hwithin⟩
        · obtain ⟨j, hj⟩ := Classical.not_forall.mp hwithin
          obtain ⟨hlt, hj⟩ := Classical.not_imp.mp hj
          obtain ⟨hinterior', hover'⟩ := Classical.not_imp.mp hj
          exact ih j hlt hinterior' hover'

/-- Once a log has been cut, it is within the soft limit at every boundary that is left. -/
theorem within_of_cut (hi : IsFirstOver soft rs i) (hk : k ≤ i) (hj : IsInterior (rs.take k) j) :
    totalCost ((rs.take k).take j) ≤ soft := by
  obtain ⟨hlt, hj⟩ := isInterior_take.mp hj
  rw [List.take_take, Nat.min_eq_left (Nat.le_of_lt hlt)]
  exact hi.within j (Nat.lt_of_lt_of_le hlt hk) hj

/-- What is left of a log that was cut is within the strong limit, unless it is its newest group. -/
theorem CutAt.within (h : CutAt strong rs i k) (hlimits : soft < strong)
    (hi : IsFirstOver soft rs i) :
    totalCost (rs.take k) ≤ strong ∨ ∀ j < k, ¬IsInterior rs j := by
  cases h with
  | here h => exact h
  | before _ hinterior hlt _ =>
      exact .inl (Nat.le_trans (hi.within _ hlt hinterior) (Nat.le_of_lt hlimits))

end Record

namespace UndoLog

open Record

variable {l : UndoLog} {limits : Limits} {i k : Nat}

theorem WellFormed.length_eq (h : l.WellFormed) : l.length = l.records.length := by
  cases harena : l.arena with
  | none => rw [length, records, harena]; rfl
  | some a =>
      rw [length, records, harena]
      exact (h.arena a harena).used_eq.trans (List.length_map Prod.snd).symm

/-- A truncation that calls no handler cuts the log back at once. -/
theorem truncate_of_uncalled (hs : l.suspended = false)
    (hcalls : (l.truncate limits).calls = []) :
    l.truncate limits =
      ⟨.ok (l.cutBack limits.soft limits.strong).1,
        (l.cutBack limits.soft limits.strong).2, []⟩ := by
  obtain ⟨-, -, hcalled⟩ := calls_truncate hs limits
  apply truncateWith_of_uncalled hs
  cases hhandler : limits.handler with
  | none => exact .inl rfl
  | some handler =>
      refine .inr (Bool.eq_false_iff.mpr fun hpasses => ?_)
      exact hcalled.mpr ⟨by rw [hhandler, Option.isSome_some], hpasses⟩ hcalls

theorem calls_truncate_of_cost {m : UndoLog} (hs : l.suspended = false) (hm : m.suspended = false)
    (hcost : m.newestCost = l.newestCost) (hcalls : (l.truncate limits).calls = []) :
    (m.truncate limits).calls = [] := by
  obtain ⟨-, -, hcalled⟩ := calls_truncate hs limits
  obtain ⟨-, -, hcalled'⟩ := calls_truncate hm limits
  rw [hcost] at hcalled'
  cases hcalls' : (m.truncate limits).calls with
  | nil => rfl
  | cons call calls =>
      have hne : (m.truncate limits).calls ≠ [] := hcalls' ▸ List.cons_ne_nil call calls
      exact absurd hcalls (hcalled.mpr (hcalled'.mp hne))

theorem truncate_of_within (hs : l.suspended = false) (hcalls : (l.truncate limits).calls = [])
    (h : ∀ i, IsInterior l.records i → totalCost (l.records.take i) ≤ limits.soft) :
    (l.truncate limits).outcome = .ok .unchanged ∧ (l.truncate limits).log = l := by
  rw [truncate_of_uncalled hs hcalls,
    cutBack_of_uncut (keptWithin_eq_none limits.soft_lt_strong h)]
  exact ⟨rfl, rfl⟩

theorem WellFormed.truncate_of_over (hl : l.WellFormed) (hs : l.suspended = false)
    (hcalls : (l.truncate limits).calls = []) (hi : IsFirstOver limits.soft l.records i) :
    ∃ k, CutAt limits.strong l.records i k ∧
      (l.truncate limits).outcome = .ok (.severed k (l.records.length - k)) ∧
      (l.truncate limits).log.records = l.records.take k := by
  obtain ⟨k, hk, hcut⟩ := keptWithin_eq_some limits.soft_lt_strong hi
  obtain ⟨-, houtcome, hchain, -⟩ := hl.cutBack_of_cut hk
  refine ⟨k, hcut, ?_, ?_⟩
  · rw [truncate_of_uncalled hs hcalls, houtcome, records_eq, List.length_map]
  · rw [truncate_of_uncalled hs hcalls, records_eq, hchain, List.map_take, ← records_eq]

theorem WellFormed.truncate_again (hl : l.WellFormed) (hs : l.suspended = false)
    (hcalls : (l.truncate limits).calls = []) :
    ((l.truncate limits).log.truncate limits).outcome = .ok .unchanged ∧
      ((l.truncate limits).log.truncate limits).log = (l.truncate limits).log := by
  have hcut := CutTo.truncate l limits
  rcases within_or_firstOver limits.soft l.records with hwithin | ⟨i, hi⟩
  · obtain ⟨houtcome, hlog⟩ := truncate_of_within hs hcalls hwithin
    rw [hlog]
    exact ⟨houtcome, hlog⟩
  · obtain ⟨k, hk, -, hrecords⟩ := hl.truncate_of_over hs hcalls hi
    have hcost : (l.truncate limits).log.newestCost = l.newestCost := by
      rw [newestCost, newestCost, hrecords, newestGroup_take (hk.interior hi.interior)]
    have hresumed := hcut.suspended_eq.trans hs
    refine truncate_of_within hresumed (calls_truncate_of_cost hs hresumed hcost hcalls) ?_
    rw [hrecords]
    exact fun j => within_of_cut hi hk.le

/-- A truncation that calls no handler leaves the log alone if its records stay within the soft
limit at every interior boundary, and cuts it at the first one where they do not, or at the one just
newer if they pass the strong limit too. The newest records stay, within the strong limit unless
they are the newest group alone, and another truncation leaves them alone. -/
theorem truncate_cuts_at_limits (hl : l.WellFormed) (hs : l.suspended = false)
    (hcalls : (l.truncate limits).calls = []) :
    ((∀ i, IsInterior l.records i → totalCost (l.records.take i) ≤ limits.soft) →
      (l.truncate limits).outcome = .ok .unchanged ∧ (l.truncate limits).log = l) ∧
    (∀ i, IsFirstOver limits.soft l.records i → ∃ k, CutAt limits.strong l.records i k ∧
      (l.truncate limits).outcome = .ok (.severed k (l.records.length - k)) ∧
      (l.truncate limits).log.records = l.records.take k ∧
      (l.truncate limits).log.length = k ∧
      newestGroup (l.records.take k) = newestGroup l.records ∧
      (totalCost (l.records.take k) ≤ limits.strong ∨ ∀ j < k, ¬IsInterior l.records j)) ∧
    ((l.truncate limits).log.truncate limits).outcome = .ok .unchanged ∧
    ((l.truncate limits).log.truncate limits).log = (l.truncate limits).log := by
  refine ⟨truncate_of_within hs hcalls, fun i hi => ?_, hl.truncate_again hs hcalls⟩
  obtain ⟨k, hk, houtcome, hrecords⟩ := hl.truncate_of_over hs hcalls hi
  have hinterior := hk.interior hi.interior
  refine ⟨k, hk, houtcome, hrecords, ?_, newestGroup_take hinterior,
    hk.within limits.soft_lt_strong hi⟩
  rw [((CutTo.truncate l limits).wellFormed hl).length_eq, hrecords, List.length_take,
    Nat.min_eq_left (Nat.le_of_lt hinterior.lt_length)]

/-- Four insertions, each a group of its own. -/
def fourInsertions : UndoLog :=
  ((((((empty.recordInsert 0 1).boundary.recordInsert 5 1).boundary.recordInsert 0 1).boundary
    ).recordInsert 5 1).boundary)

theorem fourInsertions_wellFormed : fourInsertions.WellFormed :=
  empty_wellFormed.recordInsert 0 1 |>.boundary.recordInsert 5 1 |>.boundary.recordInsert 0 1
    |>.boundary.recordInsert 5 1 |>.boundary

/-- The two newest groups cost as much as the soft limit, and the third passes the strong limit by
one. -/
theorem fourInsertions_cut :
    let limits : Limits := ⟨96, 143, none, none, by decide⟩
    fourInsertions.WellFormed ∧ fourInsertions.suspended = false ∧
      (fourInsertions.truncate limits).calls = [] ∧ IsFirstOver 96 fourInsertions.records 6 ∧
      (fourInsertions.truncate limits).outcome = .ok (.severed 4 4) ∧
      ((fourInsertions.truncate limits).log.truncate limits).outcome = .ok .unchanged := by
  intro limits
  have hfirst : IsFirstOver limits.soft fourInsertions.records 6 := by
    refine ⟨by decide, by decide, fun j hj hinterior => ?_⟩
    have hcases : ∀ j < 6, IsInterior fourInsertions.records j →
        totalCost (fourInsertions.records.take j) ≤ 96 := by decide
    exact hcases j hj hinterior
  have hcalls : (fourInsertions.truncate limits).calls = [] := rfl
  obtain ⟨-, hover, hagain, -⟩ := truncate_cuts_at_limits fourInsertions_wellFormed rfl hcalls
  obtain ⟨k, hk, houtcome, -⟩ := hover 6 hfirst
  refine ⟨fourInsertions_wellFormed, rfl, hcalls, hfirst, ?_, hagain⟩
  cases hk with
  | here h =>
      have hnot : ¬(totalCost (fourInsertions.records.take 6) ≤ 143 ∨
          ∀ j < 6, ¬IsInterior fourInsertions.records j) := by decide
      exact absurd h hnot
  | before _ hinterior hlt hlast =>
      have hfour : IsInterior fourInsertions.records 4 := by decide
      have hfive : ¬IsInterior fourInsertions.records 5 := by decide
      have hge : 4 ≤ k := Nat.le_of_not_lt fun hk => hlast 4 hk (by decide) hfour
      have hne : k ≠ 5 := fun hk => hfive (hk ▸ hinterior)
      obtain rfl : k = 4 := by omega
      exact houtcome

end UndoLog

end Editing
