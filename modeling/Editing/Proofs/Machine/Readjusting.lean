import Editing.Machine.Acting
import Editing.Proofs.Machine.Shifting

/-!
# Markers put back in words

When a deleted text is put back, what was noted of a marker is taken from its position. A marker
that the text leaves at its start, or that was noted with a positive amount, comes to lie in the
text, or before it by no more than its length. Only a marker that the text carries to its end, and
that was noted with a negative amount, can be sent beyond the end of the whole text, by no more than
the length of the text put back. A word may not hold this position if the whole text is longer than
half of what a word holds.
-/

namespace Editing

namespace Document

variable {exempt : Marker → MarkerAdjustment → Bool} {d : Document} {a : MarkerAdjustment}
  {as : List MarkerAdjustment}

/-- Where a marker is sent is a number that a word with a sign holds, unless it is exempt. -/
def Receives (exempt : Marker → MarkerAdjustment → Bool) (d : Document) (a : MarkerAdjustment) :
    Prop :=
  ∀ m, d.markers.get? a.marker = some m → exempt m a = false →
    -(maxInteger : Int) - 1 ≤ m.position - a.amount ∧ m.position - a.amount ≤ maxInteger

theorem readjust?_eq (hlength : d.length ≤ maxInteger) (hplaced : d.Placed)
    (h : d.Receives exempt a) : d.readjust? exempt a = some (d.readjust a) := by
  rw [readjust?, readjust, Markers.position?]
  cases hm : d.markers.get? a.marker with
  | none => rfl
  | some m =>
      have hposition : m.position ≤ maxInteger := Nat.le_trans (hplaced a.marker m hm) hlength
      have hstop : 0 ≤ max 0 (min (d.length : Int) (m.position - a.amount)) := Int.le_max_left _ _
      simp only [Option.map_some, Machine.signed_eq hposition, Machine.signed_eq hlength,
        Option.bind_eq_bind, Option.bind_some]
      cases hexempt : exempt m a with
      | true =>
          simp only [if_true, Option.bind_some, Machine.unsigned_eq hstop]
          rfl
      | false =>
          obtain ⟨hlow, hhigh⟩ := h m hm hexempt
          simp only [Bool.false_eq_true, if_false, Machine.signedSub_eq hlow hhigh,
            Option.bind_some, Machine.unsigned_eq hstop]
          rfl

theorem readjustAll?_eq (hlength : d.length ≤ maxInteger) (hplaced : d.Placed)
    (honce : as.Pairwise fun a b => a.marker ≠ b.marker) (h : ∀ a ∈ as, d.Receives exempt a) :
    readjustAll? exempt as d = some (as.foldl readjust d) := by
  induction as generalizing d with
  | nil => rfl
  | cons a as ih =>
      obtain ⟨ha, has⟩ := List.forall_mem_cons.mp h
      obtain ⟨hapart, honce⟩ := List.pairwise_cons.mp honce
      have hsame : (d.readjust a).length = d.length :=
        congrArg List.length (d.text_readjustAll [a])
      rw [readjustAll?, readjust?_eq hlength hplaced ha, List.foldl_cons]
      refine ih (hsame ▸ hlength) (hplaced.readjust a) honce fun b hb m hm => ?_
      -- What becomes of one marker does not matter to the others.
      have hother : ([a].foldl readjust d).markers.get? b.marker = d.markers.get? b.marker :=
        get?_readjustAll_of_ne fun c hc => by
          rw [List.mem_singleton.mp hc]
          exact hapart b hb
      exact has b hb m (hother.symm.trans hm)

end Document

/-- What is noted with a deletion is about different markers. -/
theorem Record.Measured.pairwise {pos : Nat} {text : Text} {as : List MarkerAdjustment}
    (h : (Record.delete pos text as).Measured) : as.Pairwise fun a b => a.marker ≠ b.marker := by
  have honce : ∀ a ∈ as, (as.filter fun b => b.marker == a.marker) = [a] := fun a ha => (h a ha).1
  clear h
  induction as with
  | nil => exact List.Pairwise.nil
  | cons a as ih =>
      have hnone : as.filter (fun b => b.marker == a.marker) = [] := by
        have hself := honce a List.mem_cons_self
        rw [List.filter_cons, beq_self_eq_true, if_pos rfl] at hself
        exact (List.cons.inj hself).2
      have hapart : ∀ b ∈ as, a.marker ≠ b.marker := fun b hb heq =>
        List.filter_eq_nil_iff.mp hnone b hb (beq_iff_eq.mpr heq.symm)
      refine List.pairwise_cons.mpr ⟨hapart, ih fun b hb => ?_⟩
      have hrest := honce b (List.mem_cons_of_mem a hb)
      rwa [List.filter_cons, if_neg fun heq => hapart b hb (beq_iff_eq.mp heq)] at hrest

namespace Document

variable {d : Document} {pos : Nat} {text : Text} {as : List MarkerAdjustment}
  {a : MarkerAdjustment}

/-- Where a marker is that has stayed where the deletion left it, once the text is put back: at the
start of this text, or at its end if it advances. -/
theorem exists_of_readjustable (ha : a ∈ d.readjustable pos as)
    (hmeasured : (Record.delete pos text as).Measured) {m : Marker}
    (hm : (d.revised (.insert pos text)).markers.get? a.marker = some m) :
    m.position = if m.advances then pos + text.length else pos := by
  obtain ⟨hmem, hat⟩ := List.mem_filter.mp ha
  obtain ⟨-, hne, hle⟩ := hmeasured a hmem
  have hsolid : text.isEmpty = false := by
    cases text with
    | nil => exact absurd (Int.natAbs_eq_zero.mp (Nat.le_zero.mp hle)) hne
    | cons c cs => rfl
  have hmap : (d.revised (.insert pos text)).markers.get? a.marker =
      (d.markers.get? a.marker).map (·.afterInsert pos text.length) := by
    rw [revised, show (Change.insert pos text).isVoid = false from hsolid,
      if_neg Bool.false_ne_true]
    exact Table.get?_map _ _ _
  rw [hmap] at hm
  obtain ⟨b, hb, rfl⟩ := Option.map_eq_some_iff.mp hm
  have hposition : b.position = pos := by
    rw [Markers.position?, hb] at hat
    exact Option.some.inj (beq_iff_eq.mp hat)
  change Position.afterInsert b.advances pos text.length b.position =
    if b.advances then pos + text.length else pos
  rw [Position.afterInsert, hposition]
  cases b.advances with
  | true => rw [if_pos (Or.inr ⟨rfl, rfl⟩), if_pos rfl]
  | false => rw [if_neg (by simp), if_neg Bool.false_ne_true]

/-- A marker that does not advance, or was noted with a positive amount, stays within words. -/
theorem receives_turned (ha : a ∈ d.readjustable pos as)
    (hmeasured : (Record.delete pos text as).Measured) (hend : pos + text.length ≤ maxInteger) :
    Receives Machine.turnedExempt (d.revised (.insert pos text)) a := by
  intro m hm hexempt
  obtain ⟨-, -, hle⟩ := hmeasured a (List.mem_filter.mp ha).1
  have hposition := exists_of_readjustable ha hmeasured hm
  rw [Machine.turnedExempt, Bool.and_eq_false_iff, decide_eq_false_iff_not] at hexempt
  split at hposition
  · rename_i hadvances
    rcases hexempt with hstays | hpositive
    · rw [hadvances] at hstays
      cases hstays
    · omega
  · omega

/-- In texts half as long, no marker leaves what words hold. -/
theorem receives_all (ha : a ∈ d.readjustable pos as)
    (hmeasured : (Record.delete pos text as).Measured)
    (hend : 2 * (pos + text.length) ≤ maxInteger) :
    Receives Machine.noneExempt (d.revised (.insert pos text)) a := by
  intro m hm _
  obtain ⟨-, -, hle⟩ := hmeasured a (List.mem_filter.mp ha).1
  have hposition := exists_of_readjustable ha hmeasured hm
  split at hposition
  · omega
  · omega

end Document

end Editing
