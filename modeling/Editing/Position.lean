/-!
# Positions under edits

Where a position goes when text is put in or taken out. A position at the very place of an
insertion moves past the new text only if it advances.
-/

namespace Editing.Position

/-- Where a position goes when so many characters are inserted at `pos`. -/
def afterInsert (advances : Bool) (pos length p : Nat) : Nat :=
  if pos < p ∨ (p = pos ∧ advances) then p + length else p

/-- Where a position goes when the text from `start` up to `stop` is deleted. -/
def afterDelete (start stop p : Nat) : Nat :=
  if stop < p then p - (stop - start) else if start < p then start else p

/-- The position nearest to `p` between two bounds. -/
def clamp (low high p : Nat) : Nat :=
  if p < low then low else if high < p then high else p

/-- Two positions in order. -/
def ordered (p q : Nat) : Nat × Nat :=
  if p ≤ q then (p, q) else (q, p)

theorem afterInsert_le {advances : Bool} {pos length p n : Nat} (h : p ≤ n) :
    afterInsert advances pos length p ≤ n + length := by
  unfold afterInsert
  split <;> omega

theorem afterDelete_le {start stop p n : Nat} (hs : start ≤ stop) (hn : stop ≤ n) (h : p ≤ n) :
    afterDelete start stop p ≤ n - (stop - start) := by
  unfold afterDelete
  split
  · omega
  · split <;> omega

theorem afterDelete_mono {start stop p q : Nat} (hs : start ≤ stop) (h : p ≤ q) :
    afterDelete start stop p ≤ afterDelete start stop q := by
  unfold afterDelete
  repeat' split
  all_goals omega

theorem le_clamp {low high p : Nat} (h : low ≤ high) : low ≤ clamp low high p := by
  unfold clamp
  repeat' split
  all_goals omega

theorem clamp_le {low high p : Nat} (h : low ≤ high) : clamp low high p ≤ high := by
  unfold clamp
  repeat' split
  all_goals omega

theorem clamp_of_mem {low high p : Nat} (hl : low ≤ p) (hh : p ≤ high) : clamp low high p = p := by
  unfold clamp
  repeat' split
  all_goals omega

theorem ordered_fst_le (p q : Nat) : (ordered p q).1 ≤ (ordered p q).2 := by
  unfold ordered
  split <;> simp only <;> omega

theorem ordered_comm (p q : Nat) : ordered p q = ordered q p := by
  unfold ordered
  rcases Nat.lt_trichotomy p q with hlt | rfl | hgt
  · rw [if_pos (Nat.le_of_lt hlt), if_neg (Nat.not_le.mpr hlt)]
  · rfl
  · rw [if_neg (Nat.not_le.mpr hgt), if_pos (Nat.le_of_lt hgt)]

end Editing.Position
