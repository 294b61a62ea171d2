import Editing.Text.Store

/-!
# Taking out and putting in

A range of a text splits it into what lies before the range, in it and after it, whatever the bounds
of the range are. Taking the range out joins the first part and the last, and putting the middle back
between them restores the text; what is put in is the middle of the new text in the same way.
-/

namespace Editing.Text

/-- The parts of a text before a range, in it and after it. -/
theorem takeOut_parts (t : Text) (start stop : Nat) :
    ∃ before after : Text,
      t = before ++ (t.takeOut start stop).1 ++ after ∧
      (t.takeOut start stop).2 = before ++ after ∧
      before.length = t.within start ∧
      (before ++ (t.takeOut start stop).1).length = max (t.within start) (t.within stop) := by
  have hslice : t.slice start (max start stop) = t.slice start stop := by
    simp only [slice, List.drop_take]
    congr 1
    omega
  refine ⟨t.take start, t.drop (max start stop), ?_, ?_, ?_, ?_⟩
  · rw [takeOut_eq, ← hslice, take_append_slice_append_drop t (Nat.le_max_left start stop)]
  · rw [takeOut_eq, remove]
  · rw [List.length_take, within]
  · rw [takeOut_eq, List.length_append, List.length_take, length_slice]
    simp only [within]
    omega

theorem putIn_append (before after s : Text) :
    putIn (before ++ after) before.length s = (s.length, before ++ s ++ after) := by
  rw [putIn_eq, insert, List.take_left, List.drop_left]

theorem takeOut_append (before s after : Text) :
    takeOut (before ++ s ++ after) before.length (before.length + s.length) =
      (s, before ++ after) := by
  have hafter : max before.length (before.length + s.length) = (before ++ s).length := by
    rw [List.length_append]
    omega
  rw [takeOut_eq, remove, hafter, List.drop_left, slice, ← List.length_append, List.take_left,
    List.drop_left, List.append_assoc, List.take_left]

/-- Taking a range out and putting a text in undo each other, for all bounds and all positions. What
is taken out is the copy of the range, which is what lies in the text between the bounds; the text
gets shorter by its length, and putting it back where the range starts restores the text. Putting a
text in answers with its length, the text gets longer by it, and taking as many characters out from
the same position gives back what was put in and restores the text. -/
theorem takeOut_and_putIn_inverse (t : Text) :
    (∀ start stop : Nat,
      let removed := (t.takeOut start stop).1
      let rest := (t.takeOut start stop).2
      removed = t.copy start stop ∧
      rest.length + removed.length = t.length ∧
      rest.putIn (min start t.length) removed = (removed.length, t) ∧
      ∃ before after : Text, t = before ++ removed ++ after ∧ rest = before ++ after ∧
        before.length = min start t.length ∧
        (before ++ removed).length = max (min start t.length) (min stop t.length)) ∧
    ∀ (pos : Nat) (s : Text),
      let count := (t.putIn pos s).1
      let longer := (t.putIn pos s).2
      count = s.length ∧
      longer.length = t.length + count ∧
      longer.takeOut (min pos t.length) (min pos t.length + count) = (s, t) := by
  refine ⟨fun start stop => ?_, fun pos s => ?_⟩
  · intro removed rest
    obtain ⟨before, after, ht, hrest, hbefore, hlast⟩ := takeOut_parts t start stop
    change t = before ++ removed ++ after at ht
    change rest = before ++ after at hrest
    refine ⟨?_, ?_, ?_, before, after, ht, hrest, hbefore, hlast⟩
    · rw [copy_eq]
      exact congrArg Prod.fst (takeOut_eq t start stop)
    · rw [ht, hrest]
      simp only [List.length_append]
      omega
    · change rest.putIn (t.within start) removed = (removed.length, t)
      rw [← hbefore, hrest, putIn_append, ← ht]
  · intro count longer
    have hcount : count = s.length := congrArg Prod.fst (putIn_eq t pos s)
    have hlonger : longer = t.take pos ++ s ++ t.drop pos := congrArg Prod.snd (putIn_eq t pos s)
    refine ⟨hcount, ?_, ?_⟩
    · rw [hcount, hlonger, ← insert, length_insert]
    · rw [hcount, hlonger, ← List.length_take, takeOut_append, List.take_append_drop]

example : takeOut ['a', 'b', 'c'] 1 50 = (['b', 'c'], ['a']) := by decide

end Editing.Text
