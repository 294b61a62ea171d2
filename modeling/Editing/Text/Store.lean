import Editing.Text

/-!
# Stores of a text

The operations on a text that take any position and any range: a position past the end stands for
the end, each bound of a range for itself, and an inverted range is empty at its start. They answer
with what they took out, or with how much they put in, and they are the operations of a document's
text.
-/

namespace Editing.Text

/-- The position in the text that a position stands for. -/
def within (t : Text) (pos : Nat) : Nat :=
  min pos t.length

/-- The range in the text that a range stands for. -/
def bounds (t : Text) (start stop : Nat) : Nat × Nat :=
  if t.within stop < t.within start then (t.within start, t.within start)
  else (t.within start, t.within stop)

/-- The characters in a range. -/
def copy (t : Text) (start stop : Nat) : Text :=
  let (first, last) := t.bounds start stop
  if first = last then [] else t.extract first last

/-- How many characters were put in at a position, and the text with them. -/
def putIn (t : Text) (pos : Nat) (s : Text) : Nat × Text :=
  let longer : Text := t.take (t.within pos) ++ s ++ t.drop (t.within pos)
  (longer.length - t.length, longer)

/-- The characters in a range, and the text without them. -/
def takeOut (t : Text) (start stop : Nat) : Text × Text :=
  let (first, last) := t.bounds start stop
  if first = last then ([], t) else (t.extract first last, t.take first ++ t.drop last)

variable (t : Text) (start stop pos : Nat) (s : Text)

theorem take_within : t.take (t.within pos) = t.take pos :=
  List.take_eq_take_min.symm

theorem drop_within : t.drop (t.within pos) = t.drop pos := by
  rcases Nat.le_total pos t.length with hle | hge
  · rw [within, Nat.min_eq_left hle]
  · rw [within, Nat.min_eq_right hge, List.drop_length, List.drop_eq_nil_of_le hge]

/-- The bounds lie in the text in order: the second is the greater one of where the range ends and
where it starts. -/
theorem bounds_eq :
    t.bounds start stop = (t.within start, max (t.within start) (t.within stop)) := by
  unfold bounds
  split
  · rw [Nat.max_eq_left (by omega)]
  · rw [Nat.max_eq_right (by omega)]

theorem extract_bounds :
    t.extract (t.bounds start stop).1 (t.bounds start stop).2 = t.slice start stop := by
  simp only [bounds_eq, List.extract_eq_take_drop, drop_within, slice, List.drop_take]
  rw [List.take_eq_take_iff, List.length_drop]
  simp only [within]
  omega

/-- Nothing lies in a range whose bounds are equal. -/
theorem slice_eq_nil (h : (t.bounds start stop).1 = (t.bounds start stop).2) :
    t.slice start stop = [] := by
  rw [← extract_bounds, h, List.extract_eq_take_drop, Nat.sub_self, List.take_zero]

theorem copy_eq : t.copy start stop = t.slice start stop := by
  unfold copy
  simp only
  split
  · exact (slice_eq_nil t start stop ‹_›).symm
  · exact extract_bounds t start stop

theorem putIn_eq : t.putIn pos s = (s.length, t.insert pos s) := by
  have hlonger : t.take (t.within pos) ++ s ++ t.drop (t.within pos) = t.insert pos s := by
    rw [take_within, drop_within, insert]
  rw [putIn, hlonger, length_insert, Nat.add_sub_cancel_left]

theorem remove_bounds :
    t.take (t.bounds start stop).1 ++ t.drop (t.bounds start stop).2 = t.remove start stop := by
  have hlast : max (t.within start) (t.within stop) = t.within (max start stop) := by
    simp only [within]
    omega
  rw [bounds_eq, hlast, take_within, drop_within, remove]

theorem takeOut_eq : t.takeOut start stop = (t.slice start stop, t.remove start stop) := by
  unfold takeOut
  simp only
  split
  · have hall : t.remove start stop = t := by
      rw [← remove_bounds, ‹(t.bounds start stop).1 = _›, List.take_append_drop]
    rw [slice_eq_nil t start stop ‹_›, hall]
  · rw [extract_bounds, remove_bounds]

end Editing.Text
