/-!
# Texts

A text is the list of its Unicode scalar values. A position is the number of characters before it,
and a position past the end stands for the end, so no operation on texts can fail.
-/

namespace Editing

/-- A text, as its characters in order. -/
abbrev Text := List Char

namespace Text

/-- The characters from `start` up to `stop`, none when the bounds are inverted. -/
def slice (t : Text) (start stop : Nat) : Text :=
  (t.take stop).drop start

/-- The text with `s` put in at `pos`. -/
def insert (t : Text) (pos : Nat) (s : Text) : Text :=
  t.take pos ++ s ++ t.drop pos

/-- The text without the characters from `start` up to `stop`. -/
def remove (t : Text) (start stop : Nat) : Text :=
  t.take start ++ t.drop (max start stop)

/-- Position 0 starts a line, and so does every position just after a newline. -/
def isLineStart (t : Text) (pos : Nat) : Bool :=
  let pos := min pos t.length
  pos == 0 || t[pos - 1]? == some '\n'

/-- The end of the text ends a line, and so does every position just before a newline. -/
def isLineEnd (t : Text) (pos : Nat) : Bool :=
  match t[pos]? with
  | none => true
  | some c => c == '\n'

/-- The characters that break a line when lines are counted. -/
def breaksLine (c : Char) : Bool :=
  (0x0A ≤ c.val && c.val ≤ 0x0D) || c.val == 0x85 || c.val == 0x2028 || c.val == 0x2029

/-- The number of lines: one more than the line breaks, of which a carriage return together with
the newline after it makes one. -/
def lineCount (t : Text) : Nat :=
  1 + t.countP breaksLine - (t.zip t.tail).countP (fun p => p.1 == '\r' && p.2 == '\n')

def summary (t : Text) : String :=
  "TextStore \x7b chars: " ++ toString t.length ++ ", lines: " ++ toString t.lineCount ++ " \x7d"

@[simp] theorem length_insert (t : Text) (pos : Nat) (s : Text) :
    (t.insert pos s).length = t.length + s.length := by
  simp only [insert, List.length_append, List.length_take, List.length_drop]
  omega

@[simp] theorem insert_nil (t : Text) (pos : Nat) : t.insert pos [] = t := by
  simp [insert]

theorem length_slice (t : Text) (start stop : Nat) :
    (t.slice start stop).length = min stop t.length - start := by
  simp [slice]

theorem length_remove (t : Text) (start stop : Nat) :
    (t.remove start stop).length = t.length - (t.slice start stop).length := by
  simp only [remove, length_slice, List.length_append, List.length_take, List.length_drop]
  omega

/-- Inside its bounds, a slice is what lies between the two parts that removing it leaves. -/
theorem take_append_slice_append_drop (t : Text) {start stop : Nat} (h : start ≤ stop) :
    t.take start ++ t.slice start stop ++ t.drop stop = t := by
  have hs : t.take start ++ t.slice start stop = t.take stop := by
    have := List.take_append_drop start (t.take stop)
    rwa [List.take_take, Nat.min_eq_left h] at this
  rw [hs, List.take_append_drop]

end Text

end Editing
