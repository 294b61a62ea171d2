import Editing.History.Record

/-!
# Reverting records

A record tells what the text was before its change: reverting it on the text after the change gives
the text before. Reverting all records, newest first, walks back through the history of a text.
-/

namespace Editing.Record

/-- Whether the change of the record lies within a text of the given length. -/
def fits (length : Nat) : Record → Bool
  | insert pos n => pos + n ≤ length
  | delete pos _ _ => pos ≤ length
  | property _ stop _ _ => stop ≤ length
  | boundary => true

/-- The text before the change of the record, given the text after it. -/
def revert : Record → Text → Text
  | insert pos n, t => Text.remove t pos (pos + n)
  | delete pos s _, t => Text.insert t pos s
  | property .., t => t
  | boundary, t => t

/-- The text before the changes of several records, newest first. -/
def revertAll : List Record → Text → Text
  | [], t => t
  | r :: rs, t => revertAll rs (r.revert t)

/-- The group that is under way at the newest record, and the groups older than it. -/
def splitGroups : List Record → List Record × List (List Record)
  | [] => ([], [])
  | r :: rs =>
      let (group, older) := splitGroups rs
      if r.isBoundary then ([], if group.isEmpty then older else group :: older)
      else (r :: group, older)

/-- The groups of records, newest first. -/
def groups (rs : List Record) : List (List Record) :=
  let (group, older) := splitGroups rs
  if group.isEmpty then older else group :: older

@[simp] theorem revertAll_cons (r : Record) (rs : List Record) (t : Text) :
    revertAll (r :: rs) t = revertAll rs (r.revert t) := rfl

theorem revertAll_append (rs ss : List Record) (t : Text) :
    revertAll (rs ++ ss) t = revertAll ss (revertAll rs t) := by
  induction rs generalizing t with
  | nil => rfl
  | cons r rs ih => exact ih (r.revert t)

theorem revert_insert (t s : Text) {pos : Nat} (h : pos ≤ t.length) :
    (insert pos s.length).revert (t.insert pos s) = t := by
  have hl : (t.take pos).length = pos := by simp [h]
  rw [revert, Text.remove, Text.insert, Nat.max_eq_right (Nat.le_add_right pos s.length),
    List.append_assoc, List.take_left' hl, ← List.append_assoc,
    List.drop_left' (by rw [List.length_append, hl]), List.take_append_drop]

theorem revert_delete (t : Text) {start stop : Nat} (markers : List MarkerAdjustment)
    (hs : start ≤ stop) (h : stop ≤ t.length) :
    (delete start (t.slice start stop) markers).revert (t.remove start stop) = t := by
  have hl : (t.take start).length = start := by
    rw [List.length_take]
    exact Nat.min_eq_left (Nat.le_trans hs h)
  rw [revert, Text.insert, Text.remove, Nat.max_eq_right hs, List.take_left' hl,
    List.drop_left' hl]
  exact Text.take_append_slice_append_drop t hs

end Editing.Record
