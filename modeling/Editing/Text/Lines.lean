import Editing.Text

/-!
# Lines of a text

A newline ends a line and is no part of it, nor is a carriage return just before the newline. What
follows the last newline is a line only if it is not empty.
-/

namespace Editing.Text

/-- What a character does to the piece of text up to the next newline and the pieces after it. -/
def addToPieces (c : Char) (p : Text × List Text) : Text × List Text :=
  if c = '\n' then ([], p.1 :: p.2) else (c :: p.1, p.2)

/-- The pieces between newlines: the first one, and the ones after it. -/
def pieces (t : Text) : Text × List Text :=
  t.foldr addToPieces ([], [])

/-- A line without the carriage return at its end. -/
def dropReturn (line : Text) : Text :=
  if line.getLast? = some '\r' then line.dropLast else line

/-- The lines that pieces make, of which only the last one has no newline behind it. -/
def linesOfPieces (first : Text) : List Text → List Text
  | [] => if first.isEmpty then [] else [first]
  | next :: rest => dropReturn first :: linesOfPieces next rest

/-- The lines of a text. -/
def lines (t : Text) : List Text :=
  linesOfPieces t.pieces.1 t.pieces.2

/-! ## Lines one after the other -/

theorem pieces_append {u : Text} (hu : '\n' ∉ u) (t : Text) :
    pieces (u ++ t) = (u ++ t.pieces.1, t.pieces.2) := by
  induction u with
  | nil => rfl
  | cons c u ih =>
      have hc : c ≠ '\n' := fun hc => hu (hc ▸ List.mem_cons_self)
      have hrest : pieces (u ++ t) = (u ++ t.pieces.1, t.pieces.2) :=
        ih fun hmem => hu (List.mem_cons_of_mem c hmem)
      change addToPieces c (pieces (u ++ t)) = _
      rw [hrest, addToPieces, if_neg hc]
      rfl

/-- What stands before the first newline is the first line. -/
theorem lines_append {u : Text} (hu : '\n' ∉ u) (t : Text) :
    lines (u ++ '\n' :: t) = dropReturn u :: lines t := by
  have hnewline : pieces ('\n' :: t) = ([], t.pieces.1 :: t.pieces.2) := rfl
  rw [lines, pieces_append hu, hnewline, List.append_nil, linesOfPieces, lines]

/-- Without a newline there is at most one line. -/
theorem lines_of_not_mem {t : Text} (ht : '\n' ∉ t) : t.lines = if t.isEmpty then [] else [t] := by
  have hpieces := pieces_append ht []
  rw [List.append_nil] at hpieces
  rw [lines, hpieces]
  change linesOfPieces (t ++ []) [] = _
  rw [List.append_nil, linesOfPieces]

/-- The lines before any one of the lines of a text are the lines of a part at its start. -/
theorem exists_of_lines {t line : Text} {before later : List Text}
    (h : t.lines = before ++ line :: later) :
    ∃ done rest, t = done ++ rest ∧ done.lines = before := by
  induction before generalizing t with
  | nil => exact ⟨[], t, rfl, rfl⟩
  | cons first before ih =>
      have hnewline : '\n' ∈ t := by
        refine Decidable.byContradiction fun hnone => ?_
        have hlength := congrArg List.length h
        rw [lines_of_not_mem hnone] at hlength
        simp only [List.cons_append, List.length_cons, List.length_append] at hlength
        split at hlength
        · simp at hlength
        · simp at hlength
      obtain ⟨u, rest, rfl, hu⟩ := List.eq_append_cons_of_mem hnewline
      rw [lines_append hu] at h
      obtain ⟨hfirst, hrest⟩ := List.cons.inj h
      obtain ⟨done, tail, rfl, hdone⟩ := ih hrest
      refine ⟨u ++ '\n' :: done, tail, by simp, ?_⟩
      rw [lines_append hu, hdone, hfirst]

end Editing.Text
