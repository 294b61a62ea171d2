import Editing.History.Reverting
import Editing.Proofs.History.Logging

/-!
# Records that trace a text back

Records trace a text back when each of them, newest first, lies within the text when its turn comes
and reverts it to the text that was there before its change. Recording a change, closing a group and
dropping the oldest records keep this up.
-/

namespace Editing

namespace Record

/-- The records lead from the text back through the texts before their changes, newest first. -/
def Traces : List Record → Text → List Text → Prop
  | [], _, [] => True
  | r :: rs, text, before :: earlier =>
      r.fits text.length = true ∧ r.revert text = before ∧ Traces rs before earlier
  | _, _, _ => False

variable {rs : List Record} {text : Text} {texts : List Text}

theorem Traces.length_eq (h : Traces rs text texts) : texts.length = rs.length := by
  induction rs generalizing text texts with
  | nil =>
      cases texts with
      | nil => rfl
      | cons _ _ => exact h.elim
  | cons r rs ih =>
      cases texts with
      | nil => exact h.elim
      | cons before earlier => rw [List.length_cons, ih h.2.2, List.length_cons]

theorem Traces.take (h : Traces rs text texts) (k : Nat) :
    Traces (rs.take k) text (texts.take k) := by
  induction rs generalizing text texts k with
  | nil =>
      cases texts with
      | nil =>
          rw [List.take_nil, List.take_nil]
          exact h
      | cons _ _ => exact h.elim
  | cons r rs ih =>
      cases texts with
      | nil => exact h.elim
      | cons before earlier =>
          cases k with
          | zero => trivial
          | succ k => exact ⟨h.1, h.2.1, ih h.2.2 k⟩

theorem Traces.close (h : Traces rs text texts) :
    close rs = rs ∨ close rs = .boundary :: rs ∧ Traces (close rs) text (text :: texts) := by
  cases rs with
  | nil => exact Or.inl rfl
  | cons r rs =>
      rw [Record.close]
      split
      · exact Or.inl rfl
      · exact Or.inr ⟨rfl, rfl, rfl, h⟩

end Record

theorem Text.insert_of_le (t s : Text) {pos : Nat} (h : pos ≤ t.length) :
    (t.insert pos s).take pos = t.take pos ∧
    (t.insert pos s).drop (pos + s.length) = t.drop pos := by
  have hl : (t.take pos).length = pos := by rw [List.length_take, Nat.min_eq_left h]
  constructor
  · rw [Text.insert, List.append_assoc, List.take_left' hl]
  · rw [Text.insert, List.drop_left' (by rw [List.length_append, hl])]

namespace Record

variable {rs : List Record} {text : Text} {texts : List Text}

/-- An insertion merged with the one before it is reverted in one go. -/
theorem revert_merged (t s : Text) {start n : Nat} (h : start + n ≤ t.length) :
    (insert start (n + s.length)).revert (t.insert (start + n) s) = (insert start n).revert t := by
  obtain ⟨htake, hdrop⟩ := Text.insert_of_le t s h
  have hstart : (t.insert (start + n) s).take start = t.take start := by
    have hmin : ∀ u : Text, (u.take (start + n)).take start = u.take start := by
      intro u
      rw [List.take_take, Nat.min_eq_left (Nat.le_add_right start n)]
    rw [← hmin, htake, hmin]
  rw [revert, revert, Text.remove, Text.remove, Nat.max_eq_right (Nat.le_add_right _ _),
    Nat.max_eq_right (Nat.le_add_right _ _), hstart, ← Nat.add_assoc, hdrop]

/-- An insertion recorded leads back to the text before it, or before those it is merged with. -/
theorem Traces.addInsert (h : Traces rs text texts) {pos : Nat} (hpos : pos ≤ text.length)
    (s : Text) :
    (addInsert pos s.length rs = .insert pos s.length :: rs ∧
      Traces (addInsert pos s.length rs) (text.insert pos s) (text :: texts)) ∨
    ((addInsert pos s.length rs).length = rs.length ∧
      Traces (addInsert pos s.length rs) (text.insert pos s) texts) := by
  have hpushed : Traces (.insert pos s.length :: rs) (text.insert pos s) (text :: texts) := by
    refine ⟨?_, revert_insert text s hpos, h⟩
    rw [fits, Text.length_insert]
    exact decide_eq_true (Nat.add_le_add_right hpos s.length)
  cases rs with
  | nil => exact Or.inl ⟨rfl, hpushed⟩
  | cons r rs =>
      cases r with
      | insert start n =>
          simp only [Record.addInsert]
          split
          · rename_i hmerge
            subst hmerge
            cases texts with
            | nil => exact h.elim
            | cons before earlier =>
                refine Or.inr ⟨rfl, ?_, (revert_merged text s hpos).trans h.2.1, h.2.2⟩
                rw [fits, Text.length_insert, ← Nat.add_assoc]
                exact decide_eq_true (Nat.add_le_add_right hpos s.length)
          · exact Or.inl ⟨rfl, hpushed⟩
      | delete _ _ _ => exact Or.inl ⟨rfl, hpushed⟩
      | property _ _ _ _ => exact Or.inl ⟨rfl, hpushed⟩
      | boundary => exact Or.inl ⟨rfl, hpushed⟩

theorem Traces.addDelete (h : Traces rs text texts) {start stop : Nat} (hs : start ≤ stop)
    (hstop : stop ≤ text.length) (markers : List MarkerAdjustment) :
    Traces (.delete start (text.slice start stop) markers :: rs) (text.remove start stop)
      (text :: texts) := by
  refine ⟨?_, revert_delete text markers hs hstop, h⟩
  rw [fits, Text.length_remove, Text.length_slice, Nat.min_eq_left hstop]
  exact decide_eq_true (by omega)

theorem Traces.addProperty (h : Traces rs text texts) {start stop : Nat}
    (hstop : stop ≤ text.length)
    (key : String) (value : Value) :
    Traces (.property start stop key value :: rs) text (text :: texts) :=
  ⟨decide_eq_true hstop, rfl, h⟩

end Record

end Editing
