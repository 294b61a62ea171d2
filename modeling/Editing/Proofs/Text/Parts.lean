import Editing.Position
import Editing.Text

/-!
# Parts of an edited text

Two positions cut a text into the part before them, the part between them and the part after them.
An edit of the whole text is an edit of these parts: a deletion takes out of each part what lies in
the deleted range, and an insertion goes into one of the parts. The new cuts lie where the two
positions go, so what lies between two positions that move with the text can be told from what lay
between them before.
-/

namespace Editing

/-- Whether text inserted at a position comes to lie between two positions, which may advance. -/
def Position.Between (front rear : Bool) (pos p q : Nat) : Prop :=
  (p < pos ∨ p = pos ∧ front = false) ∧ (pos < q ∨ pos = q ∧ rear = true)

instance (front rear : Bool) (pos p q : Nat) : Decidable (Position.Between front rear pos p q) :=
  inferInstanceAs (Decidable (_ ∧ _))

namespace Text

variable {t : Text} {start stop offset p q pos : Nat}

/-- The characters of a text that starts at the offset, without those whose position is in the
range. -/
def without (start stop offset : Nat) (t : Text) : Text :=
  ((t.zipIdx offset).filter fun x => !(start ≤ x.2 && x.2 < stop)).map Prod.fst

/-- The parts of a text before two positions, between them and after them. -/
def parts (t : Text) (p q : Nat) : Text × Text × Text :=
  (t.take p, t.slice p q, t.drop q)

/-! ## Cutting a text -/

theorem parts_append (x y z : Text) :
    Text.parts (x ++ y ++ z) x.length (x ++ y).length = (x, y, z) := by
  rw [parts, slice, List.take_left, List.drop_left, List.drop_left, List.append_assoc,
    List.take_left]

/-- A text is made of its parts. -/
theorem exists_parts (hpq : p ≤ q) (hq : q ≤ t.length) :
    ∃ x y z : Text, t.parts p q = (x, y, z) ∧ t = x ++ y ++ z ∧ x.length = p ∧
      (x ++ y).length = q := by
  refine ⟨t.take p, t.slice p q, t.drop q, rfl, (t.take_append_slice_append_drop hpq).symm, ?_, ?_⟩
  · rw [List.length_take]
    omega
  · rw [List.length_append, length_slice, List.length_take]
    omega

/-! ## Deletions -/

theorem without_append (start stop offset : Nat) (s t : Text) :
    without start stop offset (s ++ t) =
      without start stop offset s ++ without start stop (offset + s.length) t := by
  simp only [without, List.zipIdx_append, List.filter_append, List.map_append]

/-- Nothing is taken out of a text that lies before the range or behind it. -/
theorem without_of_apart (h : offset + t.length ≤ start ∨ stop ≤ offset) :
    without start stop offset t = t := by
  have hall : ∀ x ∈ t.zipIdx offset, (!(start ≤ x.2 && x.2 < stop)) = true := by
    intro x hx
    have hlow := List.le_snd_of_mem_zipIdx hx
    have hhigh := List.snd_lt_add_of_mem_zipIdx hx
    simp
    omega
  rw [without, List.filter_eq_self.mpr hall, List.zipIdx_map_fst]

/-- Nothing stays of a text that lies within the range. -/
theorem without_of_within (h : start ≤ offset) (h' : offset + t.length ≤ stop) :
    without start stop offset t = [] := by
  have hnone : ∀ x ∈ t.zipIdx offset, ¬(!(start ≤ x.2 && x.2 < stop)) = true := by
    intro x hx
    have hlow := List.le_snd_of_mem_zipIdx hx
    have hhigh := List.snd_lt_add_of_mem_zipIdx hx
    simp
    omega
  rw [without, List.filter_eq_nil_iff.mpr hnone, List.map_nil]

/-- Removing a range leaves what does not lie there. -/
theorem remove_eq_without (h : start ≤ stop) (hstop : stop ≤ t.length) :
    t.remove start stop = without start stop 0 t := by
  obtain ⟨x, y, z, hparts, ht, hx, hxy⟩ := exists_parts h hstop
  have hleft : t.take start = x := congrArg Prod.fst hparts
  have hright : t.drop stop = z := congrArg (fun parts => parts.2.2) hparts
  rw [List.length_append] at hxy
  have hbefore : without start stop 0 x = x := without_of_apart (by omega)
  have hwithin : without start stop (0 + x.length) y = [] :=
    without_of_within (by omega) (by omega)
  have hafter : without start stop (0 + (x ++ y).length) z = z :=
    without_of_apart (by rw [List.length_append]; omega)
  calc t.remove start stop = x ++ [] ++ z := by
        rw [remove, Nat.max_eq_right h, hleft, hright, List.append_nil]
    _ = without start stop 0 (x ++ y ++ z) := by
        rw [without_append, without_append, hbefore, hwithin, hafter]
    _ = without start stop 0 t := by rw [ht]

theorem afterDelete_succ (h : start ≤ stop) (offset : Nat) :
    Position.afterDelete start stop (offset + 1) =
      Position.afterDelete start stop offset + if start ≤ offset ∧ offset < stop then 0 else 1 := by
  unfold Position.afterDelete
  repeat' split
  all_goals omega

/-- What stays of a text reaches from where its start goes to where its end goes. -/
theorem length_without (h : start ≤ stop) (offset : Nat) (t : Text) :
    Position.afterDelete start stop offset + (without start stop offset t).length =
      Position.afterDelete start stop (offset + t.length) := by
  induction t generalizing offset with
  | nil => rfl
  | cons c t ih =>
      have hsplit : without start stop offset (c :: t) =
          without start stop offset [c] ++ without start stop (offset + 1) t :=
        without_append start stop offset [c] t
      have hfirst : (without start stop offset [c]).length =
          if start ≤ offset ∧ offset < stop then 0 else 1 := by
        by_cases hin : start ≤ offset ∧ offset < stop
        · rw [if_pos hin, without_of_within hin.1 hin.2]
          rfl
        · have hout : offset + [c].length ≤ start ∨ stop ≤ offset := by
            rw [List.length_singleton]
            omega
          rw [if_neg hin, without_of_apart hout]
          rfl
      rw [hsplit, List.length_append, hfirst, ← Nat.add_assoc, ← afterDelete_succ h, ih,
        List.length_cons, Nat.add_assoc, Nat.add_comm 1]

/-- A deletion takes out of every part what lies in the deleted range. -/
theorem parts_remove (hpq : p ≤ q) (hq : q ≤ t.length) (h : start ≤ stop)
    (hstop : stop ≤ t.length) :
    Text.parts (t.remove start stop) (Position.afterDelete start stop p)
        (Position.afterDelete start stop q) =
      (without start stop 0 (t.take p), without start stop p (t.slice p q),
        without start stop q (t.drop q)) := by
  obtain ⟨x, y, z, hparts, ht, hx, hxy⟩ := exists_parts hpq hq
  obtain ⟨hleft, hmiddle, hright⟩ : t.take p = x ∧ t.slice p q = y ∧ t.drop q = z := by
    simpa [parts] using hparts
  have hfirst : (without start stop 0 x).length = Position.afterDelete start stop p := by
    have hlen := length_without h 0 x
    rwa [Nat.zero_add, hx, show Position.afterDelete start stop 0 = 0 from rfl,
      Nat.zero_add] at hlen
  have hsecond : (without start stop 0 x ++ without start stop p y).length =
      Position.afterDelete start stop q := by
    rw [List.length_append, hfirst, length_without h, ← hxy, List.length_append, hx]
  have hall : t.remove start stop = without start stop 0 x ++ without start stop p y ++
      without start stop q z := by
    rw [remove_eq_without h hstop, ht, without_append, without_append, Nat.zero_add, Nat.zero_add,
      hx, hxy]
  rw [hall, ← hfirst, ← hsecond, parts_append, hleft, hmiddle, hright]

theorem slice_remove (hpq : p ≤ q) (hq : q ≤ t.length) (h : start ≤ stop)
    (hstop : stop ≤ t.length) :
    Text.slice (t.remove start stop) (Position.afterDelete start stop p)
        (Position.afterDelete start stop q) = without start stop p (t.slice p q) :=
  congrArg (fun parts => parts.2.1) (parts_remove hpq hq h hstop)

theorem without_self (start offset : Nat) (t : Text) : without start start offset t = t := by
  have hall : ∀ x ∈ t.zipIdx offset, (!(start ≤ x.2 && x.2 < start)) = true := by
    intro x _
    simp
    omega
  rw [without, List.filter_eq_self.mpr hall, List.zipIdx_map_fst]

/-! ## Insertions -/

theorem insert_append_of_le {x : Text} (y s : Text) (h : pos ≤ x.length) :
    Text.insert (x ++ y) pos s = x.insert pos s ++ y := by
  simp only [Text.insert, List.take_append_of_le_length h, List.drop_append_of_le_length h,
    List.append_assoc]

theorem insert_append_of_ge {x : Text} (y s : Text) (h : x.length ≤ pos) :
    Text.insert (x ++ y) pos s = x ++ y.insert (pos - x.length) s := by
  simp only [Text.insert, List.take_append, List.drop_append, List.take_of_length_le h,
    List.drop_eq_nil_of_le h, List.nil_append, List.append_assoc]

/-- An insertion goes into the part between two positions, or into the part on its side of them. -/
theorem parts_insert (front rear : Bool) (hpq : p ≤ q) (hq : q ≤ t.length) (s : Text)
    (hord : Position.afterInsert front pos s.length p ≤ Position.afterInsert rear pos s.length q) :
    let cut := Text.parts (t.insert pos s) (Position.afterInsert front pos s.length p)
      (Position.afterInsert rear pos s.length q)
    (Position.Between front rear pos p q →
      cut = (t.take p, (t.slice p q).insert (pos - p) s, t.drop q)) ∧
    (¬Position.Between front rear pos p q →
      pos ≤ p ∧ cut = (Text.insert (t.take p) pos s, t.slice p q, t.drop q) ∨
      q ≤ pos ∧ cut = (t.take p, t.slice p q, Text.insert (t.drop q) (pos - q) s)) := by
  intro cut
  obtain ⟨x, y, z, hparts, ht, rfl, rfl⟩ := exists_parts hpq hq
  obtain ⟨hleft, hmiddle, hright⟩ :
      t.take x.length = x ∧ t.slice x.length (x ++ y).length = y ∧
        t.drop (x ++ y).length = z := by
    simpa [parts] using hparts
  have hlength : (x ++ y).length = x.length + y.length := List.length_append
  simp only [cut, hleft, hmiddle, hright]
  refine ⟨fun ⟨hp, hq⟩ => ?_, fun hnot => ?_⟩
  · have hstart : Position.afterInsert front pos s.length x.length = x.length := by
      rw [Position.afterInsert, if_neg (by grind)]
    have hstop : Position.afterInsert rear pos s.length (x ++ y).length =
        (x ++ y.insert (pos - x.length) s).length := by
      rw [Position.afterInsert, if_pos (by grind), List.length_append, List.length_append,
        length_insert, Nat.add_assoc]
    rw [hstart, hstop, ht, insert_append_of_le z s (by omega), insert_append_of_ge y s (by omega),
      parts_append]
  · by_cases hp : pos < x.length ∨ x.length = pos ∧ front = true
    · have hstart : Position.afterInsert front pos s.length x.length =
          (x.insert pos s).length := by
        rw [Position.afterInsert, if_pos hp, length_insert]
      -- When nothing lies between the positions, the second has to advance as the first does.
      have hstop : Position.afterInsert rear pos s.length (x ++ y).length =
          (x.insert pos s ++ y).length := by
        rw [hstart] at hord
        simp only [Position.afterInsert, List.length_append, length_insert] at hord ⊢
        grind
      left
      refine ⟨by omega, ?_⟩
      rw [hstart, hstop, ht, insert_append_of_le z s (by omega),
        insert_append_of_le y s (by omega), parts_append]
    · have hpos : (x ++ y).length ≤ pos ∧ ¬(pos = (x ++ y).length ∧ rear = true) := by
        simp only [Position.Between] at hnot
        grind
      have hstart : Position.afterInsert front pos s.length x.length = x.length := by
        rw [Position.afterInsert, if_neg hp]
      have hstop : Position.afterInsert rear pos s.length (x ++ y).length = (x ++ y).length := by
        rw [Position.afterInsert, if_neg (by grind)]
      right
      refine ⟨hpos.1, ?_⟩
      rw [hstart, hstop, ht, insert_append_of_ge z s hpos.1, parts_append]

/-- What lies between two positions takes in an insertion there, and no other one. -/
theorem slice_insert (front rear : Bool) (hpq : p ≤ q) (hq : q ≤ t.length) (s : Text)
    (hord : Position.afterInsert front pos s.length p ≤ Position.afterInsert rear pos s.length q) :
    Text.slice (t.insert pos s) (Position.afterInsert front pos s.length p)
        (Position.afterInsert rear pos s.length q) =
      if Position.Between front rear pos p q then (t.slice p q).insert (pos - p) s
      else t.slice p q := by
  obtain ⟨hinside, hbeside⟩ := parts_insert front rear hpq hq s hord
  split
  · exact congrArg (fun parts => parts.2.1) (hinside ‹_›)
  · rcases hbeside ‹_› with ⟨-, hparts⟩ | ⟨-, hparts⟩
    · exact congrArg (fun parts => parts.2.1) hparts
    · exact congrArg (fun parts => parts.2.1) hparts

end Text

end Editing
