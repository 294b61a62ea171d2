import Editing.Value

/-!
# Property lists

Properties in the order in which their keys were first put. No key occurs twice, and a put over a
present key keeps its place.
-/

namespace Editing

/-- An ordered list of properties with distinct keys. -/
structure PropertyList where
  entries : List (String × Value)
  distinct : (entries.map Prod.fst).Nodup

namespace PropertyList

def empty : PropertyList := ⟨[], List.nodup_nil⟩

instance : Inhabited PropertyList := ⟨empty⟩

def size (p : PropertyList) : Nat :=
  p.entries.length

/-- The value that a list of entries gives to a key. -/
def find (key : String) : List (String × Value) → Option Value
  | [] => none
  | e :: es => if key = e.1 then some e.2 else find key es

def get? (p : PropertyList) (key : String) : Option Value :=
  find key p.entries

/-- Writes a value over the one at its key, or at the end when the key is new. -/
def putEntry (key : String) (value : Value) : List (String × Value) → List (String × Value)
  | [] => [(key, value)]
  | e :: es => if key = e.1 then (key, value) :: es else e :: putEntry key value es

theorem keys_putEntry (key : String) (value : Value) (es : List (String × Value)) :
    (putEntry key value es).map Prod.fst =
      if key ∈ es.map Prod.fst then es.map Prod.fst else es.map Prod.fst ++ [key] := by
  induction es with
  | nil => rfl
  | cons e es ih =>
      unfold putEntry
      by_cases h : key = e.1
      · simp [h]
      · rw [if_neg h, List.map_cons, List.map_cons, ih]
        by_cases hm : key ∈ es.map Prod.fst
        · rw [if_pos hm, if_pos (List.mem_cons_of_mem _ hm)]
        · rw [if_neg hm, if_neg (by simpa [h] using hm), List.cons_append]

theorem nodup_putEntry {key : String} {value : Value} {es : List (String × Value)}
    (h : (es.map Prod.fst).Nodup) : ((putEntry key value es).map Prod.fst).Nodup := by
  rw [keys_putEntry]
  split
  · exact h
  · rename_i hk
    refine List.nodup_append.mpr ⟨h, List.nodup_cons.mpr ⟨List.not_mem_nil, List.nodup_nil⟩, ?_⟩
    intro a ha b hb hab
    rw [List.mem_singleton.mp hb] at hab
    exact hk (hab ▸ ha)

/-- The list with a value put at a key. -/
def put (p : PropertyList) (key : String) (value : Value) : PropertyList :=
  ⟨putEntry key value p.entries, nodup_putEntry p.distinct⟩

def remove (p : PropertyList) (key : String) : PropertyList :=
  ⟨p.entries.filter (fun e => e.1 != key), p.distinct.sublist (List.filter_sublist.map _)⟩

end PropertyList

end Editing
