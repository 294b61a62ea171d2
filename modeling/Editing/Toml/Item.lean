/-!
# Items of a configuration document

The values that a TOML document can hold, as far as anyone here asks for them: of floats only
whether they are finite, and of dates and times only that they are there.
-/

namespace Editing.Toml

/-- How a table came to be, which decides what may still be added to it. -/
inductive Origin where
  /-- By a header of its own. -/
  | header
  /-- On the way to a table with a header. -/
  | implied
  /-- By a dotted key. -/
  | dotted
  /-- As a value in braces, to which nothing can be added. -/
  | braces
deriving DecidableEq, Repr

/-- A value in a document. -/
inductive Item where
  | text (s : String)
  /-- An integer, and what number it is, if its digits make one. -/
  | integer (n : Option Int)
  | float (finite : Bool)
  | boolean (b : Bool)
  | moment
  | array (items : List Item)
  | table (origin : Origin) (entries : List (String × Item))
  /-- The tables whose headers stand in double brackets, last one first. -/
  | tables (latest : List (String × Item)) (earlier : List (List (String × Item)))
deriving Inhabited

/-- The entries of a table, in the order in which they were written. -/
abbrev Entries := List (String × Item)

mutual

/-- Whether all numbers in an item are numbers that fit: integers in 128 bits, with or without a
sign, and floats in finite doubles. -/
def Item.fits : Item → Bool
  | .text _ => true
  | .integer none => false
  | .integer (some n) => n.natAbs ≤ (if n < 0 then Nat.pow 2 127 else Nat.pow 2 128 - 1)
  | .float finite => finite
  | .boolean _ => true
  | .moment => true
  | .array items => allFit items
  | .table _ entries => entriesFit entries
  | .tables latest earlier => entriesFit latest && tablesFit earlier

def allFit : List Item → Bool
  | [] => true
  | x :: xs => x.fits && allFit xs

def entriesFit : List (String × Item) → Bool
  | [] => true
  | (_, x) :: xs => x.fits && entriesFit xs

def tablesFit : List (List (String × Item)) → Bool
  | [] => true
  | es :: rest => entriesFit es && tablesFit rest

end

end Editing.Toml
