import Editing.Numeral

/-!
# Words of the machine

Sums and differences of positions as far as a word of the machine holds them: sixty-four bits, for
positions without a sign, and with one for distances. What a word does not hold is no result.
-/

namespace Editing.Machine

def add (p q : Nat) : Option Nat :=
  if p + q ≤ maxPosition then some (p + q) else none

def sub (p q : Nat) : Option Nat :=
  if q ≤ p then some (p - q) else none

/-- A position as a number with a sign. -/
def signed (p : Nat) : Option Int :=
  if p ≤ maxInteger then some p else none

/-- The difference of numbers with a sign. -/
def signedSub (p q : Int) : Option Int :=
  if -(maxInteger : Int) - 1 ≤ p - q ∧ p - q ≤ maxInteger then some (p - q) else none

/-- A number with a sign as a position. -/
def unsigned (p : Int) : Option Nat :=
  if 0 ≤ p then some p.toNat else none

variable {p q : Nat} {m n : Int}

theorem add_eq (h : p + q ≤ maxPosition) : add p q = some (p + q) :=
  if_pos h

theorem sub_eq (h : q ≤ p) : sub p q = some (p - q) :=
  if_pos h

theorem signed_eq (h : p ≤ maxInteger) : signed p = some (p : Int) :=
  if_pos h

theorem signedSub_eq (h : -(maxInteger : Int) - 1 ≤ m - n) (h' : m - n ≤ maxInteger) :
    signedSub m n = some (m - n) :=
  if_pos ⟨h, h'⟩

theorem unsigned_eq (h : 0 ≤ m) : unsigned m = some m.toNat :=
  if_pos h

end Editing.Machine
