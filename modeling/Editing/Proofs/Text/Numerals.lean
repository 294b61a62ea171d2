import Editing.Numeral

/-!
# What numerals are read

A numeral is a run of decimal digits, with a sign in front or not. It is read exactly if the number
that its digits make is within the limit, so a number that is written out in decimal is read back.
-/

namespace Editing.Numeral

variable {limit n m : Nat} {excess : NumeralError} {t digits : Text}

/-- One or more decimal digits, and the number that they make. -/
def Spells (digits : Text) (n : Nat) : Prop :=
  digits ≠ [] ∧ (∀ c ∈ digits, c.isDigit = true) ∧ Nat.ofDigitChars 10 digits 0 = n

theorem isDigit_iff {c : Char} : c.isDigit = true ↔ '0' ≤ c ∧ c ≤ '9' := by
  rw [Char.isDigit, Bool.and_eq_true, decide_eq_true_iff, decide_eq_true_iff]
  rfl

theorem digit?_of_isDigit {c : Char} (h : c.isDigit = true) :
    digit? c = some (c.toNat - '0'.toNat) := if_pos (isDigit_iff.mp h)

theorem digit?_of_not_isDigit {c : Char} (h : ¬c.isDigit = true) : digit? c = none :=
  if_neg fun hc => h (isDigit_iff.mpr hc)

/-- Further digits make a number no smaller. -/
theorem le_ofDigitChars (t : Text) (n : Nat) : n ≤ Nat.ofDigitChars 10 t n := by
  induction t generalizing n with
  | nil => exact Nat.le_refl n
  | cons c t ih =>
      rw [Nat.ofDigitChars_cons]
      exact Nat.le_trans (by omega) (ih _)

/-- Digits are read to the end exactly if the number that they make in the end is within the limit,
as the numbers on the way are no greater. -/
theorem readDigits_eq_ok (hn : n ≤ limit) :
    readDigits limit excess n t = .ok m ↔
      (∀ c ∈ t, c.isDigit = true) ∧ Nat.ofDigitChars 10 t n = m ∧ m ≤ limit := by
  induction t generalizing n with
  | nil =>
      rw [readDigits, Nat.ofDigitChars_nil, Except.ok.injEq]
      constructor
      · rintro rfl
        exact ⟨nofun, rfl, hn⟩
      · exact fun h => h.2.1
  | cons c t ih =>
      rw [readDigits, List.forall_mem_cons, Nat.ofDigitChars_cons]
      by_cases hc : c.isDigit = true
      · rw [digit?_of_isDigit hc]
        dsimp only
        split
        · rename_i hlt
          refine iff_of_false nofun ?_
          rintro ⟨-, rfl, hm⟩
          exact Nat.not_lt.mpr (Nat.le_trans (le_ofDigitChars t _) hm) hlt
        · rename_i hle
          rw [ih (Nat.not_lt.mp hle), and_iff_right hc]
      · rw [digit?_of_not_isDigit hc]
        exact iff_of_false nofun fun h => hc h.1.1

theorem readMagnitude_eq_ok :
    readMagnitude limit excess t = .ok n ↔ Spells t n ∧ n ≤ limit := by
  rw [readMagnitude, Spells]
  split
  · rename_i hempty
    exact iff_of_false nofun fun h => h.1.1 (List.isEmpty_iff.mp hempty)
  · rename_i hne
    rw [readDigits_eq_ok (Nat.zero_le limit), and_assoc, and_assoc]
    exact (and_iff_right (mt List.isEmpty_iff.mpr hne)).symm

theorem Spells.ne_sign (h : Spells digits n) :
    (∀ t, digits ≠ '+' :: t) ∧ ∀ t, digits ≠ '-' :: t := by
  constructor
  · rintro t rfl
    exact absurd (h.2.1 '+' List.mem_cons_self) (by decide)
  · rintro t rfl
    exact absurd (h.2.1 '-' List.mem_cons_self) (by decide)

theorem readNat_of_unsigned (hne : t ≠ []) (hplus : ∀ u, t ≠ '+' :: u) :
    readNat limit t = readMagnitude limit .tooLarge t := by
  unfold readNat
  split
  · exact absurd rfl hne
  · exact absurd rfl (hplus _)
  · rfl

/-- A natural number is read from its digits, with a plus sign in front of them or not. -/
theorem readNat_eq_ok :
    readNat limit t = .ok n ↔
      ∃ digits, (t = digits ∨ t = '+' :: digits) ∧ Spells digits n ∧ n ≤ limit := by
  constructor
  · intro h
    unfold readNat at h
    split at h
    · cases h
    · exact ⟨_, Or.inr rfl, readMagnitude_eq_ok.mp h⟩
    · exact ⟨_, Or.inl rfl, readMagnitude_eq_ok.mp h⟩
  · rintro ⟨digits, rfl | rfl, hspells, hle⟩
    · rw [readNat_of_unsigned hspells.1 hspells.ne_sign.1]
      exact readMagnitude_eq_ok.mpr ⟨hspells, hle⟩
    · exact readMagnitude_eq_ok.mpr ⟨hspells, hle⟩

theorem readInt_of_unsigned (hne : t ≠ []) (hplus : ∀ u, t ≠ '+' :: u)
    (hminus : ∀ u, t ≠ '-' :: u) :
    readInt limit t = (readMagnitude limit .tooLarge t).map fun n => (n : Int) := by
  unfold readInt
  split
  · exact absurd rfl hne
  · exact absurd rfl (hminus _)
  · exact absurd rfl (hplus _)
  · rfl

/-- A number with a sign is there only if its magnitude is. -/
theorem exists_of_signed {x : Except NumeralError Nat} {f : Int → Int} {i : Int}
    (h : ((do let n ← x; pure (n : Int)) : Except NumeralError Int).map f = .ok i) :
    ∃ n : Nat, x = .ok n ∧ i = f n := by
  cases x with
  | error e => cases h
  | ok n =>
      cases h
      exact ⟨n, rfl, rfl⟩

/-- An integer is read from its digits with a sign in front of them, which may be missing if it is a
plus. One more is within the limit below zero than above. -/
theorem readInt_eq_ok {i : Int} :
    readInt limit t = .ok i ↔
      ∃ digits n, Spells digits n ∧
        ((t = digits ∨ t = '+' :: digits) ∧ n ≤ limit ∧ i = n ∨
          t = '-' :: digits ∧ n ≤ limit + 1 ∧ i = -n) := by
  constructor
  · intro h
    unfold readInt at h
    split at h
    · cases h
    · obtain ⟨n, hn, rfl⟩ := exists_of_signed h
      obtain ⟨hspells, hle⟩ := readMagnitude_eq_ok.mp hn
      exact ⟨_, n, hspells, Or.inr ⟨rfl, hle, rfl⟩⟩
    · obtain ⟨n, hn, rfl⟩ := exists_of_signed h
      obtain ⟨hspells, hle⟩ := readMagnitude_eq_ok.mp hn
      exact ⟨_, n, hspells, Or.inl ⟨Or.inr rfl, hle, rfl⟩⟩
    · obtain ⟨n, hn, rfl⟩ := exists_of_signed h
      obtain ⟨hspells, hle⟩ := readMagnitude_eq_ok.mp hn
      exact ⟨_, n, hspells, Or.inl ⟨Or.inl rfl, hle, rfl⟩⟩
  · rintro ⟨digits, n, hspells, ⟨rfl | rfl, hle, rfl⟩ | ⟨rfl, hle, rfl⟩⟩
    · rw [readInt_of_unsigned hspells.1 hspells.ne_sign.1 hspells.ne_sign.2,
        readMagnitude_eq_ok.mpr ⟨hspells, hle⟩]
      rfl
    · rw [readInt, readMagnitude_eq_ok.mpr ⟨hspells, hle⟩]
      rfl
    · rw [readInt, readMagnitude_eq_ok.mpr ⟨hspells, hle⟩]
      rfl

/-- Every character of a numeral is a digit or a sign. -/
theorem mem_of_readInt {i : Int} (h : readInt limit t = .ok i) :
    ∀ c ∈ t, c.isDigit = true ∨ c = '+' ∨ c = '-' := by
  obtain ⟨digits, n, ⟨-, hdigits, -⟩, ⟨rfl | rfl, -⟩ | ⟨rfl, -⟩⟩ := readInt_eq_ok.mp h
  · exact fun c hc => Or.inl (hdigits c hc)
  · exact List.forall_mem_cons.mpr ⟨Or.inr (Or.inl rfl), fun c hc => Or.inl (hdigits c hc)⟩
  · exact List.forall_mem_cons.mpr ⟨Or.inr (Or.inr rfl), fun c hc => Or.inl (hdigits c hc)⟩

/-- The decimal digits of a number spell it. -/
theorem spells_toDigits (n : Nat) : Spells (Nat.toDigits 10 n) n :=
  ⟨Nat.toDigits_ne_nil, fun _ hc => Nat.isDigit_of_mem_toDigits (by decide) (by decide) hc,
    Nat.ofDigitChars_ten_toDigits⟩

end Editing.Numeral
