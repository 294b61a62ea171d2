import Editing.Lock
import Editing.Proofs.Text.Numerals

/-!
# Owners of locks as texts

An owner is read from the end: what follows the last `@`, and of that what follows the last dot.
User names may hold any character, and host names any but `@`, which would be taken for the one that
ends the user name.
-/

namespace Editing.LockOwner

open Numeral

variable {o : LockOwner} {s : String}

theorem toList_display (o : LockOwner) :
    o.display.toList =
      o.user.toList ++ '@' :: (o.host.toList ++ '.' :: Nat.toDigits 10 o.pid) := by
  simp [display]

/-- A character that is neither a digit nor a plus sign is in no number. -/
theorem not_mem_of_readNat {limit n : Nat} {pid : Text} (h : readNat limit pid = .ok n) {c : Char}
    (hdigit : ¬c.isDigit = true) (hplus : c ≠ '+') : c ∉ pid := by
  obtain ⟨digits, hform, ⟨-, hdigits, -⟩, -⟩ := readNat_eq_ok.mp h
  intro hc
  rcases hform with rfl | rfl
  · exact hdigit (hdigits c hc)
  · rcases List.mem_cons.mp hc with rfl | hc
    · exact hplus rfl
    · exact hdigit (hdigits c hc)

/-- What is read as an owner: a user, a host without `@`, and a number for the process. -/
theorem parse_eq_ok :
    parse s = .ok o ↔
      ∃ pid, s.toList = o.user.toList ++ '@' :: (o.host.toList ++ '.' :: pid) ∧
        '@' ∉ o.host.toList ∧ readNat maxPid pid = .ok o.pid := by
  constructor
  · intro h
    unfold parse at h
    split at h
    · cases h
    · rename_i user rest hat
      split at h
      · cases h
      · rename_i host pid hdot
        split at h
        · cases h
        · rename_i n hn
          cases h
          obtain ⟨hs, hrest⟩ := Text.splitLast_eq_some.mp hat
          obtain ⟨rfl, -⟩ := Text.splitLast_eq_some.mp hdot
          refine ⟨pid, by simpa using hs, ?_, hn⟩
          rw [String.toList_ofList]
          exact fun hmem => hrest (List.mem_append_left _ hmem)
  · rintro ⟨pid, hs, hhost, hpid⟩
    have hrest : '@' ∉ o.host.toList ++ '.' :: pid := by
      rw [List.mem_append, List.mem_cons, not_or, not_or]
      exact ⟨hhost, by decide, not_mem_of_readNat hpid (by decide) (by decide)⟩
    have hat : Text.splitLast '@' s.toList =
        some (o.user.toList, o.host.toList ++ '.' :: pid) :=
      Text.splitLast_eq_some.mpr ⟨hs, hrest⟩
    have hdot : Text.splitLast '.' (o.host.toList ++ '.' :: pid) = some (o.host.toList, pid) :=
      Text.splitLast_eq_some.mpr ⟨rfl, not_mem_of_readNat hpid (by decide) (by decide)⟩
    simp only [parse, hat, hdot, hpid, String.ofList_toList]

theorem le_of_parse (h : parse s = .ok o) : o.pid ≤ maxPid := by
  obtain ⟨pid, -, -, hpid⟩ := parse_eq_ok.mp h
  obtain ⟨digits, -, -, hle⟩ := readNat_eq_ok.mp hpid
  exact hle

theorem parse_display (hpid : o.pid ≤ maxPid) :
    parse o.display = .ok o ↔ '@' ∉ o.host.toList := by
  constructor
  · intro h
    obtain ⟨pid, -, hhost, -⟩ := parse_eq_ok.mp h
    exact hhost
  · intro hhost
    refine parse_eq_ok.mpr ⟨Nat.toDigits 10 o.pid, toList_display o, hhost, ?_⟩
    exact readNat_eq_ok.mpr ⟨_, Or.inl rfl, spells_toDigits o.pid, hpid⟩

/-- An owner is read back from its written form exactly if there is no `@` in its host. What has
been read as an owner is written in a form that is read as the same owner. And a text is read as an
owner exactly if it has an `@`, a dot behind the last one, and behind the last dot of that part one
or more decimal digits, with a plus sign before them or not, that make a number of 32 bits. -/
theorem owners_read_back :
    (∀ o : LockOwner, o.pid < UInt32.size → (parse o.display = .ok o ↔ '@' ∉ o.host.toList)) ∧
      (∀ s o, parse s = .ok o → parse o.display = .ok o) ∧
      ∀ s, (∃ o, parse s = .ok o) ↔
        ∃ user rest host pid digits : Text,
          s.toList = user ++ '@' :: rest ∧ '@' ∉ rest ∧ rest = host ++ '.' :: pid ∧ '.' ∉ pid ∧
            (pid = digits ∨ pid = '+' :: digits) ∧ digits ≠ [] ∧
            (∀ c ∈ digits, c.isDigit = true) ∧ Nat.ofDigitChars 10 digits 0 < UInt32.size := by
  refine ⟨fun o ho => parse_display (Nat.le_of_lt_succ ho), fun s o h => ?_, fun s => ?_⟩
  · obtain ⟨pid, -, hhost, -⟩ := parse_eq_ok.mp h
    exact (parse_display (le_of_parse h)).mpr hhost
  · constructor
    · rintro ⟨o, h⟩
      obtain ⟨pid, hs, hhost, hpid⟩ := parse_eq_ok.mp h
      obtain ⟨digits, hform, ⟨hne, hdigits, hvalue⟩, hle⟩ := readNat_eq_ok.mp hpid
      have hnone : ∀ c : Char, ¬c.isDigit = true → c ≠ '+' → c ∉ pid :=
        fun c hdigit hplus => not_mem_of_readNat hpid hdigit hplus
      refine ⟨_, _, o.host.toList, pid, digits, hs, ?_, rfl, hnone '.' (by decide) (by decide),
        hform, hne, hdigits, hvalue ▸ Nat.lt_succ_of_le hle⟩
      rw [List.mem_append, List.mem_cons, not_or, not_or]
      exact ⟨hhost, by decide, hnone '@' (by decide) (by decide)⟩
    · rintro ⟨user, rest, host, pid, digits, hs, hrest, rfl, -, hform, hne, hdigits, hlt⟩
      refine ⟨⟨String.ofList user, String.ofList host, Nat.ofDigitChars 10 digits 0⟩,
        parse_eq_ok.mpr ⟨pid, by simpa using hs, ?_, ?_⟩⟩
      · rw [String.toList_ofList]
        exact fun hmem => hrest (List.mem_append_left _ hmem)
      · exact readNat_eq_ok.mpr
          ⟨digits, hform, ⟨hne, hdigits, rfl⟩, Nat.le_of_lt_succ hlt⟩

/-- An owner whose parts look like separators, one whose host has an `@`, and a text with two of
them, a plus sign and leading zeros. -/
theorem strangeOwners_read_back :
    parse (display ⟨"a@.1", ".x", 4294967295⟩) = .ok ⟨"a@.1", ".x", 4294967295⟩ ∧
      parse (display ⟨"u", "h@x", 1⟩) ≠ .ok ⟨"u", "h@x", 1⟩ ∧
      ∃ o, parse "@@.+007" = .ok o ∧ parse o.display = .ok o := by
  obtain ⟨hback, hagain, hread⟩ := owners_read_back
  refine ⟨(hback _ (by decide)).mpr (by decide), mt (hback _ (by decide)).mp (by decide), ?_⟩
  obtain ⟨o, ho⟩ := (hread "@@.+007").mpr ⟨['@'], ".+007".toList, [], "+007".toList, "007".toList,
    by decide, by decide, by decide, by decide, Or.inr (by decide), by decide,
    List.all_eq_true.mp (by decide), by decide⟩
  exact ⟨o, ho, hagain _ o ho⟩

end Editing.LockOwner
