import Editing.Text

/-!
# Blanks and words

The blank characters are those with the Unicode property White_Space. A line is trimmed of them at
its ends and cut at them into words.
-/

namespace Editing.Text

/-- Whether a character has the property White_Space. -/
def isBlank (c : Char) : Bool :=
  (0x09 ≤ c.toNat && c.toNat ≤ 0x0D) || c.toNat == 0x20 || c.toNat == 0x85 || c.toNat == 0xA0 ||
    c.toNat == 0x1680 || (0x2000 ≤ c.toNat && c.toNat ≤ 0x200A) || c.toNat == 0x2028 ||
    c.toNat == 0x2029 || c.toNat == 0x202F || c.toNat == 0x205F || c.toNat == 0x3000

/-- The text from its first character that is not blank. -/
def trimStart (t : Text) : Text :=
  t.dropWhile isBlank

/-- The text without the blanks at its ends. -/
def trim (t : Text) : Text :=
  (t.trimStart.reverse.dropWhile isBlank).reverse

/-- A word not yet finished on its left, put before the words after it unless it is empty. -/
def finishWord (p : Text × List Text) : List Text :=
  if p.1.isEmpty then p.2 else p.1 :: p.2

/-- What a character does to the word it may belong to and the words after it. -/
def addToWords (c : Char) (p : Text × List Text) : Text × List Text :=
  if isBlank c then ([], finishWord p) else (c :: p.1, p.2)

/-- The longest runs of characters that are not blank, in order. -/
def words (t : Text) : List Text :=
  finishWord (t.foldr addToWords ([], []))

@[simp] theorem words_nil : words [] = [] := rfl

theorem words_blank_cons {c : Char} (h : isBlank c = true) (t : Text) :
    words (c :: t) = words t := by
  simp [words, addToWords, finishWord, h]

theorem foldr_addToWords_append {w : Text} (hw : ∀ c ∈ w, isBlank c = false)
    (p : Text × List Text) : w.foldr addToWords p = (w ++ p.1, p.2) := by
  induction w with
  | nil => rfl
  | cons c w ih =>
      have hc := hw c List.mem_cons_self
      rw [List.foldr_cons, ih fun d hd => hw d (List.mem_cons_of_mem c hd)]
      simp [addToWords, hc]

/-- A run of characters that are not blank, up to a blank or the end, is the first word. -/
theorem words_append {w : Text} (hw : ∀ c ∈ w, isBlank c = false) (hne : w ≠ []) (t : Text)
    (ht : ∀ c ∈ t.head?, isBlank c = true) : words (w ++ t) = w :: words t := by
  rw [words, List.foldr_append, foldr_addToWords_append hw]
  cases t with
  | nil => simp [finishWord, hne]
  | cons c t =>
      have hc : isBlank c = true := ht c rfl
      rw [words_blank_cons hc]
      simp [words, addToWords, finishWord, hc, hne]

end Editing.Text
