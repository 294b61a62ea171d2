import Editing.Script.Written

/-!
# Words and escapes

A line is cut at its blanks, and a value is put together again from the words that it was cut into,
with one space between them. No word is lost in this as long as each space of the value has a
backslash before it and the value does not end in one. Reading the escapes gives back what was
written with them, and where nothing had to be escaped the written form is the text itself.
-/

namespace Editing

namespace Text

/-- Characters that no blank interrupts. -/
def IsWord (w : Text) : Prop := w ≠ [] ∧ ∀ c ∈ w, isBlank c = false

instance : DecidablePred IsWord := fun w =>
  decidable_of_iff (w ≠ [] ∧ w.all (!isBlank ·) = true) (by simp [IsWord])

end Text

namespace Command

open Text

variable {ws : List Text} {t : Text}

/-- Words with a space before each. -/
def spaced (ws : List Text) : Text := ws.flatMap (' ' :: ·)

theorem spaced_cons (w : Text) (ws : List Text) : spaced (w :: ws) = ' ' :: (w ++ spaced ws) := rfl

theorem spaced_append (ws vs : List Text) : spaced (ws ++ vs) = spaced ws ++ spaced vs :=
  List.flatMap_append

theorem joinWords_cons (w : Text) (ws : List Text) : joinWords (w :: ws) = w ++ spaced ws := by
  induction ws generalizing w with
  | nil => simp [joinWords, spaced]
  | cons v ws ih =>
      change w ++ ([' '] ++ joinWords (v :: ws)) = _
      rw [ih, spaced_cons]
      rfl

/-- The words of an argument are spaced out as the argument is. -/
theorem spaced_joinWords (before : List Text) (w : Text) (ws : List Text) :
    spaced (before ++ [joinWords (w :: ws)]) = spaced (before ++ w :: ws) := by
  have hnil : spaced [] = [] := rfl
  rw [spaced_append, spaced_append, spaced_cons, spaced_cons, joinWords_cons, List.append_assoc,
    hnil, List.append_nil]

theorem head?_spaced (ws : List Text) : ∀ c ∈ (spaced ws).head?, isBlank c = true := by
  cases ws with
  | nil => exact nofun
  | cons w ws =>
      rintro c hc
      cases hc
      rfl

theorem words_spaced (h : ∀ w ∈ ws, IsWord w) : words (spaced ws) = ws := by
  induction ws with
  | nil => rfl
  | cons w ws ih =>
      obtain ⟨⟨hne, hw⟩, hws⟩ := List.forall_mem_cons.mp h
      have hblank : isBlank ' ' = true := rfl
      rw [spaced_cons, words_blank_cons hblank, words_append hw hne _ (head?_spaced ws), ih hws]

/-- The space before the first argument is no part of the arguments. -/
theorem words_drop_spaced (h : ∀ w ∈ ws, IsWord w) : words ((spaced ws).drop 1) = ws := by
  cases ws with
  | nil => rfl
  | cons w ws =>
      have hblank : isBlank ' ' = true := rfl
      have hwords := words_spaced h
      rwa [spaced_cons, words_blank_cons hblank] at hwords

theorem not_newline_of_isWord {w : Text} (h : IsWord w) : '\n' ∉ w := by
  intro hmem
  exact absurd (h.2 '\n' hmem) (by decide)

theorem not_newline_spaced (h : ∀ w ∈ ws, '\n' ∉ w) : '\n' ∉ spaced ws := by
  intro hmem
  obtain ⟨w, hw, hmem⟩ := List.mem_flatMap.mp hmem
  rcases List.mem_cons.mp hmem with heq | hmem
  · cases heq
  · exact h w hw hmem

/-! ## Escapes -/

/-- A character of the value of a property. -/
def escapeValueChar (c : Char) : Text :=
  if c = ' ' then ['\\', ' '] else escapeChar c

theorem escapeValue_cons (c : Char) (t : Text) :
    escapeValue (c :: t) = escapeValueChar c ++ escapeValue t := rfl

theorem unescape_cons {c : Char} (h : c ≠ '\\') (t : Text) :
    unescape (c :: t) = c :: unescape t := by
  rw [unescape]
  · exact fun _ heq _ => h heq
  · exact fun _ heq _ => h heq
  · exact fun _ _ heq _ => h heq

theorem unescape_escapeChar (c : Char) (t : Text) :
    unescape (escapeChar c ++ t) = c :: unescape t := by
  rw [escapeChar]
  split
  · rename_i hc
    rw [hc]
    rfl
  · rename_i hbackslash
    split
    · rename_i hc
      rw [hc]
      rfl
    · split
      · rename_i hc
        rw [hc]
        rfl
      · exact unescape_cons hbackslash t

theorem unescape_escapeValueChar (c : Char) (t : Text) :
    unescape (escapeValueChar c ++ t) = c :: unescape t := by
  rw [escapeValueChar]
  split
  · rename_i hc
    rw [hc]
    rfl
  · exact unescape_escapeChar c t

theorem unescape_flatMap {f : Char → Text}
    (h : ∀ c t, unescape (f c ++ t) = c :: unescape t) (t : Text) : unescape (t.flatMap f) = t := by
  induction t with
  | nil => rfl
  | cons c t ih => rw [List.flatMap_cons, h, ih]

theorem unescape_escape (t : Text) : unescape (escape t) = t :=
  unescape_flatMap unescape_escapeChar t

theorem unescape_escapeValue (t : Text) : unescape (escapeValue t) = t :=
  unescape_flatMap unescape_escapeValueChar t

/-- A character is escaped with a backslash, or stands for itself. -/
theorem escapeValueChar_cases (c : Char) :
    '\\' ∈ escapeValueChar c ∨ escapeValueChar c = [c] := by
  rw [escapeValueChar, escapeChar]
  repeat' split
  all_goals first
    | exact Or.inl List.mem_cons_self
    | exact Or.inr rfl

/-- Without a backslash nothing has been escaped. -/
theorem escapeValue_eq_self (h : '\\' ∉ escapeValue t) : escapeValue t = t := by
  induction t with
  | nil => rfl
  | cons c t ih =>
      rw [escapeValue_cons, List.mem_append, not_or] at h
      rw [escapeValue_cons, (escapeValueChar_cases c).resolve_left h.1, ih h.2]
      rfl

theorem not_newline_escape (t : Text) : '\n' ∉ escape t := by
  intro hmem
  obtain ⟨c, -, hc⟩ := List.mem_flatMap.mp hmem
  rw [escapeChar] at hc
  split at hc
  · exact absurd hc (by decide)
  · split at hc
    · exact absurd hc (by decide)
    · rename_i hnewline
      split at hc
      · exact absurd hc (by decide)
      · exact hnewline (List.mem_singleton.mp hc).symm

/-- A character that is no blank, or a newline or a tab, has a written form without blanks. -/
theorem isWord_escapeChar {c : Char} (h : isBlank c = true → c = '\n' ∨ c = '\t') :
    IsWord (escapeChar c) := by
  rw [escapeChar]
  split
  · decide
  · split
    · decide
    · rename_i hnewline
      split
      · decide
      · rename_i htab
        refine ⟨List.cons_ne_nil _ _, List.forall_mem_singleton.mpr ?_⟩
        refine Bool.eq_false_iff.mpr fun hblank => ?_
        exact (h hblank).elim hnewline htab

theorem isWord_append {v w : Text} (hv : IsWord v) (hw : IsWord w) : IsWord (v ++ w) :=
  ⟨List.append_ne_nil_of_left_ne_nil hv.1 w, List.forall_mem_append.mpr ⟨hv.2, hw.2⟩⟩

/-- The written form of a value that does not end in a space is words with one space between them:
each of its spaces ends a word, as a backslash stands before it, and another word follows. -/
theorem exists_words_escapeValue (hne : t ≠ []) (hend : t.getLast? ≠ some ' ')
    (hblank : ∀ c ∈ t, isBlank c = true → c = ' ' ∨ c = '\n' ∨ c = '\t') :
    ∃ w ws, escapeValue t = joinWords (w :: ws) ∧ ∀ x ∈ w :: ws, IsWord x := by
  induction t with
  | nil => exact absurd rfl hne
  | cons c t ih =>
      obtain ⟨hc, ht⟩ := List.forall_mem_cons.mp hblank
      cases t with
      | nil =>
          -- The last character is no space, so what is written for it is one word.
          have hspace : c ≠ ' ' := fun heq => hend (by rw [heq]; rfl)
          have hword := isWord_escapeChar fun hb => (hc hb).resolve_left hspace
          refine ⟨escapeChar c, [], ?_, List.forall_mem_singleton.mpr hword⟩
          rw [joinWords_cons, escapeValue_cons, escapeValueChar, if_neg hspace]
          rfl
      | cons b t =>
          obtain ⟨w, ws, hjoin, hwords⟩ :=
            ih (List.cons_ne_nil b t) (by rwa [List.getLast?_cons_cons] at hend) ht
          rw [joinWords_cons] at hjoin
          by_cases hspace : c = ' '
          · refine ⟨['\\'], w :: ws, ?_, List.forall_mem_cons.mpr ⟨?_, hwords⟩⟩
            · rw [escapeValue_cons, hjoin, escapeValueChar, if_pos hspace, joinWords_cons,
                spaced_cons]
              rfl
            · decide
          · have hword := isWord_escapeChar fun hb => (hc hb).resolve_left hspace
            obtain ⟨hw, hws⟩ := List.forall_mem_cons.mp hwords
            refine ⟨escapeChar c ++ w, ws, ?_,
              List.forall_mem_cons.mpr ⟨isWord_append hword hw, hws⟩⟩
            rw [escapeValue_cons, hjoin, escapeValueChar, if_neg hspace, joinWords_cons,
              List.append_assoc]

end Command

end Editing
