import Editing.Proofs.Script.Wording
import Editing.Proofs.Text.Numerals

/-!
# Commands on lines

Every command that a script can hold has a line: written out and read again, it is the same command.
Names must be words, numbers must fit, and a text that is a value must not be taken for a value of
another kind; a text to be inserted may be any. Blanks in front of the line do not matter. A line
without a command is blank, or its first character that is no blank starts a comment.
-/

namespace Editing

/-- Whether a value can be written on a line. A text must not read as another value, and the only
blanks that can be in it are spaces, newlines and tabs, of which a space must not be the last. -/
def Value.Writable : Value → Prop
  | .nil | .bool _ => True
  | .int n => -(maxInteger + 1 : Int) ≤ n ∧ n ≤ maxInteger
  | .str s =>
      s ≠ "" ∧ s.toList.getLast? ≠ some ' ' ∧
        (∀ c ∈ s.toList, Text.isBlank c = true → c = ' ' ∨ c = '\n' ∨ c = '\t') ∧
        s ≠ "nil" ∧ s ≠ "true" ∧ s ≠ "false" ∧
        ∀ n, Numeral.readInt maxInteger s.toList ≠ .ok n
  | .symbol _ => False

namespace Command

open Text Numeral

/-- Whether a command can be written on a line: its names are words, and its numbers and values can
be written. -/
def Writable : Command → Prop
  | root name | switch name | kill name | deleteOverlay name => IsWord name.toList
  | indirect base name => IsWord base.toList ∧ IsWord name.toList
  | goto pos => pos ≤ maxPosition
  | delete p q | narrow p q => p ≤ maxPosition ∧ q ≤ maxPosition
  | overlay name p q => IsWord name.toList ∧ p ≤ maxPosition ∧ q ≤ maxPosition
  | put name key value => IsWord name.toList ∧ IsWord key.toList ∧ value.Writable
  | property start stop key old =>
      start ≤ maxPosition ∧ stop ≤ maxPosition ∧ IsWord key.toList ∧ old.Writable
  | insert _ | erase | widen | readOnly _ | clearOverlays | undo | truncate | reclaim | print
  | overlays => True

/-! ## Numbers and values -/

theorem isBlank_of_isDigit {c : Char} (h : c.isDigit = true) : isBlank c = false := by
  obtain ⟨hlow, hhigh⟩ := isDigit_iff.mp h
  have hlow : 48 ≤ c.toNat := hlow
  have hhigh : c.toNat ≤ 57 := hhigh
  rw [isBlank]
  simp only [Bool.or_eq_false_iff, Bool.and_eq_false_iff, decide_eq_false_iff_not,
    beq_eq_false_iff_ne]
  omega

theorem isWord_writePosition (n : Nat) : IsWord (writePosition n) := by
  obtain ⟨hne, hdigits, -⟩ := spells_toDigits n
  exact ⟨hne, fun c hc => isBlank_of_isDigit (hdigits c hc)⟩

theorem isWord_pair {v w : Text} (hv : IsWord v) (hw : IsWord w) : ∀ x ∈ [v, w], IsWord x :=
  List.forall_mem_cons.mpr ⟨hv, List.forall_mem_singleton.mpr hw⟩

theorem position_writePosition {n : Nat} (h : n ≤ maxPosition) :
    position (writePosition n) = .ok n := by
  have hread : readNat maxPosition (writePosition n) = .ok n :=
    readNat_eq_ok.mpr ⟨_, Or.inl rfl, spells_toDigits n, h⟩
  rw [position, hread]

theorem twoPositions_writePosition {p q : Nat} (hp : p ≤ maxPosition) (hq : q ≤ maxPosition) :
    twoPositions [writePosition p, writePosition q] = .ok (p, q) := by
  rw [twoPositions, two]
  simp only [bind, Except.bind, position_writePosition hp, position_writePosition hq]
  rfl

/-- What reads as an integer is none of the reserved words. -/
theorem readValue_of_readInt {t : Text} {n : Int} (h : readInt maxInteger t = .ok n) :
    readValue t = .int n := by
  have hword : ∀ u : Text, (∃ c ∈ u, ¬c.isDigit = true ∧ c ≠ '+' ∧ c ≠ '-') → t ≠ u := by
    rintro u ⟨c, hc, hdigit, hplus, hminus⟩ rfl
    rcases mem_of_readInt h c hc with hyes | heq | heq
    · exact hdigit hyes
    · exact hplus heq
    · exact hminus heq
  have hnil := hword "nil".toList ⟨'n', by decide⟩
  have htrue := hword "true".toList ⟨'t', by decide⟩
  have hfalse := hword "false".toList ⟨'f', by decide⟩
  rw [readValue, if_neg hnil, if_neg htrue, if_neg hfalse, h]

/-- A written text is no word without backslashes but the text itself. -/
theorem escapeValue_ne {s w : String} (hw : '\\' ∉ w.toList) (h : s ≠ w) :
    escapeValue s.toList ≠ w.toList := by
  intro heq
  rw [← heq] at hw
  exact h (String.toList_inj.mp ((escapeValue_eq_self hw).symm.trans heq))

theorem readInt_escapeValue {t : Text} (h : ∀ n, readInt maxInteger t ≠ .ok n) (n : Int) :
    readInt maxInteger (escapeValue t) ≠ .ok n := by
  intro hn
  have hbackslash : '\\' ∉ escapeValue t := by
    intro hmem
    exact absurd (mem_of_readInt hn '\\' hmem) (by decide)
  rw [escapeValue_eq_self hbackslash] at hn
  exact h n hn

theorem readValue_writeValue {v : Value} (h : v.Writable) : readValue (writeValue v) = v := by
  cases v with
  | nil => rfl
  | bool b => cases b <;> rfl
  | int n =>
      apply readValue_of_readInt
      rw [readInt_eq_ok]
      refine ⟨_, n.natAbs, spells_toDigits n.natAbs, ?_⟩
      obtain ⟨hlow, hhigh⟩ := h
      rw [writeValue]
      split
      · rename_i hneg
        exact Or.inr ⟨rfl, by omega, by omega⟩
      · rename_i hnonneg
        exact Or.inl ⟨Or.inl rfl, by omega, by omega⟩
  | str s =>
      obtain ⟨-, -, -, hnil, htrue, hfalse, hint⟩ := h
      have hread := readInt_escapeValue hint
      rw [writeValue, readValue, if_neg (escapeValue_ne (by decide) hnil),
        if_neg (escapeValue_ne (by decide) htrue), if_neg (escapeValue_ne (by decide) hfalse)]
      split
      · rename_i n hn
        exact absurd hn (hread n)
      · rw [unescape_escapeValue, String.ofList_toList]
  | symbol name => exact h.elim

theorem exists_words_writeValue {v : Value} (h : v.Writable) :
    ∃ w ws, writeValue v = joinWords (w :: ws) ∧ ∀ x ∈ w :: ws, IsWord x := by
  -- All values but texts are a single word.
  have hsingle : ∀ w : Text, IsWord w → ∃ x xs, w = joinWords (x :: xs) ∧ ∀ y ∈ x :: xs, IsWord y :=
    fun w hw => ⟨w, [], by rw [joinWords_cons]; exact (List.append_nil w).symm,
      List.forall_mem_singleton.mpr hw⟩
  cases v with
  | nil => exact hsingle _ (by decide)
  | bool b => cases b <;> exact hsingle _ (by decide)
  | int n =>
      apply hsingle
      rw [writeValue]
      split
      · obtain ⟨-, hdigits⟩ := isWord_writePosition n.natAbs
        exact ⟨List.cons_ne_nil _ _, List.forall_mem_cons.mpr ⟨rfl, hdigits⟩⟩
      · exact isWord_writePosition n.natAbs
  | str s =>
      obtain ⟨hne, hend, hblank, -⟩ := h
      exact exists_words_escapeValue (fun heq => hne (String.toList_eq_nil_iff.mp heq)) hend hblank
  | symbol name => exact h.elim

/-- Words and a value behind them are read as they were written, the words of the value as one. -/
theorem words_value {before : List Text} {v : Value} (hbefore : ∀ w ∈ before, IsWord w)
    (hv : v.Writable) :
    ∃ w ws, words ((spaced (before ++ [writeValue v])).drop 1) = before ++ w :: ws ∧
      readValue (joinWords (w :: ws)) = v := by
  obtain ⟨w, ws, hjoin, hwords⟩ := exists_words_writeValue hv
  refine ⟨w, ws, ?_, ?_⟩
  · rw [hjoin, spaced_joinWords]
    exact words_drop_spaced (List.forall_mem_append.mpr ⟨hbefore, hwords⟩)
  · rw [← hjoin, readValue_writeValue hv]

/-! ## Commands -/

/-- A word with the arguments of a command behind it is read as that command. -/
theorem ofWord_written {c : Command} (h : c.Writable) :
    ofWord c.word.toList ((spaced c.arguments).drop 1) = .ok c := by
  -- The readings that several commands share: a name, and two positions.
  have hname : ∀ name : String, IsWord name.toList →
      one (words ((spaced [name.toList]).drop 1)) = .ok name := by
    intro name hw
    rw [words_drop_spaced (List.forall_mem_singleton.mpr hw), one, String.ofList_toList]
  have hpositions : ∀ p q, p ≤ maxPosition ∧ q ≤ maxPosition →
      twoPositions (words ((spaced [writePosition p, writePosition q]).drop 1)) = .ok (p, q) := by
    intro p q hpq
    have hwords := words_drop_spaced (isWord_pair (isWord_writePosition p) (isWord_writePosition q))
    rw [hwords, twoPositions_writePosition hpq.1 hpq.2]
  rw [ofWord, String.ofList_toList]
  cases c with
  | root name => exact congrArg (root <$> ·) (hname name h)
  | switch name => exact congrArg (switch <$> ·) (hname name h)
  | kill name => exact congrArg (kill <$> ·) (hname name h)
  | deleteOverlay name => exact congrArg (deleteOverlay <$> ·) (hname name h)
  | indirect base name =>
      have hwords := words_drop_spaced (isWord_pair h.1 h.2)
      simp only [word, arguments, hwords, two]
      change Except.ok (indirect (String.ofList base.toList) (String.ofList name.toList)) = _
      rw [String.ofList_toList, String.ofList_toList]
  | goto pos =>
      have hword := words_drop_spaced (List.forall_mem_singleton.mpr (isWord_writePosition pos))
      simp only [word, arguments, hword, one]
      change goto <$> position (String.ofList (writePosition pos)).toList = _
      rw [String.toList_ofList, position_writePosition h]
      rfl
  | delete p q => exact congrArg (Functor.map fun r => delete r.1 r.2) (hpositions p q h)
  | narrow p q => exact congrArg (Functor.map fun r => narrow r.1 r.2) (hpositions p q h)
  | overlay name p q =>
      obtain ⟨hname, hp, hq⟩ := h
      have hpair := isWord_pair (isWord_writePosition p) (isWord_writePosition q)
      have hwords := words_drop_spaced (List.forall_mem_cons.mpr ⟨hname, hpair⟩)
      simp only [word, arguments, hwords, position_writePosition hp, position_writePosition hq]
      change Except.ok (overlay (String.ofList name.toList) p q) = _
      rw [String.ofList_toList]
  | put name key value =>
      obtain ⟨hname, hkey, hvalue⟩ := h
      obtain ⟨w, ws, hwords, hread⟩ := words_value (isWord_pair hname hkey) hvalue
      change _ = name.toList :: key.toList :: w :: ws at hwords
      rw [List.cons_append, List.cons_append, List.nil_append] at hwords
      simp only [word, arguments, hwords, hread, String.ofList_toList]
  | property start stop key old =>
      obtain ⟨hstart, hstop, hkey, hold⟩ := h
      have hpair := isWord_pair (isWord_writePosition stop) hkey
      obtain ⟨w, ws, hwords, hread⟩ :=
        words_value (List.forall_mem_cons.mpr ⟨isWord_writePosition start, hpair⟩) hold
      change _ = writePosition start :: writePosition stop :: key.toList :: w :: ws at hwords
      rw [List.cons_append, List.cons_append, List.cons_append, List.nil_append] at hwords
      simp only [word, arguments, hwords, hread, position_writePosition hstart,
        position_writePosition hstop]
      change Except.ok (property start stop (String.ofList key.toList) old) = _
      rw [String.ofList_toList]
  | insert text =>
      have hdrop : (spaced [escape text]).drop 1 = escape text := List.append_nil _
      simp only [word, arguments, hdrop, unescape_escape]
  | readOnly flag => cases flag <;> rfl
  | erase | widen | clearOverlays | undo | truncate | reclaim | print | overlays => rfl

theorem isWord_word (c : Command) : IsWord c.word.toList := by
  cases c <;> (rw [word]; decide)

theorem head?_word_ne (c : Command) : c.word.toList.head? ≠ some '#' := by
  cases c <;> (rw [word]; decide)

theorem not_newline_writeValue {v : Value} (h : v.Writable) : '\n' ∉ writeValue v := by
  obtain ⟨w, ws, hjoin, hwords⟩ := exists_words_writeValue h
  obtain ⟨hw, hws⟩ := List.forall_mem_cons.mp hwords
  rw [hjoin, joinWords_cons, List.mem_append, not_or]
  exact ⟨not_newline_of_isWord hw, not_newline_spaced fun w hw => not_newline_of_isWord (hws w hw)⟩

theorem not_newline_arguments {c : Command} (h : c.Writable) : ∀ w ∈ c.arguments, '\n' ∉ w := by
  have hposition := fun n => not_newline_of_isWord (isWord_writePosition n)
  cases c with
  | root name | switch name | kill name | deleteOverlay name =>
      exact List.forall_mem_singleton.mpr (not_newline_of_isWord h)
  | insert text => exact List.forall_mem_singleton.mpr (not_newline_escape text)
  | goto pos => exact List.forall_mem_singleton.mpr (hposition pos)
  | readOnly flag => cases flag <;> decide
  | indirect base name =>
      simp only [arguments, List.forall_mem_cons]
      exact ⟨not_newline_of_isWord h.1, not_newline_of_isWord h.2, nofun⟩
  | delete p q | narrow p q =>
      simp only [arguments, List.forall_mem_cons]
      exact ⟨hposition p, hposition q, nofun⟩
  | overlay name p q =>
      simp only [arguments, List.forall_mem_cons]
      exact ⟨not_newline_of_isWord h.1, hposition p, hposition q, nofun⟩
  | put name key value =>
      obtain ⟨hname, hkey, hvalue⟩ := h
      simp only [arguments, List.forall_mem_cons]
      exact ⟨not_newline_of_isWord hname, not_newline_of_isWord hkey,
        not_newline_writeValue hvalue, nofun⟩
  | property start stop key old =>
      obtain ⟨-, -, hkey, hold⟩ := h
      simp only [arguments, List.forall_mem_cons]
      exact ⟨hposition start, hposition stop, not_newline_of_isWord hkey,
        not_newline_writeValue hold, nofun⟩
  | erase | widen | clearOverlays | undo | truncate | reclaim | print | overlays => exact nofun

theorem not_newline_written {c : Command} (h : c.Writable) : '\n' ∉ c.written := by
  intro hmem
  rcases List.mem_append.mp hmem with hmem | hmem
  · exact not_newline_of_isWord (isWord_word c) hmem
  · exact not_newline_spaced (not_newline_arguments h) hmem

/-! ## Lines -/

theorem isSkipped_iff {line : Text} :
    isSkipped line = true ↔ line.trimStart = [] ∨ ∃ rest, line.trimStart = '#' :: rest := by
  rw [isSkipped]
  cases line.trimStart with
  | nil => exact ⟨fun _ => Or.inl rfl, fun _ => rfl⟩
  | cons c t =>
      constructor
      · intro hc
        exact Or.inr ⟨t, by rw [beq_iff_eq.mp hc]⟩
      · rintro (heq | ⟨rest, heq⟩)
        · cases heq
        · cases heq
          rfl

theorem parse_eq_none_iff {line : Text} :
    parse line = .ok none ↔ line.trimStart = [] ∨ ∃ rest, line.trimStart = '#' :: rest := by
  rw [← isSkipped_iff, parse]
  split
  · rename_i hskipped
    exact iff_of_true rfl hskipped
  · rename_i hcommand
    refine iff_of_false ?_ hcommand
    dsimp only
    generalize ofWord _ _ = read
    cases read <;> exact nofun

theorem trimStart_append {blanks t : Text} (hblanks : ∀ b ∈ blanks, isBlank b = true)
    (ht : ∀ c ∈ t.head?, isBlank c = false) : trimStart (blanks ++ t) = t := by
  rw [trimStart, List.dropWhile_append_of_pos hblanks]
  cases t with
  | nil => rfl
  | cons c t => exact List.dropWhile_cons_of_neg (by rw [ht c rfl]; exact Bool.false_ne_true)

/-- A line of words is cut behind its first word. -/
theorem parse_spaced {blanks w : Text} (hblanks : ∀ b ∈ blanks, isBlank b = true) (hw : IsWord w)
    (hcomment : w.head? ≠ some '#') (args : List Text) :
    parse (blanks ++ (w ++ spaced args)) = some <$> ofWord w ((spaced args).drop 1) := by
  obtain ⟨hne, hletters⟩ := hw
  have hhead : (w ++ spaced args).head? = w.head? := by
    rw [List.head?_append]
    exact Option.or_of_isSome (List.isSome_head?.mpr hne)
  have htrim : trimStart (blanks ++ (w ++ spaced args)) = w ++ spaced args := by
    refine trimStart_append hblanks fun c hc => ?_
    rw [hhead] at hc
    exact hletters c (List.mem_of_mem_head? hc)
  have hskipped : ¬isSkipped (blanks ++ (w ++ spaced args)) = true := by
    rw [isSkipped_iff, htrim]
    rintro (heq | ⟨rest, heq⟩)
    · exact hne (List.append_eq_nil_iff.mp heq).1
    · rw [heq] at hhead
      exact hcomment hhead.symm
  have hspace : ∀ c ∈ w, (c != ' ') = true := by
    intro c hc
    rw [bne_iff_ne]
    rintro rfl
    exact absurd (hletters ' ' hc) (by decide)
  have htake : (spaced args).takeWhile (· != ' ') = [] := by cases args <;> rfl
  have hdrop : (spaced args).dropWhile (· != ' ') = spaced args := by cases args <;> rfl
  rw [parse, if_neg hskipped, htrim]
  dsimp only
  rw [List.takeWhile_append_of_pos hspace, List.dropWhile_append_of_pos hspace, htake, hdrop,
    List.append_nil]

/-- Each command is read from the line that it is written on, which is a single one, whatever blanks
stand before it. Only blanks and comments are read as no command. -/
theorem commands_written_and_read :
    (∀ c : Command, c.Writable → '\n' ∉ c.written ∧
      ∀ blanks : Text, (∀ b ∈ blanks, isBlank b = true) →
        parse (blanks ++ c.written) = .ok (some c)) ∧
      ∀ line : Text, parse line = .ok none ↔
        line.trimStart = [] ∨ ∃ rest, line.trimStart = '#' :: rest := by
  refine ⟨fun c hc => ⟨not_newline_written hc, fun blanks hblanks => ?_⟩,
    fun line => parse_eq_none_iff⟩
  have hparse := parse_spaced hblanks (isWord_word c) (head?_word_ne c) c.arguments
  rw [ofWord_written hc] at hparse
  exact hparse

/-- A property with a value of several words, some of them spaces only, and escapes of all kinds. -/
def escapedProperty : Command :=
  .property 0 maxPosition "doc-string" (.str " C:\\new  line\n#end\tnil")

/-- Its line, and what is read from it behind a tab, a wide blank and a space. -/
theorem escapedProperty_written_and_read :
    escapedProperty.written =
        "property 0 18446744073709551615 doc-string \\ C:\\\\new\\ \\ line\\n#end\\tnil".toList ∧
      '\n' ∉ escapedProperty.written ∧
      parse ("\t\u3000 ".toList ++ escapedProperty.written) = .ok (some escapedProperty) := by
  have hwritable : escapedProperty.Writable := by
    refine ⟨Nat.zero_le _, Nat.le_refl _, by decide, by decide, by decide, ?_, by decide, by decide,
      by decide, ?_⟩
    · have hblanks : (" C:\\new  line\n#end\tnil".toList.filter isBlank).all
          fun c => c = ' ' ∨ c = '\n' ∨ c = '\t' := by decide
      intro c hc hblank
      exact of_decide_eq_true (List.all_eq_true.mp hblanks c (List.mem_filter.mpr ⟨hc, hblank⟩))
    · intro n hn
      exact absurd (mem_of_readInt hn 'C' (by decide)) (by decide)
  obtain ⟨hline, hread⟩ := commands_written_and_read.1 escapedProperty hwritable
  exact ⟨by decide, hline, hread "\t\u3000 ".toList (List.all_eq_true.mp (by decide))⟩

end Command

end Editing
