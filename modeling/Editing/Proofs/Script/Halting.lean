import Editing.Proofs.Script.Executing

/-!
# Where a script stops

A script that fails has played the lines before the one that fails, and no line after it. Unless
that line holds an undo, what the script leaves is what it leaves without the line.
-/

namespace Editing

namespace Play

variable {limits : Limits} {p q r : Playback} {f : Failure}

/-- How the failure of a line with a number is seen from the script. -/
def lineContext (number : Nat) (line : Text) : String :=
  match Command.parse line with
  | .error _ => lineLabel number
  | .ok _ => lineLabel number ++ ": " ++ String.ofList line.trim

theorem context_of_playLine (h : p.session.Sound limits) {number : Nat} {line : Text}
    (hrun : (playLine number line).run p = (.error f, q)) :
    f.context = lineContext number line := by
  unfold playLine at hrun
  split at hrun
  · rename_i e hparse
    cases hrun
    rw [lineContext, hparse]
    rfl
  · cases hrun
  · rename_i c hparse
    rw [lineContext, hparse]
    let executed := within (lineLabel number ++ ": " ++ String.ofList line.trim) (execute c)
    rcases hexecuted : executed.run p with ⟨g | a, r⟩
    · rw [run_bind_error hexecuted] at hrun
      cases hrun
      rw [run_within] at hexecuted
      rcases hexecute : (execute c).run p with ⟨g | a, r⟩
      · rw [hexecute] at hexecuted
        cases hexecuted
        rfl
      · rw [hexecute] at hexecuted
        cases hexecuted
    · have hsound := ((Keeps.sound_execute c).within _).left h hexecuted
      obtain ⟨b, t, hclosed⟩ := Completes.closeGroup hsound
      rw [run_bind_ok hexecuted, hclosed] at hrun
      cases hrun

/-- Lines that fail have been played up to the first that fails. -/
theorem exists_of_playLines {number : Nat} {lines : List Text}
    (h : (playLines number lines).run p = (.error f, q)) :
    ∃ before line later r, lines = before ++ line :: later ∧
      (playLines number before).run p = (.ok (), r) ∧
      (playLine (number + before.length) line).run r = (.error f, q) := by
  induction lines generalizing number p with
  | nil => cases h
  | cons line lines ih =>
      rcases hline : (playLine number line).run p with ⟨g | a, r⟩
      · rw [playLines, run_bind_error hline] at h
        cases h
        exact ⟨[], line, lines, p, rfl, rfl, hline⟩
      · rw [playLines, run_bind_ok hline] at h
        obtain ⟨before, stopped, later, t, rfl, hbefore, hstopped⟩ := ih h
        refine ⟨line :: before, stopped, later, t, rfl, ?_, ?_⟩
        · rw [playLines, run_bind_ok hline, hbefore]
        · rw [List.length_cons, ← Nat.succ_add_eq_add_succ]
          exact hstopped

/-- No line is played after one that fails. -/
theorem playLines_stopped {number : Nat} {before : List Text} {line : Text}
    (hbefore : (playLines number before).run p = (.ok (), r))
    (hline : (playLine (number + before.length) line).run r = (.error f, q)) (later : List Text) :
    (playLines number (before ++ line :: later)).run p = (.error f, q) := by
  rw [run_playLines_append, hbefore]
  exact run_bind_error hline

end Play

namespace Playback

variable {limits : Limits} {script : Text} {failure : Failure}

/-- When a script fails, a part at its start does not, and the line after that part fails. Its
number is one more than the number of lines before it, blank ones and comments included. What is
left of the session, the names of overlays and what has been written is what that part leaves,
unless the line holds an undo. What comes after the line makes no difference. -/
theorem failed_line_leaves_no_trace (h : (run limits script).1 = .error failure) :
    ∃ (done rest line : Text) (later : List Text),
      script = done ++ rest ∧ script.lines = done.lines ++ line :: later ∧
      (run limits done).1 = .ok () ∧
      (Command.parse line ≠ .ok (some .undo) → (run limits script).2 = (run limits done).2) ∧
      failure.context = Play.lineContext (done.lines.length + 1) line ∧
      ∀ (other : Text) (others : List Text), other.lines = done.lines ++ line :: others →
        run limits other = run limits script := by
  have hrun : (Play.playLines 1 script.lines).run (start limits) =
      (.error failure, (run limits script).2) := Prod.ext h rfl
  obtain ⟨before, line, later, q, hlines, hbefore, hline⟩ := Play.exists_of_playLines hrun
  obtain ⟨done, rest, hscript, rfl⟩ := Text.exists_of_lines hlines
  have hdone : run limits done = (.ok (), q) := hbefore
  have hsound : q.session.Sound limits :=
    (Play.Keeps.sound_playLines 1 done.lines).left (.start limits) hbefore
  refine ⟨done, rest, line, later, hscript, hlines, by rw [hdone], fun hundo => ?_, ?_, ?_⟩
  · rw [hdone]
    exact Play.Spares.playLine hsound hundo _ _ _ hline
  · rw [Nat.add_comm]
    exact Play.context_of_playLine hsound hline
  · intro other others hother
    have hstopped := Play.playLines_stopped hbefore hline others
    rw [← hother] at hstopped
    exact hstopped.trans hrun.symm

/-- A view indirect to an indirect one is asked for after a comment and a blank line. -/
def twiceIndirect : Text :=
  "# views\nroot a\ninsert one\n\nindirect a b\nindirect b c\nprint\n".toList

theorem twiceIndirect_leaves_no_trace :
    (run .default twiceIndirect).1 = .error ⟨"line 6: indirect b c",
        ["invalid argument: base buffer #1 is itself indirect"]⟩ ∧
      ∃ done rest, twiceIndirect = done ++ rest ∧ (run .default done).1 = .ok () ∧
        (run .default twiceIndirect).2 = (run .default done).2 := by
  have hfailed : (run .default twiceIndirect).1 = .error ⟨"line 6: indirect b c",
      ["invalid argument: base buffer #1 is itself indirect"]⟩ := by decide +kernel
  have hundo : ∀ line ∈ twiceIndirect.lines, Command.parse line ≠ .ok (some .undo) := by
    decide +kernel
  obtain ⟨done, rest, line, later, hscript, hlines, hdone, hleft, -⟩ :=
    failed_line_leaves_no_trace hfailed
  have hline : line ∈ twiceIndirect.lines := by
    rw [hlines]
    exact List.mem_append_right _ List.mem_cons_self
  exact ⟨hfailed, done, rest, hscript, hdone, hleft (hundo line hline)⟩

end Playback

end Editing
