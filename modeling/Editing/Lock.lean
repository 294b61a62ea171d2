import Editing.Call
import Editing.Numeral

/-!
# File locks

Who owns the lock of a file, written `user@host.pid`, and what decides on requests for locks. A
decision may depend on everything that has been asked for so far.
-/

namespace Editing

structure LockOwner where
  user : String
  host : String
  pid : Nat
deriving DecidableEq, Repr

/-- Why a text names no owner of a lock. -/
inductive LockOwnerError where
  | missingHost (text : String)
  | missingPid (text : String)
  | badPid (text : String)
deriving DecidableEq, Repr

namespace LockOwnerError

def message : LockOwnerError → String
  | missingHost text => "lock owner `" ++ text ++ "` has no `@` separator"
  | missingPid text => "lock owner `" ++ text ++ "` has no `.` before the pid"
  | badPid text => "lock owner `" ++ text ++ "` has a non-numeric pid"

end LockOwnerError

/-- The parts of a text before and after the last occurrence of a character. -/
def Text.splitLast (c : Char) : Text → Option (Text × Text)
  | [] => none
  | d :: t =>
      match Text.splitLast c t with
      | some (before, after) => some (d :: before, after)
      | none => if d = c then some ([], t) else none

theorem Text.splitLast_eq_none {c : Char} {t : Text} : Text.splitLast c t = none ↔ c ∉ t := by
  induction t with
  | nil => simp [Text.splitLast]
  | cons d t ih =>
      rw [Text.splitLast]
      cases h : Text.splitLast c t with
      | none =>
          rw [h] at ih
          by_cases hd : d = c
          · simp [hd]
          · simpa [hd, Ne.symm hd] using ih
      | some p =>
          rw [h] at ih
          simp only [reduceCtorEq, false_iff, Decidable.not_not] at ih ⊢
          exact List.mem_cons_of_mem d ih

theorem Text.splitLast_eq_some {c : Char} {t before after : Text} :
    Text.splitLast c t = some (before, after) ↔ t = before ++ c :: after ∧ c ∉ after := by
  induction t generalizing before with
  | nil => simp [Text.splitLast]
  | cons d t ih =>
      unfold Text.splitLast
      cases h : Text.splitLast c t with
      | some p =>
          obtain ⟨b, a⟩ := p
          simp only [Option.some.injEq, Prod.mk.injEq]
          constructor
          · rintro ⟨rfl, rfl⟩
            obtain ⟨ht, hc⟩ := ih.mp h
            exact ⟨by rw [ht, List.cons_append], hc⟩
          · rintro ⟨ht, hc⟩
            cases before with
            | nil =>
                have : c ∉ t := by
                  have := (List.cons.inj ht).2
                  rwa [this]
                exact absurd (Text.splitLast_eq_none.mpr this) (by simp [h])
            | cons e before =>
                obtain ⟨hd, ht⟩ := List.cons.inj ht
                have := ih.mpr ⟨ht, hc⟩
                rw [h] at this
                simpa [hd] using this
      | none =>
          have hn := Text.splitLast_eq_none.mp h
          by_cases hd : d = c
          · subst hd
            simp only [if_pos, Option.some.injEq, Prod.mk.injEq]
            constructor
            · rintro ⟨rfl, rfl⟩
              exact ⟨rfl, hn⟩
            · rintro ⟨ht, hc⟩
              cases before with
              | nil => exact ⟨rfl, (List.cons.inj ht).2⟩
              | cons e before =>
                  have := (List.cons.inj ht).2
                  exact absurd (this ▸ by simp) hn
          · simp only [if_neg hd, reduceCtorEq, false_iff, not_and]
            intro ht
            cases before with
            | nil => exact absurd (List.cons.inj ht).1 hd
            | cons e before =>
                have := (List.cons.inj ht).2
                exact absurd (this ▸ by simp) hn

namespace LockOwner

/-- The greatest process number, in 32 bits. -/
def maxPid : Nat := 0xFFFFFFFF

/-- The written form of an owner. -/
def display (o : LockOwner) : String :=
  o.user ++ "@" ++ o.host ++ "." ++ toString o.pid

/-- Reads an owner: the host starts after the last `@`, and the process after the last dot. -/
def parse (s : String) : Except LockOwnerError LockOwner :=
  match Text.splitLast '@' s.toList with
  | none => .error (.missingHost s)
  | some (user, rest) =>
      match Text.splitLast '.' rest with
      | none => .error (.missingPid s)
      | some (host, pid) =>
          match Numeral.readNat maxPid pid with
          | .error _ => .error (.badPid s)
          | .ok pid => .ok ⟨String.ofList user, String.ofList host, pid⟩

end LockOwner

/-- Whether a file is locked, and by whom. -/
inductive LockState where
  | unlocked
  | selfOwned
  | otherOwner (owner : LockOwner)
deriving DecidableEq, Repr

/-- What answers requests for locks and questions about them, in view of the calls made so far,
newest first. -/
structure LockProtocol where
  /-- The reason for which a lock is refused, if it is. -/
  refusal : List Call → ViewId → Path → Option Failure
  /-- The state of the lock of a file. -/
  state : List Call → Path → LockState

end Editing
