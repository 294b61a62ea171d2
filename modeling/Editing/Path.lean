/-!
# Paths of files

A path keeps the spelling it was given. Two spellings name the same file when they have the same
components: repeated slashes, a slash at the end and single dots after the first component make no
difference.
-/

namespace Editing

/-- A path, as it is spelled. -/
structure Path where
  spelling : String
deriving DecidableEq, Repr, Inhabited

/-- The components of a path. -/
structure Path.Components where
  absolute : Bool
  /-- Whether a relative path starts with a single dot. -/
  dotted : Bool
  names : List String
deriving DecidableEq, Repr

namespace Path

/-- The components that a spelling stands for. -/
def components (p : Path) : Components :=
  let parts := p.spelling.splitOn "/"
  let names := parts.filter fun s => s != "" && s != "."
  match parts with
  | "" :: _ :: _ => ⟨true, false, names⟩
  | "." :: _ => ⟨false, true, names⟩
  | _ => ⟨false, false, names⟩

/-- Whether two spellings name the same file. -/
def same (p q : Path) : Bool :=
  p.components == q.components

theorem same_refl (p : Path) : p.same p = true := by
  simp [same]

theorem same_symm (p q : Path) : p.same q = q.same p := by
  rw [same, same, Bool.eq_iff_iff, beq_iff_eq, beq_iff_eq, eq_comm]

end Path

end Editing
