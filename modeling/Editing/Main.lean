import Editing.CommandLine

/-!
# The program

The program on the files of the machine.
-/

namespace Editing.CommandLine.Machine

/-- The number of an error of the system, which may be given with the opposite sign. -/
def errorNumber (number : UInt32) : Nat :=
  if number < 0x80000000 then number.toNat else (0 - number).toNat

/-- What an error of the system says about a file. -/
def fileError : IO.Error → FileError
  | .noFileOrDirectory _ number reason => .numbered (errorNumber number) reason
  | .inappropriateType _ number reason => .numbered (errorNumber number) reason
  | .permissionDenied _ number reason => .numbered (errorNumber number) reason
  | .invalidArgument _ number reason => .numbered (errorNumber number) reason
  | .otherError number reason => .numbered (errorNumber number) reason
  | e => .system (toString e) 0

/-- What a file holds, or why it cannot be read. -/
def readFile (path : Path) : IO (Except FileError String) := do
  try
    match String.fromUTF8? (← IO.FS.readBinFile path.spelling) with
    | some content => return .ok content
    | none => return .error .notText
  catch e => return .error (fileError e)

/-- Writes a file; where that is not possible, nothing happens. -/
def writeFile (path : Path) (content : String) : IO Unit := do
  try IO.FS.writeFile path.spelling content
  catch _ => pure ()

/-- The directory of the user's own configuration files. -/
def findConfigHome : IO (Option Path) := do
  match ← IO.getEnv "XDG_CONFIG_HOME" with
  | some home =>
      if home.startsWith "/" then return some ⟨home⟩ else besideHome
  | none => besideHome
where
  besideHome : IO (Option Path) := do
    return (← IO.getEnv "HOME").map fun home => ⟨home ++ "/.config"⟩

end Editing.CommandLine.Machine

open Editing.CommandLine in
def main (words : List String) : IO UInt32 := do
  let answer ← run ⟨Machine.readFile, Machine.writeFile, ← Machine.findConfigHome⟩ words
  IO.print (String.ofList answer.output)
  IO.eprint answer.complaint
  return answer.code.toUInt32
