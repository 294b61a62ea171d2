import Editing.Path

/-!
# Files below a directory

The files of a directory and of those below it, as a list. A path is followed name by name: each but
the last has to lead to a directory, and a directory is there when some file lies in it. Of what is
outside only directories are known, and nothing in them.
-/

namespace Editing.CommandLine

/-- Why a file cannot be read. -/
inductive FileError where
  /-- What the system reports, and its number. -/
  | system (reason : String) (number : Nat)
  | notText
deriving DecidableEq, Repr

namespace FileError

def missing : FileError := .system "No such file or directory" 2
def notDirectory : FileError := .system "Not a directory" 20
def isDirectory : FileError := .system "Is a directory" 21
def nameTooLong : FileError := .system "File name too long" 36
def notPermitted : FileError := .system "Permission denied" 13

/-- The cause with a number, which has a wording of its own for the usual ones. -/
def numbered (number : Nat) (reason : String) : FileError :=
  match number with
  | 2 => missing
  | 13 => notPermitted
  | 20 => notDirectory
  | 21 => isDirectory
  | 36 => nameTooLong
  | _ => .system reason number

/-- The wording of each cause. -/
def message : FileError → String
  | system reason number => reason ++ " (os error " ++ toString number ++ ")"
  | notText => "stream did not contain valid UTF-8"

end FileError

/-- The names that lead from the directory to a file, and what the file holds. -/
structure FileTree where
  files : List (List String × String)
deriving DecidableEq, Repr

/-- Where a path leads: to names below the directory, or outside. -/
inductive Place where
  | inside (names : List String)
  | outside
deriving DecidableEq, Repr

namespace FileTree

/-- The greatest number of bytes in a name. -/
def maxName : Nat := 255

/-- The greatest number of bytes in a path. -/
def maxPath : Nat := 4095

/-- What the file under some names holds. -/
def content? (t : FileTree) (names : List String) : Option String :=
  t.files.lookup names

def hasDirectory (t : FileTree) (names : List String) : Bool :=
  names.isEmpty || t.files.any fun file => names.isPrefixOf file.1.dropLast

/-- One step further along a path. -/
def step (t : FileTree) (place : Place) (name : String) : Except FileError Place :=
  match place with
  | .outside =>
      if name = "" ∨ name = "." ∨ name = ".." then .ok .outside
      else if maxName < name.utf8ByteSize then .error .nameTooLong
      else .error .missing
  | .inside names =>
      if !t.hasDirectory names then .error .notDirectory
      else if name = "" ∨ name = "." then .ok place
      else if name = ".." then .ok (if names.isEmpty then .outside else .inside names.dropLast)
      else if maxName < name.utf8ByteSize then .error .nameTooLong
      else if t.hasDirectory (names ++ [name]) || (t.content? (names ++ [name])).isSome then
        .ok (.inside (names ++ [name]))
      else .error .missing

def place (t : FileTree) (path : Path) : Except FileError Place :=
  let parts := path.spelling.splitOn "/"
  if path.spelling.isEmpty then .error .missing
  else if maxPath < path.spelling.utf8ByteSize then .error .nameTooLong
  else
    match parts with
    | "" :: rest => rest.foldlM t.step .outside
    | _ => parts.foldlM t.step (.inside [])

def read (t : FileTree) (path : Path) : Except FileError String := do
  match ← t.place path with
  | .outside => .error .isDirectory
  | .inside names =>
      match t.content? names with
      | some content => .ok content
      | none => .error .isDirectory

/-- Puts a file in the place of the one under the same names, or adds it. -/
def write (t : FileTree) (path : Path) (content : String) : FileTree :=
  let names := path.components.names
  ⟨(names, content) :: t.files.filter fun file => file.1 != names⟩

/-- The tree of files given by their paths and contents, of which later ones count. -/
def ofFiles (files : List (Path × String)) : FileTree :=
  files.foldl (fun t file => t.write file.1 file.2) ⟨[]⟩

end FileTree

end Editing.CommandLine
