import Editing.CommandLine.Arguments
import Editing.CommandLine.FileTree
import Editing.Config
import Editing.Script.Playback

/-!
# Command line

The program plays one script under the limits of a configuration file: the one it is told, or the
one in the directory it runs in, or else the one among the user's own. Its log file is made before
anything else, and tells how a script failed.

All that touches files is left open, so that the program can be run on the files of a machine as
well as on a `FileTree`.
-/

namespace Editing.CommandLine

/-- What the program asks of the place in which it runs. -/
structure Surroundings (m : Type → Type) where
  read : Path → m (Except FileError String)
  write : Path → String → m Unit
  /-- The directory of the user's own configuration files. -/
  configHome : Option Path

/-- What the program leaves: its exit code, and what it writes as output and as complaint. -/
structure Answer where
  code : Nat
  output : Text
  complaint : String

namespace Answer

/-- A run that ends well. -/
def success (output : Text) : Answer := ⟨0, output, ""⟩

/-- A run that fails after some output. -/
def failed (output : Text) (f : Failure) : Answer := ⟨1, output, f.report⟩

end Answer

def programName : String := "bufcore"

def version : String := "0.0.1"

def configName : String := programName ++ ".toml"

def logFile : Path := ⟨programName ++ ".log"⟩

def usage : String := "Usage: " ++ programName ++ " [OPTIONS] <SCRIPT>"

def help : String :=
  "Replay an edit script against the buffer engine\n\n" ++ usage ++ "\n\n" ++
    "Arguments:\n" ++
    "  <SCRIPT>  Script to replay, one command per line\n\n" ++
    "Options:\n" ++
    "      --config <CONFIG>  Optional configuration file path " ++
      "(overrides discovery of `" ++ configName ++ "`)\n" ++
    "  -h, --help             Print help\n" ++
    "  -V, --version          Print version\n"

def UsageError.answer (e : UsageError) : Answer :=
  ⟨2, [], "error: " ++ e.message ++ "\n\n" ++ usage ++
    "\n\nFor more information, try '--help'.\n"⟩

def userConfig (configHome : Option Path) : Path :=
  match configHome with
  | some home => ⟨home.spelling ++ "/" ++ programName ++ "/" ++ configName⟩
  | none => ⟨configName⟩

section

variable {m : Type → Type} [Monad m]

/-- The text of a configuration file, if it can be read. -/
def configText (s : Surroundings m) (given : Option Path) : m (Option String) := do
  match given with
  | some path => return (← s.read path).toOption
  | none => do
      match ← s.read ⟨configName⟩ with
      | .ok content => return some content
      | .error e =>
          if e = .missing then return (← s.read (userConfig s.configHome)).toOption
          else return none

/-- Plays the script at a path. -/
def play (s : Surroundings m) (script : Path) (config : Option Path) : m Answer := do
  match (Config.load (← configText s config)).config.scriptLimits with
  | .error f => return .failed [] f
  | .ok limits => do
      match ← s.read script with
      | .error e =>
          return .failed [] ((Failure.because e.message).within
            ("reading script " ++ script.spelling))
      | .ok source => do
          let (outcome, p) := Playback.run limits source.toList
          match outcome with
          | .ok () => return .success p.written
          | .error f => do
              s.write logFile (f.oneLine ++ "\n")
              return .failed p.written f

/-- Runs the program on the words of its command line. -/
def run (s : Surroundings m) (words : List String) : m Answer := do
  s.write logFile ""
  match Request.ofWords words with
  | .error e => return e.answer
  | .ok .version => return .success (programName ++ " " ++ version ++ "\n").toList
  | .ok .help => return .success help.toList
  | .ok (.play script config) => play s script config

end

/-- A tree of files as a place to run in. -/
def FileTree.surroundings (configHome : Option Path) : Surroundings (StateM FileTree) where
  read path := do return (← get).read path
  write path content := modify (·.write path content)
  configHome := configHome

/-- Runs the program on a tree of files: its answer, and the files it leaves. -/
def FileTree.run (t : FileTree) (configHome : Option Path) (words : List String) :
    Answer × FileTree :=
  (CommandLine.run (FileTree.surroundings configHome) words).run t

end Editing.CommandLine
