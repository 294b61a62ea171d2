import Editing.Path
import Editing.Text

/-!
# Arguments

The words of the command line are read in their order: one script, and at most one configuration
file. Behind a double dash every word is a script, whatever it looks like. The first word that
cannot be right refuses the command line, and the first that asks for the version or for help is
answered without looking further.
-/

namespace Editing.CommandLine

/-- What a command line asks for. -/
inductive Request where
  | play (script : Path) (config : Option Path)
  | version
  | help
deriving DecidableEq, Repr

/-- Why a command line is refused. -/
inductive UsageError where
  | unknownOption (word : String)
  | missingValue
  | emptyValue
  | unneededValue (name : String)
  | repeatedConfig
  | secondScript (word : String)
  | missingScript
deriving DecidableEq, Repr

namespace UsageError

def message : UsageError → String
  | unknownOption word => "unexpected argument '" ++ word ++ "' found"
  | missingValue => "a value is required for '--config <CONFIG>' but none was supplied"
  | emptyValue => "a path must not be empty"
  | unneededValue name => "unexpected value for '--" ++ name ++ "' found; no more were expected"
  | repeatedConfig => "the argument '--config <CONFIG>' cannot be used multiple times"
  | secondScript word => "unexpected argument '" ++ word ++ "' found"
  | missingScript => "the following required arguments were not provided:\n  <SCRIPT>"

end UsageError

/-- What a word on the command line looks like. -/
inductive Word where
  | separator
  /-- A name behind two dashes, with what stands behind an equals sign. -/
  | long (name : String) (value : Option String)
  /-- Letters behind one dash. -/
  | short (first : Char) (others : Text)
  /-- Anything else, a single dash too. -/
  | plain (path : String)
deriving DecidableEq, Repr

/-- What a word looks like. -/
def Word.of (word : String) : Word :=
  match word.toList with
  | ['-', '-'] => .separator
  | '-' :: '-' :: t =>
      match t.dropWhile (· != '=') with
      | [] => .long (String.ofList t) none
      | _ :: value => .long (String.ofList (t.takeWhile (· != '='))) (some (String.ofList value))
  | '-' :: c :: t => .short c t
  | _ => .plain word

/-- The files named so far. -/
structure Named where
  script : Option Path
  config : Option Path

namespace Named

def nothing : Named := ⟨none, none⟩

def withScript (n : Named) (word : String) : Except UsageError Named :=
  if n.script.isSome then .error (.secondScript word)
  else if word.isEmpty then .error .emptyValue
  else .ok { n with script := some ⟨word⟩ }

def withConfig (n : Named) (word : String) : Except UsageError Named :=
  if n.config.isSome then .error .repeatedConfig
  else if word.isEmpty then .error .emptyValue
  else .ok { n with config := some ⟨word⟩ }

/-- What is asked for once all words are read. -/
def request (n : Named) : Except UsageError Request :=
  match n.script with
  | some script => .ok (.play script n.config)
  | none => .error .missingScript

/-- Reads the words behind a double dash. -/
def readScripts (n : Named) : List String → Except UsageError Request
  | [] => n.request
  | word :: words => do
      let n ← n.withScript word
      readScripts n words

/-- What a word asks for that is no file. -/
def answer (name : String) : Except UsageError Request :=
  if name = "version" then .ok .version
  else if name = "help" then .ok .help
  else .error (.unknownOption ("--" ++ name))

/-- What letters behind a single dash ask for; the first decides. -/
def answerLetter (c : Char) : Except UsageError Request :=
  if c = 'V' then .ok .version
  else if c = 'h' then .ok .help
  else .error (.unknownOption (String.ofList ['-', c]))

/-- Reads the words of a command line. -/
def read (n : Named) : List String → Except UsageError Request
  | [] => n.request
  | word :: words =>
      match Word.of word with
      | .separator => n.readScripts words
      | .plain path => do
          let n ← n.withScript path
          read n words
      | .short c _ => answerLetter c
      | .long "config" (some value) => do
          let n ← n.withConfig value
          read n words
      | .long "config" none =>
          match words with
          | [] => .error .missingValue
          | value :: words =>
              match Word.of value with
              | .plain path => do
                  let n ← n.withConfig path
                  read n words
              | _ => .error .missingValue
      | .long name (some _) =>
          match answer name with
          | .ok _ => .error (.unneededValue name)
          | .error e => .error e
      | .long name none => answer name

end Named

/-- What the words of a command line ask for. -/
def Request.ofWords (words : List String) : Except UsageError Request :=
  Named.nothing.read words

end Editing.CommandLine
