import Editing.Script.Command
import Editing.Session.Marking
import Editing.Session.Undoing
import Editing.Text.Lines

/-!
# Playing a script

The commands of a script are carried out line by line on a session that starts without views. Each
line that succeeds closes a group of changes, and the first that fails ends the script. A command
that names a view or an overlay acts on what it names, `root` makes a new view, `reclaim` goes over
all roots, and the other commands act on the current view.
-/

namespace Editing

/-- A script being played. -/
structure Playback where
  session : Session
  /-- The overlays by the names that the script gave them, oldest first. -/
  overlays : List (String × OverlayId)
  /-- The lines written so far, newest first. -/
  output : List Text

/-- What plays a part of a script, and may fail. -/
abbrev Play := ExceptT Failure (StateM Playback)

namespace Play

/-- Carries out an act of the session. -/
def perform {α : Type} (act : Act α) : Play α := do
  let p ← get
  let (outcome, session) := act.run p.session
  set { p with session := session }
  match outcome with
  | .ok a => pure a
  | .error e => throw (.because e.message)

/-- Puts a part of a script into a context, from which its failure is seen. -/
def within {α : Type} (context : String) (play : Play α) : Play α :=
  tryCatch play fun f => throw (f.within context)

def write (line : Text) : Play Unit :=
  modify fun p => { p with output := line :: p.output }

def current : Play ViewId := do
  match (← get).session.editor.current with
  | some view => pure view
  | none => throw (.because "no current buffer; start with `root <name>`")

def viewNamed (name : String) : Play ViewId := do
  match (← get).session.editor.viewNamed name with
  | some view => pure view
  | none => throw (.because ("no buffer named `" ++ name ++ "`"))

def overlayNamed (name : String) : Play OverlayId := do
  match (← get).overlays.lookup name with
  | some overlay => pure overlay
  | none => throw (.because ("no overlay named `" ++ name ++ "`"))

/-- Gives a name to an overlay just made; whatever had the name loses it. -/
def nameOverlay (name : String) (overlay : OverlayId) : Play Unit :=
  modify fun p =>
    { p with overlays := p.overlays.filter (fun x => x.1 != name) ++ [(name, overlay)] }

/-- Writes what became of a log that was to be cut back. -/
def report (name : String) (outcome : Truncation) : Play Unit :=
  let news := match outcome with
    | .unchanged => "unchanged"
    | .handled size => "handled at " ++ toString size
    | .severed kept discarded => "kept " ++ toString kept ++ ", discarded " ++ toString discarded
  write (name ++ ": undo " ++ news).toList

def reportAll : List (ViewId × Truncation) → Play Unit
  | [] => pure ()
  | (root, outcome) :: rest => do
      let name ← perform (Act.ask (·.nameOf root))
      report name outcome
      reportAll rest

/-- Writes an overlay with its range and its properties. -/
def describe (name : String) (overlay : OverlayId) : Play Unit := do
  let start ← perform (Act.ask (·.overlayStart overlay))
  let stop ← perform (Act.ask (·.overlayEnd overlay))
  let properties ← perform (Act.ask (·.overlayProperties overlay))
  let written := properties.entries.map fun x => x.1 ++ "=" ++ x.2.render
  write (name ++ " " ++ toString (start.getD 0) ++ ".." ++ toString (stop.getD 0) ++ " " ++
    " ".intercalate written).toList

def describeAll : List (String × OverlayId) → Play Unit
  | [] => pure ()
  | (name, overlay) :: rest => do
      describe name overlay
      describeAll rest

/-- Writes the named overlays that meet the accessible part of the current text. -/
def describeOverlays : Play Unit := do
  let view ← current
  let low ← perform (Act.ask (·.pointMin view))
  let high ← perform (Act.ask (·.pointMax view))
  let live ← perform (Act.ask (·.overlaysIn view low high))
  describeAll ((← get).overlays.filter fun x => live.contains x.2)

/-- Carries out an act on the current view. -/
def onCurrent {α : Type} (act : ViewId → Act α) : Play Unit := do
  let view ← current
  let _ ← perform (act view)
  pure ()

def execute : Command → Play Unit
  | .root name => perform do
      let view ← Act.createRoot name
      Act.setCurrent view
  | .indirect base name => do
      let base ← viewNamed base
      perform do
        let view ← Act.createIndirect base name
        Act.setCurrent view
  | .switch name => do
      let view ← viewNamed name
      perform (Act.setCurrent view)
  | .kill name => do
      let view ← viewNamed name
      perform (Act.kill view)
  | .insert text => onCurrent (Act.insert · text)
  | .goto pos => onCurrent (Act.goto · pos)
  | .delete p q => onCurrent (Act.deleteRegion · p q)
  | .erase => onCurrent Act.erase
  | .narrow p q => onCurrent (Act.narrow · p q)
  | .widen => onCurrent Act.widen
  | .readOnly flag => onCurrent (Act.setReadOnly · flag)
  | .overlay name p q => do
      let view ← current
      let overlay ← perform (Act.makeOverlay view p q false false)
      nameOverlay name overlay
  | .put overlay key value => do
      let overlay ← overlayNamed overlay
      let _ ← perform (Act.overlayPut overlay key value)
      pure ()
  | .deleteOverlay name => do
      let overlay ← overlayNamed name
      perform (Act.deleteOverlay overlay)
  | .clearOverlays => onCurrent Act.deleteAllOverlays
  | .property start stop key old => do
      let view ← current
      if stop < start then
        throw (.because ("property range " ++ toString start ++ ".." ++ toString stop ++
          " is reversed"))
      else perform (Act.noteProperty view start (stop - start) key old)
  | .undo => onCurrent Act.undo
  | .truncate => do
      let view ← current
      let outcome ← perform (Act.truncateUndo view)
      let name ← perform (Act.ask (·.nameOf view))
      report name outcome
  | .reclaim => do
      let outcomes ← perform Act.reclaim
      reportAll outcomes
  | .print => do
      let view ← current
      let name ← perform (Act.ask (·.nameOf view))
      let text ← perform (Act.ask (·.text view))
      let point ← perform (Act.ask (·.point view))
      write ((name ++ " [" ++ toString point ++ "]: ").toList ++ text.quoted)
  | .overlays => describeOverlays

/-- Closes the newest group of changes of the current view, if there is one. -/
def closeGroup : Play Unit := do
  match (← get).session.editor.current with
  | some view => perform (Act.closeGroup view)
  | none => pure ()

/-- How a line is named in failures. -/
def lineLabel (number : Nat) : String := "line " ++ toString number

/-- Plays one line, which has a number. -/
def playLine (number : Nat) (line : Text) : Play Unit :=
  match Command.parse line with
  | .error e => throw (e.failure.within (lineLabel number))
  | .ok none => pure ()
  | .ok (some command) => do
      within (lineLabel number ++ ": " ++ String.ofList line.trim) (execute command)
      closeGroup

/-- Plays lines, of which the first has a number. -/
def playLines (number : Nat) : List Text → Play Unit
  | [] => pure ()
  | line :: lines => do
      playLine number line
      playLines (number + 1) lines

end Play

namespace Playback

/-- A playback before its first line. -/
def start (limits : Limits) : Playback := ⟨.start limits, [], []⟩

/-- Plays a script: its failure if it fails, and what it leaves. -/
def run (limits : Limits) (script : Text) : Except Failure Unit × Playback :=
  (Play.playLines 1 script.lines).run (start limits)

/-- What has been written, each line with a newline at its end. -/
def written (p : Playback) : Text :=
  p.output.reverse.flatMap (· ++ ['\n'])

end Playback

end Editing
