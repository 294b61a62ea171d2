import Editing.Text.Blank
import Editing.Text.Quoted
import Editing.Text.Store
import Editing.Numeral
import Editing.PropertyList
import Editing.Table
import Editing.History.PlainLog
import Editing.History.Reverting
import Editing.Session.Reachable
import Editing.Script.Playback
import Editing.Script.Written
import Editing.Config
import Editing.CommandLine
import Editing.Main
import Editing.Proofs.Session.Chronicle
import Editing.Proofs.History.Grouping
import Editing.Proofs.Session.Calling
import Editing.Proofs.Session.Visible
import Editing.Proofs.Session.Consecutive
import Editing.Proofs.Session.Seating
import Editing.Proofs.Session.Restoring
import Editing.Proofs.Session.Returning
import Editing.Proofs.Session.Retrying
import Editing.Proofs.Session.Enduring
import Editing.Proofs.Session.Positions
import Editing.Proofs.Session.Numbering
import Editing.Proofs.Session.Overlaying
import Editing.Proofs.Session.Answering
import Editing.Proofs.Session.Locking
import Editing.Proofs.Session.Failing
import Editing.Proofs.Session.Roster
import Editing.Proofs.Session.Ticking
import Editing.Proofs.Session.Truncated
import Editing.Proofs.Session.Marked
import Editing.Proofs.Session.Revising
import Editing.Proofs.Text.Parts
import Editing.Proofs.Session.Seeing
import Editing.Proofs.Session.Covering
import Editing.Proofs.History.Handling
import Editing.Proofs.History.Keeping
import Editing.Proofs.Session.Avoiding
import Editing.Proofs.Session.Isolated
import Editing.Proofs.Session.Properties
import Editing.Proofs.Session.Announced
import Editing.Proofs.Session.Through
import Editing.Proofs.Session.Sealed
import Editing.Proofs.Session.Issuing
import Editing.Proofs.Script.Halting
import Editing.Proofs.Script.Reverting
import Editing.Proofs.Session.Erasing
import Editing.Proofs.Session.Reseating
import Editing.Proofs.Session.Reclaiming
import Editing.Proofs.Session.Resuming
import Editing.Proofs.Session.Ranking
import Editing.Proofs.Text.Owners
import Editing.Proofs.Script.Writing
import Editing.Proofs.Text.Storing
import Editing.Machine.Acting
import Editing.Proofs.Session.Shaped
import Editing.Proofs.Machine.Running
