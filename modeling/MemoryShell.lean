import MemoryShell.Builtin
import MemoryShell.Command
import MemoryShell.Completion
import MemoryShell.Config
import MemoryShell.Decimal.Shortest
import MemoryShell.Execution
import MemoryShell.Host.Files
import MemoryShell.Host.Path
import MemoryShell.Json.Basic
import MemoryShell.Json.Doc
import MemoryShell.Json.Number
import MemoryShell.Json.Printer
import MemoryShell.Json.Quoted
import MemoryShell.Line.Chain
import MemoryShell.Line.Invocation
import MemoryShell.Listing
import MemoryShell.Main
import MemoryShell.Messages
import MemoryShell.OrderedMap
import MemoryShell.Recall
import MemoryShell.Record
import MemoryShell.Registry
import MemoryShell.Scripted
import MemoryShell.Session
import MemoryShell.Shell
import MemoryShell.ShellError
import MemoryShell.Snapshot
import MemoryShell.Startup
import MemoryShell.Terminal
import MemoryShell.Text.Blank
import MemoryShell.Text.Split
import MemoryShell.Toml.Document
import MemoryShell.Toml.Scalar
import MemoryShell.Toml.Table
import MemoryShell.Toml.Text
import MemoryShell.Tree.Edit
import MemoryShell.Tree.Node
import MemoryShell.Tree.Path
import MemoryShell.Tree.Resolve
import MemoryShell.Tree.WellFormed
import MemoryShell.Proofs.Paths
import MemoryShell.Proofs.Walks
import MemoryShell.Proofs.Places
import MemoryShell.Proofs.Edits
import MemoryShell.Proofs.Changes
import MemoryShell.Proofs.Invariants
import MemoryShell.Proofs.Lookups
import MemoryShell.Proofs.Printed
import MemoryShell.Proofs.Snapshots
import MemoryShell.Proofs.Brackets
import MemoryShell.Proofs.Accepted
import MemoryShell.Proofs.Marks
import MemoryShell.Proofs.Lines
import MemoryShell.Proofs.Restoring
import MemoryShell.Proofs.Transcripts
import MemoryShell.Proofs.Chaining
import MemoryShell.Proofs.Spellings
import MemoryShell.Proofs.Contents
import MemoryShell.Proofs.Screens
import MemoryShell.Proofs.Calls
import MemoryShell.Proofs.Completions
import MemoryShell.Proofs.Typable
import MemoryShell.Proofs.Routes
import MemoryShell.Proofs.Surroundings
import MemoryShell.Proofs.Creation
import MemoryShell.Proofs.Removal
import MemoryShell.Proofs.Undoing
import MemoryShell.Proofs.Independence
import MemoryShell.Proofs.Positions
import MemoryShell.Proofs.Operands
import MemoryShell.Proofs.Repeating
import MemoryShell.Proofs.Frames
import MemoryShell.Proofs.Retyping
import MemoryShell.Proofs.Replaying
import MemoryShell.Proofs.Bytes
import MemoryShell.Proofs.Registrations
import MemoryShell.Proofs.Listings
import MemoryShell.Proofs.Commandless
import MemoryShell.Proofs.Templates
