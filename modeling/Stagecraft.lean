import Stagecraft.Catalog
import Stagecraft.Command.Args
import Stagecraft.Command.Run
import Stagecraft.Command.Sites
import Stagecraft.Decimal.Binary
import Stagecraft.Decimal.Layout
import Stagecraft.Decimal.Reading
import Stagecraft.Decimal.Shortest
import Stagecraft.Fault
import Stagecraft.Files.Fault
import Stagecraft.Files.Path
import Stagecraft.Files.Tree
import Stagecraft.Json.Basic
import Stagecraft.Json.Lexer
import Stagecraft.Json.Number
import Stagecraft.Json.Printer
import Stagecraft.Json.Raw
import Stagecraft.Json.Reader
import Stagecraft.Main
import Stagecraft.Project.Assembly
import Stagecraft.Project.Basic
import Stagecraft.Project.Documents
import Stagecraft.Project.Scaffold
import Stagecraft.Project.Settings
import Stagecraft.Proofs.Absent
import Stagecraft.Proofs.Agreement
import Stagecraft.Proofs.Budget
import Stagecraft.Proofs.Buttons
import Stagecraft.Proofs.Calls
import Stagecraft.Proofs.Clock
import Stagecraft.Proofs.Confinement
import Stagecraft.Proofs.Controls
import Stagecraft.Proofs.Decimals
import Stagecraft.Proofs.Endings
import Stagecraft.Proofs.Expansion
import Stagecraft.Proofs.Extension
import Stagecraft.Proofs.Extent
import Stagecraft.Proofs.Failure
import Stagecraft.Proofs.Fallible
import Stagecraft.Proofs.Fields
import Stagecraft.Proofs.Filling
import Stagecraft.Proofs.Footprint
import Stagecraft.Proofs.Growth
import Stagecraft.Proofs.HandEdits
import Stagecraft.Proofs.Heads
import Stagecraft.Proofs.History
import Stagecraft.Proofs.Ids
import Stagecraft.Proofs.Indexed
import Stagecraft.Proofs.Instances
import Stagecraft.Proofs.Isolation
import Stagecraft.Proofs.Leftovers
import Stagecraft.Proofs.Line
import Stagecraft.Proofs.Locality
import Stagecraft.Proofs.Lockstep
import Stagecraft.Proofs.Making
import Stagecraft.Proofs.Merging
import Stagecraft.Proofs.Needs
import Stagecraft.Proofs.Numbering
import Stagecraft.Proofs.Ordered
import Stagecraft.Proofs.Packing
import Stagecraft.Proofs.Performance
import Stagecraft.Proofs.Reach
import Stagecraft.Proofs.Reading
import Stagecraft.Proofs.Rebuild
import Stagecraft.Proofs.Renewal
import Stagecraft.Proofs.Repetition
import Stagecraft.Proofs.Replay
import Stagecraft.Proofs.Reread
import Stagecraft.Proofs.RoundTrip
import Stagecraft.Proofs.Routing
import Stagecraft.Proofs.Scanning
import Stagecraft.Proofs.Session
import Stagecraft.Proofs.Shortfall
import Stagecraft.Proofs.Spelling
import Stagecraft.Proofs.Stages
import Stagecraft.Proofs.Stock
import Stagecraft.Proofs.Stripping
import Stagecraft.Proofs.Supply
import Stagecraft.Proofs.Tags
import Stagecraft.Proofs.Timing
import Stagecraft.Proofs.Trails
import Stagecraft.Proofs.Triggers
import Stagecraft.Proofs.Unreached
import Stagecraft.Proofs.Unsigned
import Stagecraft.Proofs.Walk
import Stagecraft.Proofs.Wiring
import Stagecraft.Registry
import Stagecraft.Scene.Atom
import Stagecraft.Scene.Basic
import Stagecraft.Scene.Storable
import Stagecraft.Stage.Action
import Stagecraft.Stage.Compile
import Stagecraft.Stage.Ids
import Stagecraft.Stage.Pool
import Stagecraft.Stage.Trigger
import Stagecraft.Story.Basic
import Stagecraft.Story.Capacity
import Stagecraft.Story.Directive
import Stagecraft.Story.Document
import Stagecraft.Story.Link
import Stagecraft.Story.Markup
import Stagecraft.Story.Script
import Stagecraft.Story.Timeline
import Stagecraft.Story.Walk
import Stagecraft.Template.Placeholder
import Stagecraft.Template.Store
import Stagecraft.Text.Blank
import Stagecraft.Text.Caseless
import Stagecraft.Text.Cut
