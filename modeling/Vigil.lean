import Vigil.Alert
import Vigil.Annotation
import Vigil.Cache
import Vigil.Cadence
import Vigil.Clock
import Vigil.Config
import Vigil.Config.Document
import Vigil.Config.Environment
import Vigil.Config.File
import Vigil.Decimal.Reader
import Vigil.Decimal.Scaled
import Vigil.Decimal.Shortest
import Vigil.Digest.RuleSetHash
import Vigil.Digest.Sha256
import Vigil.Document
import Vigil.Engine.Calls
import Vigil.Engine.Routine
import Vigil.Engine.Scheduler
import Vigil.Engine.Shared
import Vigil.Error
import Vigil.Identity
import Vigil.Instance
import Vigil.Json.Number
import Vigil.Json.Parser
import Vigil.Json.Printer
import Vigil.Labels
import Vigil.Mailbox
import Vigil.Metrics.Alerts
import Vigil.Metrics.Exposition
import Vigil.Metrics.Histogram
import Vigil.Metrics.Scheduling
import Vigil.Proofs.Cache.Rules
import Vigil.Proofs.Engine.Routine
import Vigil.Proofs.Instance.History
import Vigil.Proofs.Instance.HoldPeriod
import Vigil.Proofs.Instance.Restart
import Vigil.Proofs.Instance.Run
import Vigil.Proofs.Labels.Encoding
import Vigil.Proofs.Mailbox.Desk
import Vigil.Proofs.Round.LabelSets
import Vigil.Proofs.Round.Sweep
import Vigil.Reader
import Vigil.Registry
import Vigil.Round
import Vigil.Rule
import Vigil.Simulation.Collaborators
import Vigil.Simulation.Report
import Vigil.Simulation.Scenario
import Vigil.Simulation.World
import Vigil.Stop
import Vigil.Store
import Vigil.Table
import Vigil.Time
import Vigil.Toml.Parser
import Vigil.Toml.Scalar
import Vigil.Toml.Text
import Vigil.Toml.Tree
import Vigil.Verdict
import Vigil.Window
import Vigil.Proofs.Mailbox.Protocol
import Vigil.Proofs.Mailbox.Progress
import Vigil.Proofs.Mailbox.Engine
import Vigil.Proofs.Round.Times
import Vigil.Proofs.Table.Keys
import Vigil.Proofs.Engine.Registry
import Vigil.Proofs.Engine.Steps
import Vigil.Proofs.Engine.Stopping
import Vigil.Proofs.Engine.Tick
import Vigil.Proofs.Engine.Lifecycle
import Vigil.Proofs.Engine.Cadence
import Vigil.Proofs.Simulation.TickLoop
import Vigil.Proofs.Simulation.Evolution
import Vigil.Proofs.Engine.Waiting
import Vigil.Proofs.Engine.Order
import Vigil.Proofs.Round.Delivery
import Vigil.Proofs.Round.Resolutions
import Vigil.Proofs.Round.Reports
import Vigil.Proofs.Round.Ledger
import Vigil.Proofs.Round.Throttle
import Vigil.Proofs.Round.Renewal
import Vigil.Proofs.Engine.Clearing
import Vigil.Proofs.Engine.Reach
import Vigil.Proofs.Engine.Deletion
import Vigil.Proofs.Round.Closing
import Vigil.Proofs.Cache.Names
import Vigil.Proofs.Store.Rows
import Vigil.Proofs.Store.Restart
import Vigil.Proofs.Engine.Turns
import Vigil.Proofs.Engine.Looks
import Vigil.Proofs.Engine.Versions
import Vigil.Proofs.Engine.Effects
import Vigil.Proofs.Engine.Handover
import Vigil.Proofs.Engine.Listings
import Vigil.Proofs.Engine.Work
import Vigil.Proofs.Engine.Accounts
import Vigil.Proofs.Engine.Balance
import Vigil.Proofs.Engine.Conservation
import Vigil.Proofs.Cache.Flat
import Vigil.Proofs.Stop.Observers
import Vigil.Proofs.Cache.Confined
import Vigil.Proofs.Store.OpenCalls
import Vigil.Proofs.Store.Neighbours
import Vigil.Proofs.Store.Leftovers
import Vigil.Proofs.Stop.Cascade
import Vigil.Proofs.Engine.Record
import Vigil.Proofs.Round.Eviction
import Vigil.Proofs.Engine.Reset
import Vigil.Proofs.Engine.Coalescing
import Vigil.Proofs.Instance.LongerSpans
import Vigil.Proofs.Labels.Naming
import Vigil.Proofs.Engine.Attempts
import Vigil.Proofs.Engine.ListingOrder
import Vigil.Proofs.Window.Sliding
import Vigil.Proofs.Config.Validity
import Vigil.Proofs.Cache.Identity
import Vigil.Proofs.Round.Replay
import Vigil.Proofs.Digest.Boundaries
import Vigil.Proofs.Time.Words
import Vigil.Proofs.Engine.Spread
