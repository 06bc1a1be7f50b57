import Ancestry.Closure.Batch
import Ancestry.Closure.Build
import Ancestry.Closure.Registry
import Ancestry.Command.Run
import Ancestry.Document.Tree
import Ancestry.Main
import Ancestry.Proofs.Crew.Interleaving
import Ancestry.Proofs.Registry.Moments
import Ancestry.Proofs.Registry.Namespace
import Ancestry.Proofs.Registry.Flattened
import Ancestry.Proofs.Registry.Emptiness
import Ancestry.Proofs.Tower
import Ancestry.Proofs.Session.Ledger
import Ancestry.Proofs.Registry.Accounting
import Ancestry.Proofs.Registry.Tally
import Ancestry.Proofs.Visit.Basic
import Ancestry.Proofs.Visit.Simulation
import Ancestry.Proofs.Ascending
import Ancestry.Proofs.Json.Tree
import Ancestry.Proofs.Json.ReadBack
import Ancestry.Proofs.Document.Load
import Ancestry.Proofs.Document.Accepted
import Ancestry.Proofs.Command.Sources
import Ancestry.Proofs.Registry.Batch
import Ancestry.Proofs.Registry.Rearranged
import Ancestry.Proofs.Command.Rearranged
import Ancestry.Proofs.Command.Ancestors
import Ancestry.Proofs.Command.Renamed
import Ancestry.Proofs.Command.Checks
import Ancestry.Proofs.Registry.AnyMemo
import Ancestry.Proofs.Registry.Extended
import Ancestry.Proofs.Walk.Bookkeeping
import Ancestry.Proofs.Query.Checked
import Ancestry.Proofs.Query.Past
import Ancestry.Proofs.Session.Bookkeeping
import Ancestry.Proofs.Registry.Components
import Ancestry.Proofs.Query.Drawn
import Ancestry.Proofs.Query.Debts
import Ancestry.Proofs.Session.Recording
import Ancestry.Proofs.Session.Counters
import Ancestry.Proofs.Registry.Termination
import Ancestry.Proofs.Pool.Rounds
import Ancestry.Proofs.Json.Canonical
import Ancestry.Proofs.Document.RoundTrip
import Ancestry.Proofs.Document.Readable
import Ancestry.Proofs.Settings.Load
