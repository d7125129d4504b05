import Retention.Main
import Retention.Progress.Log
import Retention.Proofs.Postorder
import Retention.Proofs.Chains
import Retention.Proofs.FailingRuns
import Retention.Proofs.LoadRuns
import Retention.Proofs.Repetitions
import Retention.Proofs.Sweeps
import Retention.Proofs.BuiltGraphs
import Retention.Proofs.RootPaths
import Retention.Proofs.Settling
import Retention.Proofs.Numbering
import Retention.Proofs.DominatorTrees
import Retention.Proofs.ImmediateDominators
import Retention.Proofs.DominatorOrder
import Retention.Proofs.RetainedBytes
import Retention.Proofs.LoadedSnapshots
import Retention.Proofs.Traces
import Retention.Proofs.TreeLayers
import Retention.Proofs.SnapshotChecks
import Retention.Proofs.WireRoundTrips
import Retention.Proofs.LiveParts
import Retention.Proofs.LiveAnswers
import Retention.Proofs.TrailSearches
import Retention.Proofs.RankedSearches
import Retention.Proofs.ShortestPaths
import Retention.Proofs.SameHeaps
import Retention.Proofs.RecordOrder
import Retention.Proofs.LoadEvents
import Retention.Proofs.Cancelling
import Retention.Proofs.QueryAnswers
import Retention.Proofs.PathDominators
import Retention.Proofs.SizeOverflows
import Retention.Proofs.RecordImages
import Retention.Proofs.TreeViews
import Retention.Proofs.TreeLoops
import Retention.Proofs.WeakExits
import Retention.Proofs.WeakPaths
import Retention.Proofs.RecordFaults
import Retention.Proofs.RefusedPushes
import Retention.Proofs.SweepLimits
import Retention.Proofs.FirstSweeps
import Retention.Proofs.Comparisons
import Retention.Proofs.Notifications
import Retention.Proofs.MessageFaults
import Retention.Proofs.CsvReading
import Retention.Proofs.ExportedTables
import Retention.Proofs.IdLiterals
import Retention.Proofs.RecordCalls
import Retention.Proofs.Meetings
import Retention.Proofs.SearchOrder
