import IrohExperiments.Tracker.Authenticity
import IrohExperiments.Tracker.Verified
import IrohExperiments.Tracker.Underflow
import IrohExperiments.Tracker.Fresh
import IrohExperiments.Tracker.Probing
import IrohExperiments.Tracker.ProbeOne
import IrohExperiments.Tracker.ProbeRanges
import IrohExperiments.Tracker.Wire
import IrohExperiments.Tracker.Cli
import IrohExperiments.H3.SendStream
import IrohExperiments.H3.StreamId
import IrohExperiments.DagSync.Safety
import IrohExperiments.DagSync.Lockstep
import IrohExperiments.DagSync.Preorder
import IrohExperiments.DagSync.Car
import IrohExperiments.DagSync.Import
import IrohExperiments.Tracker.Commute
import IrohExperiments.Tracker.ChunkChoice
import IrohExperiments.Tracker.WriteBack
import IrohExperiments.DagSync.Formats
import IrohExperiments.DagSync.Aliases
import IrohExperiments.H3.Panics
import IrohExperiments.H3.Axum
import IrohExperiments.DagSync.Framing
import IrohExperiments.DagSync.Resume
import IrohExperiments.DagSync.Incomplete
import IrohExperiments.Tracker.KeyOrder
import IrohExperiments.DagSync.Request
import IrohExperiments.Tracker.ChildLoop
import IrohExperiments.Tracker.SeqProbe
import IrohExperiments.DagSync.Backing
import IrohExperiments.DagSync.Holding
import IrohExperiments.DagSync.Replication
import IrohExperiments.Tracker.Durable
import IrohExperiments.H3.Pipe
import IrohExperiments.Lib.OwnedTasks
import IrohExperiments.Naming.Record
import IrohExperiments.Naming.Publisher
import IrohExperiments.Naming.Resolve
import IrohExperiments.Tracker.Tasks
import IrohExperiments.BaoStore.Store
import IrohExperiments.BaoStore.Serve
import IrohExperiments.Tracker.ProbeCache
import IrohExperiments.Lib.AtomicReplace
import IrohExperiments.Lib.UnixPath
import IrohExperiments.Tracker.Startup
import IrohExperiments.Tracker.Identity
import IrohExperiments.Lib.Linearizable
import IrohExperiments.Tracker.Calls
import IrohExperiments.Tracker.Discovery
import IrohExperiments.H3.FileServer
