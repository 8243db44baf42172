import BlobSeer.Lib.Run
import BlobSeer.Lib.VersionStore
import BlobSeer.Lib.Dyadic
import BlobSeer.VManager.Sizes
import BlobSeer.RangeQuery.Basic
import BlobSeer.RangeQuery.Builder
import BlobSeer.RangeQuery.Reader
import BlobSeer.RangeQuery.Siblings
import BlobSeer.VManager.Geometry
import BlobSeer.World.Basic
import BlobSeer.Lib.Overlay
import BlobSeer.World.Task
import BlobSeer.World.Snapshot
import BlobSeer.World.Invariant
import BlobSeer.World.Steps
import BlobSeer.World.Versions
import BlobSeer.World.SparseWrites
import BlobSeer.World.Visibility
import BlobSeer.Client.Handler
import BlobSeer.Fuse.Contents
import BlobSeer.Fuse.Commit
import BlobSeer.Fuse.Sends
import BlobSeer.Fuse.Twins
import BlobSeer.Fuse.FailedWrite
import BlobSeer.Fuse.Bounds
import BlobSeer.Provider.PageManager
import BlobSeer.Provider.PartialRead
import BlobSeer.Provider.NullStore
import BlobSeer.Provider.FreeSpace
import BlobSeer.Dht.SimpleDht
import BlobSeer.Dht.Flow
import BlobSeer.Dht.Batches
import BlobSeer.Dht.Readable
import BlobSeer.Dht.Gateways
import BlobSeer.Common.CacheLru
import BlobSeer.Provider.BdbBwMap
import BlobSeer.Provider.BdbReads
import BlobSeer.VManager.PublishOrder
import BlobSeer.Fuse.Overlay
import BlobSeer.World.Leaves
import BlobSeer.Client.ExecWrite
import BlobSeer.Client.Writers
import BlobSeer.Rpc.Framing
import BlobSeer.Rpc.RoundTrip
import BlobSeer.Client.Read
import BlobSeer.Client.Solo
import BlobSeer.Client.OwnWrites
import BlobSeer.Rpc.Dispatch
import BlobSeer.Rpc.ExactlyOnce
import BlobSeer.Rpc.InFlight
import BlobSeer.Client.Locations
import BlobSeer.Lib.Tiles
import BlobSeer.Client.ReadPlan
import BlobSeer.Client.Failover
import BlobSeer.Client.Switching
import BlobSeer.VManager.Growth
import BlobSeer.VManager.Handlers
import BlobSeer.Lib.Rounds
import BlobSeer.PManager.AdvManager
import BlobSeer.PManager.Groups
import BlobSeer.PManager.Allocation
import BlobSeer.RangeQuery.Walk
import BlobSeer.Client.Guards
import BlobSeer.Client.Draining
import BlobSeer.Client.Stored
import BlobSeer.Client.Store
import BlobSeer.RangeQuery.Holes
import BlobSeer.Client.PublishedReads
import BlobSeer.Fuse.CloneCommit
import BlobSeer.Fuse.Cloned
import BlobSeer.Common.CacheResize
import BlobSeer.Fuse.ObjectPool
import BlobSeer.PManager.ScoreOrder
import BlobSeer.World.TouchedNodes
import BlobSeer.Rpc.Server
import BlobSeer.Rpc.ServerThreads
import BlobSeer.Rpc.Serving
import BlobSeer.Rpc.Answered
import BlobSeer.Dht.CachedDht
import BlobSeer.Lib.Pages
import BlobSeer.Fuse.LowLevelOps
import BlobSeer.Fuse.SharedHandler
import BlobSeer.Fuse.Namespace
import BlobSeer.Fuse.Readdir
import BlobSeer.Lib.Leases
import BlobSeer.PManager.Watchdog
import BlobSeer.Provider.PmgrListener
