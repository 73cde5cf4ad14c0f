import NexusLOB.Raft.Safety
import NexusLOB.Raft.CommitIndex
import NexusLOB.Raft.ReadRequests
import NexusLOB.Raft.ReadFreshness
import NexusLOB.Raft.SnapshotDelivery
import NexusLOB.Server.OwnResult
import NexusLOB.Book.Crossing
import NexusLOB.Book.SnapshotRestore
import NexusLOB.Storage.TornTail
import NexusLOB.Storage.Overwrite
import NexusLOB.Storage.HardStateFile
import NexusLOB.Net.SenderThreads
import NexusLOB.Raft.InstalledSnapshot
import NexusLOB.Raft.Slices
import NexusLOB.Raft.StoredAppend
import NexusLOB.Raft.Recovery
import NexusLOB.Raft.VoteOnce
import NexusLOB.Book.Conservation
import NexusLOB.Book.LogOrder
import NexusLOB.Server.OrderIds
import NexusLOB.Raft.HeartbeatResp
import NexusLOB.Raft.CommitRule
import NexusLOB.Raft.LogRepair
import NexusLOB.Book.SkipListChecked
import NexusLOB.Book.IndexMirror
import NexusLOB.Book.Depth
import NexusLOB.KeyValue.MapSemantics
import NexusLOB.Server.BadSnapshots
import NexusLOB.Storage.LogMirror
import NexusLOB.Storage.ApplySnapshot
import NexusLOB.Storage.SnapshotFile
import NexusLOB.Net.MessageFormat
import NexusLOB.Net.OrderClientServer
import NexusLOB.Book.Sharded
import NexusLOB.Server.Wakeups
import NexusLOB.Server.BookReads
import NexusLOB.Server.Linearizability
import NexusLOB.Server.MixedEngines
import NexusLOB.Server.Disk
import NexusLOB.Raft.Durability
import NexusLOB.Server.ShardManager
import NexusLOB.Net.TextSession
import NexusLOB.Net.OrderSession
import NexusLOB.Raft.CommitPossible
