import Skaidb.Storage.CacheBounds
import Skaidb.Storage.Engine.PointRead
import Skaidb.Types.KeyEncoding
import Skaidb.Types.Uuid
import Skaidb.Exec.IndexConsistency
import Skaidb.Cluster.Convergence
import Skaidb.Storage.Retain.CrashAtomic
import Skaidb.Storage.Encryption
import Skaidb.Storage.WalFormat.Nonces
import Skaidb.Exec.TxnAtomic
import Skaidb.Exec.ReadPath
import Skaidb.Exec.Like
import Skaidb.Exec.Update
import Skaidb.Exec.Backfills
import Skaidb.Storage.Recovery.LocalWrite
import Skaidb.Storage.Retain.CacheCoherence
import Skaidb.Tsdb.Stability
import Skaidb.Cluster.Ownership
import Skaidb.Cluster.DualPlacement
import Skaidb.Cluster.HintSafety
import Skaidb.Cluster.Epochs
import Skaidb.Cluster.Removal
import Skaidb.Cluster.PlacementChange
import Skaidb.Proto.RoundTrip
import Skaidb.Cluster.EntryKeys
import Skaidb.Cluster.Candidates
import Skaidb.Cluster.SortedTopk
import Skaidb.Schema.ReadOnly
import Skaidb.Schema.AlterOptions
import Skaidb.Cluster.Internode
