import SnugKV.Acl.Refusal
import SnugKV.Arena.Growth
import SnugKV.Cluster.OwnerFailover
import SnugKV.Cluster.Rebalance
import SnugKV.Codec.Lossless
import SnugKV.Engine.Coherence
import SnugKV.Engine.Scan
import SnugKV.Failover.Lease
import SnugKV.Failover.Sidecar
import SnugKV.Index.KeyRecords
import SnugKV.Index.Refinement
import SnugKV.JsonValue.Locate
import SnugKV.Persistence.Recovery
import SnugKV.Persistence.Rewrite
import SnugKV.Replication.Delimited
import SnugKV.Resp.Buffered
import SnugKV.Secrets.Store
import SnugKV.Sets.History
import SnugKV.Stream.GroupHistory
import SnugKV.Stream.Replay
