import Ccf.Lib.Exec
import Ccf.Lib.Run
import Ccf.Lib.Quorum
import Ccf.Lib.Ranges
import Ccf.Lib.Versioned
import Ccf.Lib.AList
import Ccf.Lib.Bytes
import Ccf.Lib.Fifo
import Ccf.Lib.Circular
import Ccf.Lib.Packed
import Ccf.Lib.Codec
import Ccf.Lib.Interleave
import Ccf.Lib.SortedMap
import Ccf.Lib.UpperBound
import Ccf.Lib.Framing
import Ccf.Kv.Types
import Ccf.Raft.Types
import Ccf.Raft.TermHistory
import Ccf.Raft.Raft
import Ccf.Raft.Cluster
import Ccf.Raft.Proof.Frame
import Ccf.Raft.Proof.Moves
import Ccf.Raft.Proof.Election
import Ccf.Raft.Proof.Divergence
import Ccf.Raft.Proof.Commit
import Ccf.Raft.Proof.Batches
import Ccf.Raft.Proof.BatchSize
import Ccf.Raft.Proof.Books
import Ccf.Kv.Serialiser
import Ccf.Kv.Map
import Ccf.Kv.Store
import Ccf.Kv.Tx
import Ccf.Kv.Concurrent
import Ccf.Kv.Proof.Isolation
import Ccf.Kv.Proof.Rollback
import Ccf.Kv.Proof.Apply
import Ccf.Kv.Proof.Overlay
import Ccf.Kv.Proof.Hooks
import Ccf.Kv.Proof.Replication
import Ccf.Kv.Commit
import Ccf.Kv.Proof.Batching
import Ccf.Kv.Swap
import Ccf.Kv.Proof.Swap
import Ccf.Kv.Proof.Serial
import Ccf.Kv.Adaptor
import Ccf.Raft.Proof.StoreSync
import Ccf.Node.Channels
import Ccf.Node.NodeToNode
import Ccf.Node.Proof.Replay
import Ccf.Node.Rpc.Frontend
import Ccf.Node.Proof.Retry
import Ccf.Node.Governance
import Ccf.Node.Proof.Proposals
import Ccf.Ds.Ringbuffer
import Ccf.Ds.Proof.Records
import Ccf.Ds.Proof.Layout
import Ccf.Ds.Proof.Writers
import Ccf.Ds.Proof.Reader
import Ccf.Ds.Proof.Channel
import Ccf.Ds.Champ
import Ccf.Ds.Proof.ChampNode
import Ccf.Ds.Proof.Champ
import Ccf.Ds.Histogram
import Ccf.Ds.Proof.Histogram
import Ccf.Ds.Serializer
import Ccf.Ds.Proof.Serializer
import Ccf.Ds.Oversized
import Ccf.Ds.Proof.Oversized
import Ccf.Ds.Proof.Reconstructor
import Ccf.Host.Ledger
import Ccf.Host.Proof.Ledger
import Ccf.Pbft.Types
import Ccf.Pbft.Log
import Ccf.Pbft.Proof.Log
import Ccf.Pbft.StableEstimator
import Ccf.Pbft.Proof.StableEstimator
import Ccf.Pbft.Certificate
import Ccf.Pbft.Proof.Certificate
import Ccf.Pbft.KMax
import Ccf.Pbft.Proof.KMax
import Ccf.Pbft.ReqQueue
import Ccf.Pbft.Proof.ReqQueue
import Ccf.Ds.RBMap
import Ccf.Ds.Proof.RBMap
import Ccf.Node.Encryptor
import Ccf.Node.Proof.Encryptor
import Ccf.Lua.Json
import Ccf.Lua.Proof.Json
import Ccf.Host.NodeConnections
import Ccf.Host.Proof.NodeConnections
import Ccf.Enclave.TlsEndpoint
import Ccf.Enclave.Proof.TlsEndpoint
import Ccf.Kv.Proof.Wire
import Ccf.Kv.Proof.Mirror
import Ccf.Kv.Proof.Follow
