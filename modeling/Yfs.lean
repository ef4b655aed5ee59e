import Yfs.Lib.Run
import Yfs.Lib.Atomic
import Yfs.Extent.Server
import Yfs.Extent.Cache
import Yfs.Extent.Coherence
import Yfs.Rpc.ReplyWindow
import Yfs.Rpc.System
import Yfs.Rpc.AtMostOnce
import Yfs.Lib.Exclusive
import Yfs.Lock.ClientCache
import Yfs.Lock.Mutex
import Yfs.Lock.ClientCacheRsm
import Yfs.Lock.ServerCacheRsm
import Yfs.Lock.MutexRsm
import Yfs.Rsm.Node
import Yfs.Rsm.System
import Yfs.Rsm.SameSequence
import Yfs.Rsm.Recovery
import Yfs.Rsm.Survive
import Yfs.Rsm.Viewstamps
import Yfs.Lib.Voting
import Yfs.Paxos.Acceptor
import Yfs.Paxos.Proposer
import Yfs.Paxos.Handle
import Yfs.Paxos.Contacts
import Yfs.Paxos.System
import Yfs.Paxos.History
import Yfs.Paxos.AcceptorInv
import Yfs.Paxos.RunInv
import Yfs.Paxos.Invariant
import Yfs.Paxos.Agreement
import Yfs.Config.Views
import Yfs.Config.System
import Yfs.Config.Chain
import Yfs.Config.Upcalls
import Yfs.Config.Proposals
import Yfs.Lib.Stream
import Yfs.Paxos.LogText
import Yfs.Paxos.Restore
import Yfs.Lib.Decode
import Yfs.Wire.Marshall
import Yfs.Wire.Scalars
import Yfs.Lib.OrdMap
import Yfs.Wire.Types
import Yfs.Wire.RoundTrip
import Yfs.Wire.RsmCall
import Yfs.Lock.Replica
import Yfs.Rsm.Primary
import Yfs.Host.Node
import Yfs.Host.Serving
import Yfs.Rsm.Synced
import Yfs.Config.Heartbeat
import Yfs.Paxos.Replay
import Yfs.Config.Replay
import Yfs.Lock.Waiters
import Yfs.Lock.ClientView
import Yfs.Lock.Refine
import Yfs.Lock.Stranded
import Yfs.Extent.Section
import Yfs.Wire.Bounds
import Yfs.Lock.Transfer
import Yfs.Lib.Effect
import Yfs.Fs.Dir
import Yfs.Fs.Client
import Yfs.Fs.Locks
import Yfs.Fs.Store
import Yfs.Fs.Directories
import Yfs.Fs.Refine
import Yfs.Lib.Framing
import Yfs.Rpc.Connection
import Yfs.Rpc.Buffers
import Yfs.Rpc.Integrity
import Yfs.Host.Stamps
import Yfs.Extent.Failures
import Yfs.Lib.Mutex
import Yfs.Lib.Refs
import Yfs.Lock.ServerMutex
import Yfs.Rpc.FrameSize
import Yfs.Rpc.References
import Yfs.Fs.Files
import Yfs.Lock.Revokes
import Yfs.Lock.OneLock
import Yfs.Fs.Inodes
import Yfs.Fs.DirFormat
import Yfs.Paxos.HandleTable
import Yfs.Paxos.Prepare
import Yfs.Rpc.Deadline
import Yfs.Rpc.SelectAio
import Yfs.Rsm.Client
import Yfs.Wire.Capacity
import Yfs.Lock.Tenure
import Yfs.Cluster.System
import Yfs.Cluster.Extents
import Yfs.Cluster.Operations
import Yfs.Cluster.Linear
import Yfs.Lib.Monitor
import Yfs.Rpc.Fifo
import Yfs.Rpc.ThrPool
import Yfs.Rpc.PoolProgress
import Yfs.Rpc.Remote
import Yfs.Rpc.Objects
