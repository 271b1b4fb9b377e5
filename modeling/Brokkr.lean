import Brokkr.Lib.OrdMap
import Brokkr.Lib.Vec
import Brokkr.Lib.Leftmost
import Brokkr.Lib.StartTime
import Brokkr.Lib.Bytes
import Brokkr.Lib.Sha256
import Brokkr.Lib.LinkedList
import Brokkr.Lib.Folds
import Brokkr.Lib.Ranking
import Brokkr.Lib.Posix
import Brokkr.Lib.Consensus.Rules
import Brokkr.Lib.Consensus.State
import Brokkr.Lib.Consensus.Invariant
import Brokkr.Lib.Consensus.Completeness
import Brokkr.Lib.Consensus.Elections
import Brokkr.Lib.Consensus.Runs
import Brokkr.Common
import Brokkr.Reapi
import Brokkr.Raft.Types
import Brokkr.Raft.Codec
import Brokkr.Raft.Storage
import Brokkr.Raft.Node
import Brokkr.Raft.Replication
import Brokkr.Raft.Cluster
import Brokkr.Raft.Rules
import Brokkr.Raft.Refine.Stored
import Brokkr.Raft.Refine.Tracker
import Brokkr.Raft.Refine.Relation
import Brokkr.Raft.Refine.Voting
import Brokkr.Raft.Refine.Sending
import Brokkr.Raft.Refine.Committing
import Brokkr.Raft.Refine.Calls
import Brokkr.Raft.Refine.Following
import Brokkr.Raft.Refine.Snapshots
import Brokkr.Raft.Refine.Cluster
import Brokkr.Raft.Safety
import Brokkr.Raft.Reads.Calls
import Brokkr.Raft.Reads.Linearizable
import Brokkr.Raft.MatchIndex
import Brokkr.Raft.Driver
import Brokkr.Raft.Driver.Turn
import Brokkr.Raft.Driver.Runs
import Brokkr.Raft.Driver.Apply
import Brokkr.Raft.Driver.Waiters
import Brokkr.Raft.Driver.Acks
import Brokkr.Raft.Membership
import Brokkr.Raft.LogShape
import Brokkr.Raft.Commitment
import Brokkr.Raft.BackOff
import Brokkr.Cas.Store
import Brokkr.Cas.ActionCache
import Brokkr.Cas.Ring
import Brokkr.Cas.Replicated
import Brokkr.Cas.Presence
import Brokkr.Cas.PeerRepair
import Brokkr.Cas.HotTier
import Brokkr.Cas.HotTierLru
import Brokkr.Cas.Tiered
import Brokkr.Cas.Tree
import Brokkr.Cas.InputTree
import Brokkr.Cas.TreeWritten
import Brokkr.Cas.Bloom
import Brokkr.Worker.Inode
import Brokkr.Worker.InputViews
import Brokkr.Worker.Mount
import Brokkr.Control.FairQueue
import Brokkr.Control.TenantOrder
import Brokkr.Control.Debt
import Brokkr.Control.Lease
import Brokkr.Control.Workers
import Brokkr.Control.Locality
import Brokkr.Control.Scheduler
import Brokkr.Control.Runs
import Brokkr.Control.SlotSelection
import Brokkr.Control.Load
import Brokkr.Control.Attempts
import Brokkr.Control.Requeue
import Brokkr.Control.Reconnect
import Brokkr.Control.History
import Brokkr.Control.Conservation
import Brokkr.Control.Ownership
import Brokkr.Control.Placement
import Brokkr.Control.Capacity
import Brokkr.Control.WorkConserving
import Brokkr.Control.Quota
import Brokkr.Control.MetaKv
import Brokkr.Control.Gc
import Brokkr.Control.Cluster
import Brokkr.Control.Watch
import Brokkr.Control.Peers
import Brokkr.Control.Policy
import Brokkr.Control.PolicyReload
import Brokkr.Sandbox.Environment
import Brokkr.Sandbox.Runner
import Brokkr.Sdk.Redirect
import Brokkr.Worker.Endpoint
