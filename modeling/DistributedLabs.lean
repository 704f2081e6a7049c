import DistributedLabs.Logic.Backtracking
import DistributedLabs.Logic.Linearization
import DistributedLabs.Logic.Links
import DistributedLabs.Logic.Quorum
import DistributedLabs.Logic.Tabulation
import DistributedLabs.Raft.Cluster
import DistributedLabs.Raft.Calls
import DistributedLabs.Raft.Delivery
import DistributedLabs.Raft.Durability
import DistributedLabs.Raft.SnapshotPoint
import DistributedLabs.Raft.Indices
import DistributedLabs.Raft.NextIndex
import DistributedLabs.Raft.Compaction
import DistributedLabs.Raft.KeptSuffix
import DistributedLabs.Raft.Reordering
import DistributedLabs.Raft.CatchUp
import DistributedLabs.Raft.FastBackUp
import DistributedLabs.Raft.Spec
import DistributedLabs.Raft.Ballots
import DistributedLabs.Raft.Election
import DistributedLabs.Raft.Votes
import DistributedLabs.Raft.FullLog
import DistributedLabs.Raft.Refinement
import DistributedLabs.Raft.PeerSteps
import DistributedLabs.Raft.Simulation
import DistributedLabs.Raft.Uncompacted
import DistributedLabs.Raft.Safety
import DistributedLabs.Raft.Acknowledgements
import DistributedLabs.Raft.VerifiedCommit
import DistributedLabs.Raft.Placement
import DistributedLabs.Raft.Contract
import DistributedLabs.Raft.Compacted
import DistributedLabs.Raft.Replication
import DistributedLabs.Consensus.Ledger
import DistributedLabs.Consensus.BackUp
import DistributedLabs.Consensus.Election
import DistributedLabs.Consensus.Matching
import DistributedLabs.Consensus.Safety
import DistributedLabs.SharedLog.History
import DistributedLabs.SharedLog.DupTable
import DistributedLabs.SharedLog.Service
import DistributedLabs.SharedLog.Points
import DistributedLabs.KvSrv.Server
import DistributedLabs.KvSrv.Linearizability
import DistributedLabs.KvSrv.Stragglers
import DistributedLabs.KvSrv.TableSize
import DistributedLabs.KvRaft.Server
import DistributedLabs.KvRaft.Deadlock
import DistributedLabs.KvRaft.System
import DistributedLabs.KvRaft.Refinement
import DistributedLabs.KvRaft.Linearizability
import DistributedLabs.KvRaft.Recovery
import DistributedLabs.KvRaft.ExactlyOnce
import DistributedLabs.KvRaft.ApplyOrder
import DistributedLabs.KvRaft.Stack
import DistributedLabs.KvRaft.Composition
import DistributedLabs.MapReduce.Coordinator
import DistributedLabs.MapReduce.Completion
import DistributedLabs.MapReduce.Reports
import DistributedLabs.MapReduce.Expiry
import DistributedLabs.MapReduce.Worker
import DistributedLabs.MapReduce.Concurrent
import DistributedLabs.MapReduce.Uninterrupted
import DistributedLabs.MapReduce.Barrier
import DistributedLabs.MapReduce.Blocking
import DistributedLabs.MapReduce.Roles
import DistributedLabs.MapReduce.Transition
import DistributedLabs.MapReduce.Sequential
import DistributedLabs.MapReduce.Outputs
import DistributedLabs.Porcupine.Bitset
import DistributedLabs.Porcupine.Checker
import DistributedLabs.Porcupine.KvModel
import DistributedLabs.Porcupine.Search
import DistributedLabs.Porcupine.LinkedEntries
import DistributedLabs.Porcupine.Single
import DistributedLabs.Porcupine.Verdict
import DistributedLabs.Porcupine.Parallel
import DistributedLabs.Porcupine.KvHistories
import DistributedLabs.Porcupine.OpLog
