import Chfs.Lib.Run
import Chfs.Lib.Quorum
import Chfs.Lib.LeaderLog
import Chfs.Lib.Ballot
import Chfs.Raft.Node
import Chfs.Raft.Network
import Chfs.Raft.FullLog
import Chfs.Raft.Handlers
import Chfs.Raft.Election
import Chfs.Raft.Replication
import Chfs.Raft.Matching
import Chfs.Raft.LogSafety
import Chfs.Lib.Commit
import Chfs.Raft.Counting
import Chfs.Raft.Acceptance
import Chfs.Raft.AcceptanceSteps
import Chfs.Raft.Commitment
import Chfs.Raft.StateMachineSafety
import Chfs.Block.Manager
import Chfs.Raft.Storage
import Chfs.Raft.Persistence
import Chfs.Block.Allocator
import Chfs.Fs.Files
import Chfs.Fs.Growth
import Chfs.Fs.Writing
import Chfs.Fs.Removal
import Chfs.Fs.Contents
import Chfs.Fs.Reclaim
import Chfs.Distributed.DataServer
import Chfs.Distributed.Versions
import Chfs.Distributed.BlockMap
import Chfs.Distributed.Requests
import Chfs.Distributed.Listing
import Chfs.Distributed.Ownership
import Chfs.Distributed.StaleWrites
import Chfs.Distributed.Client
import Chfs.Fs.Directory
import Chfs.Lib.Tree
import Chfs.Fs.Naming
import Chfs.Distributed.Names
import Chfs.Fs.Orphans
import Chfs.Raft.Disks
import Chfs.Raft.Splicing
import Chfs.Raft.Terms
import Chfs.Raft.Votes
import Chfs.Block.BlockIds
import Chfs.Block.Buffer
import Chfs.Distributed.BlockStore
import Chfs.MapReduce.Tasks
import Chfs.Lib.Sorting
import Chfs.MapReduce.Words
import Chfs.MapReduce.Job
import Chfs.MapReduce.Reexecution
import Chfs.Raft.Subscripts
import Chfs.Raft.Progress
import Chfs.Raft.Commands
import Chfs.Raft.CommitRule
import Chfs.Raft.Snapshots
import Chfs.Raft.EntryBlocks
import Chfs.Raft.Shutdown
import Chfs.Distributed.Logging
import Chfs.Distributed.LogImage
import Chfs.Distributed.Redo
import Chfs.Distributed.LoggedNames
import Chfs.Distributed.LogRoom
import Chfs.Distributed.InFlight
import Chfs.Distributed.LogRecords
import Chfs.Block.FailedWrites
import Chfs.Distributed.Capacity
import Chfs.Fs.InodeTable
import Chfs.Block.Address
import Chfs.Fs.InodeIds
import Chfs.Fs.Exhaustion
import Chfs.Distributed.FailedCreates
import Chfs.Block.BitmapSearch
import Chfs.Raft.ListMachine
import Chfs.Distributed.Bounds
import Chfs.Distributed.Probing
import Chfs.MapReduce.Sequential
import Chfs.Fs.Reopening
import Chfs.Raft.Replicas
import Chfs.Raft.Proposals
import Chfs.Utils.Workers
import Chfs.Fs.Readdir
import Chfs.Distributed.FailedUnlinks
import Chfs.Distributed.MountDaemon
import Chfs.MapReduce.StoredFiles
