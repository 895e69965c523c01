import GoLabs.Lib.Run
import GoLabs.Lib.Quorum
import GoLabs.Lib.Slice
import GoLabs.Lib.Bytes
import GoLabs.Lib.File
import GoLabs.Lib.Partition
import GoLabs.Lib.Possible
import GoLabs.Lib.Group
import GoLabs.Lib.Linearization
import GoLabs.Lib.FirstIndex
import GoLabs.Lib.Retry
import GoLabs.Lib.Loop
import GoLabs.Lib.Search
import GoLabs.Lib.Trace
import GoLabs.Lib.Links
import GoLabs.Lib.Marking
import GoLabs.Consensus.Peer
import GoLabs.Consensus.Cluster
import GoLabs.Consensus.Step
import GoLabs.Consensus.Votes
import GoLabs.Consensus.Election
import GoLabs.Consensus.Rounds
import GoLabs.Consensus.Logs
import GoLabs.Consensus.Indices
import GoLabs.Consensus.Commit
import GoLabs.Consensus.Completeness
import GoLabs.Consensus.Safety
import GoLabs.Consensus.Promotion
import GoLabs.Consensus.Bookkeeping
import GoLabs.Consensus.Shape
import GoLabs.Consensus.Messages
import GoLabs.Consensus.Answers
import GoLabs.Consensus.Refusals
import GoLabs.Consensus.Windows
import GoLabs.Consensus.TermIndex
import GoLabs.Consensus.Repair
import GoLabs.Consensus.Takeover
import GoLabs.Consensus.Availability
import GoLabs.Consensus.Tester
import GoLabs.MapReduce.Task
import GoLabs.MapReduce.Worker
import GoLabs.MapReduce.Reduce
import GoLabs.MapReduce.Output
import GoLabs.MapReduce.Job
import GoLabs.MapReduce.Server
import GoLabs.MapReduce.Barrier
import GoLabs.MapReduce.Timers
import GoLabs.MapReduce.Schedule
import GoLabs.MapReduce.Recovery
import GoLabs.MapReduce.Completion
import GoLabs.MapReduce.WordCount
import GoLabs.Porcupine.Bitset
import GoLabs.Porcupine.Entries
import GoLabs.Porcupine.Kv
import GoLabs.Porcupine.Checker
import GoLabs.Porcupine.Structures
import GoLabs.Porcupine.CheckSingle
import GoLabs.Porcupine.Histories
import GoLabs.Porcupine.Parallel
import GoLabs.Porcupine.Returns
import GoLabs.Porcupine.Check
import GoLabs.Porcupine.Events
import GoLabs.Porcupine.Visualization
import GoLabs.Labrpc.Network
import GoLabs.Labrpc.Steps
import GoLabs.Labrpc.Calls
import GoLabs.Labrpc.Returns
import GoLabs.Labgob.CheckType
