import RaftVibe.RaftServer
import RaftVibe.Runs
import RaftVibe.ReplicatedLogSafety
import RaftVibe.RaftCoreSpec
import RaftVibe.Operations
import RaftVibe.MachineRange
import RaftVibe.Representation
import RaftVibe.Durability
import RaftVibe.Election
import RaftVibe.LogicalLog
import RaftVibe.Acknowledgement
import RaftVibe.Folding
import RaftVibe.RaftServerSpec
import RaftVibe.Roles
import RaftVibe.Simulation
import RaftVibe.SimulationFollower
import RaftVibe.SimulationLeader
import RaftVibe.SimulationStep
import RaftVibe.Safety
import RaftVibe.ReadIndex
import RaftVibe.InstallSnapshot
import RaftVibe.Mirror
import RaftVibe.CrashRecovery
import RaftVibe.CommitOrder
import RaftVibe.Exchange
import RaftVibe.ConflictHints
import RaftVibe.CatchUp
import RaftVibe.Linearizability
import RaftVibe.History
import RaftVibe.Checker
import RaftVibe.CheckerSearch
import RaftVibe.CheckerKey
import RaftVibe.CheckerVerdict
import RaftVibe.CheckerOrder
import RaftVibe.FileStorage
import RaftVibe.FileStorageSpec
import RaftVibe.StorageAgreement
import RaftVibe.Retransmission
import RaftVibe.FailedSnapshot
import RaftVibe.TornWrites
import RaftVibe.TornLog
import RaftVibe.GluedLines
import RaftVibe.KeyValue
import RaftVibe.VoteRound
import RaftVibe.LeaderHints
import RaftVibe.Bookkeeping
import RaftVibe.SubmitReplies
import RaftVibe.Checksum
import RaftVibe.DamagedFiles
import RaftVibe.NodeCalls
import RaftVibe.Restarts
import RaftVibe.StateReplication
import RaftVibe.ReadFreshness
import RaftVibe.ClientHistory
import RaftVibe.Submissions
import RaftVibe.ClientHttp
import RaftVibe.HttpLinearizability
import RaftVibe.LatestWrite
import RaftVibe.StorageSimulation
import RaftVibe.FileFormats
import RaftVibe.FileNodes
import RaftVibe.ClusterSimulation
