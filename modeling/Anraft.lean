import Anraft.Base.Machine
import Anraft.Base.OrderStatistic
import Anraft.Base.Watermark
import Anraft.Base.Segment
import Anraft.Base.Trace
import Anraft.Base.TreeMap
import Anraft.Base.Simulation
import Anraft.Base.Ballot
import Anraft.Base.Network
import Anraft.Base.Ledger
import Anraft.Log.TruncateAndAppend
import Anraft.Log.Slices
import Anraft.Log.AppendLaw
import Anraft.Log.CommitBound
import Anraft.Log.CommittedEntries
import Anraft.Log.CommitProgress
import Anraft.Log.NewLog
import Anraft.Log.Extension
import Anraft.Log.FindConflict
import Anraft.RaftRun
import Anraft.Storage.Append
import Anraft.Storage.Entries
import Anraft.Storage.Compaction
import Anraft.Storage.CurrentTerm
import Anraft.Storage.Runs
import Anraft.Election.VoteSafety
import Anraft.Election.OneVote
import Anraft.Election.TermDiscipline
import Anraft.Election.Majority
import Anraft.Election.Roles
import Anraft.Election.Quorum
import Anraft.Election.UpToDate
import Anraft.Election.VoteReplies
import Anraft.Election.PollCount
import Anraft.Replication.Frame
import Anraft.Replication.AppendReplies
import Anraft.Replication.AckOrder
import Anraft.Replication.ProgressInvariant
import Anraft.Replication.Transmission
import Anraft.Replication.SenderTerms
import Anraft.Replication.AppendBounds
import Anraft.Replication.Proposals
import Anraft.Membership.Frame
import Anraft.Membership.Broadcasts
import Anraft.Replication.HeartbeatCommit
import Anraft.Replication.CommitProvenance
import Anraft.Timers.Heartbeats
import Anraft.Timers.Elections
import Anraft.Node.Strangers
import Anraft.Impl.Elections
import Anraft.Impl.ElectionOutcomes
import Anraft.Impl.OneVote
import Anraft.Impl.ApplyOrder
import Anraft.Impl.FollowerProgress
import Anraft.Impl.CommittedTerm
import Anraft.Impl.MajorityIndex
import Anraft.Impl.Replicas
import Anraft.Cluster.Traffic
import Anraft.Cluster.ElectionSafety
import Anraft.Cluster.Replication
import Anraft.Determinacy
import Anraft.Log.LastWritten
import Anraft.Node.Startup
import Anraft.Cluster.Queues
import Anraft.Cluster.QueueElections
import Anraft.Cluster.Office
