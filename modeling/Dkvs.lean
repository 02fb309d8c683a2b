import Dkvs.ReplicatedLog.Quorum
import Dkvs.ReplicatedLog.Protocol
import Dkvs.ReplicatedLog.Elections
import Dkvs.ReplicatedLog.Matching
import Dkvs.ReplicatedLog.Completeness
import Dkvs.ReplicatedLog.Acknowledgement
import Dkvs.ReplicatedLog.Frame
import Dkvs.ReplicatedLog.Adoption
import Dkvs.RecordLog
import Dkvs.ShiftRegister
import Dkvs.PlainText
import Dkvs.Codec
import Dkvs.Checksum
import Dkvs.Messages
import Dkvs.RaftNode
import Dkvs.Operations
import Dkvs.Frames
import Dkvs.Server
import Dkvs.Cluster
import Dkvs.Simulation.Effects
import Dkvs.Simulation.Leader
import Dkvs.Simulation.Follower
import Dkvs.Simulation.Voting
import Dkvs.Simulation.Tally
import Dkvs.Simulation.Network
import Dkvs.Simulation.Step
import Dkvs.Moves
import Dkvs.Safety
import Dkvs.Commitment.Advance
import Dkvs.Commitment.Index
import Dkvs.Commitment.Invariant
import Dkvs.Commitment.Step
import Dkvs.Commitment.Safety
import Dkvs.Commitment.Divergence
import Dkvs.RealTime
import Dkvs.Replication.Peers
import Dkvs.Replication.Confirmed
import Dkvs.Replication.Merge
import Dkvs.Replication.CommitBound
import Dkvs.Replication.Backup
import Dkvs.LeaderHint
import Dkvs.Storage.Files
import Dkvs.Storage.Recovery
import Dkvs.Storage.Refinement
import Dkvs.Storage.Corruption
import Dkvs.Storage.Meta
import Dkvs.Storage.Persists
import Dkvs.Transport
import Dkvs.Grammar
import Dkvs.Reservation
import Dkvs.FrameLimit
import Dkvs.Framing
import Dkvs.Lines
import Dkvs.Storage.Node
import Dkvs.Storage.Promises
import Dkvs.Storage.Ballots
import Dkvs.Replication.Redelivery
import Dkvs.Frontend
import Dkvs.Waiting
import Dkvs.Results
import Dkvs.TextProtocol
import Dkvs.Addresses
import Dkvs.Durability
import Dkvs.Linearization
import Dkvs.Provenance
import Dkvs.ReplicatedLog.Holders
import Dkvs.ClientHistory
import Dkvs.Linearizability
import Dkvs.Commitment.Covering
import Dkvs.Rpc
import Dkvs.Physical.Wire
import Dkvs.Physical.Refinement
import Dkvs.Terms
import Dkvs.Timing
import Dkvs.Replication.Staffing
import Dkvs.Stability
import Dkvs.Failover.Steps
import Dkvs.Failover.Vacancy
import Dkvs.Failover.Election
import Dkvs.Failover.Replication
import Dkvs.Failover.Service
import Dkvs.Monitor
import Dkvs.Wakeups
import Dkvs.Conversation.Connections
import Dkvs.Client
import Dkvs.Resending
import Dkvs.Conversation.Consistency
import Dkvs.Conversation.Parking
