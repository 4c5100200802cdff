import Krapi.Lib.Run
import Krapi.Lib.Timeline
import Krapi.Lib.Settlement
import Krapi.Lib.Correlation
import Krapi.ProofOfWork
import Krapi.Conservation
import Krapi.DeliveryOrder
import Krapi.Follower
import Krapi.PendingVotes
import Krapi.TwoNodes
import Krapi.MinerWaits
import Krapi.Agreement
import Krapi.InitialDownload
import Krapi.CatchUp
import Krapi.LiveEquivalence
import Krapi.Messages
import Krapi.EventQueue
import Krapi.Connections
import Krapi.Signaling
import Krapi.RetryHandler
import Krapi.Drains
import Krapi.Retries
import Krapi.PeerStates
import Krapi.WaitForPeers
import Krapi.LostWakeups
import Krapi.Presence
import Krapi.Codec
import Krapi.MinedChain
import Krapi.Batches
import Krapi.Admissions
import Krapi.Lib.Json
import Krapi.Truncation
import Krapi.Preimages
import Krapi.Snapshots
import Krapi.Decoding
import Krapi.Segments
import Krapi.VoteCounts
import Krapi.Ballots
import Krapi.Boxes
import Krapi.Broadcasts
import Krapi.Control
import Krapi.Forks
import Krapi.Lib.Simulation
import Krapi.Lib.Subscriptions
import Krapi.Listeners
import Krapi.MinerThread
import Krapi.Receipts
import Krapi.Relay
import Krapi.Mesh
import Krapi.Lib.Recoding
import Krapi.MeshJson
import Krapi.SoleMiner
import Krapi.SwarmJson
