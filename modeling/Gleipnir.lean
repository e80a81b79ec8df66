import Gleipnir.Lib.Prog
import Gleipnir.Lib.Effects
import Gleipnir.Lib.Path
import Gleipnir.Lib.Argmin
import Gleipnir.Bytes
import Gleipnir.Types
import Gleipnir.Identity
import Gleipnir.Chain
import Gleipnir.Smt
import Gleipnir.State
import Gleipnir.Validation.KeyRotation
import Gleipnir.Validation.Mandates
import Gleipnir.Consensus.Gossip
import Gleipnir.Consensus.Triad
import Gleipnir.Consensus.Degraded
import Gleipnir.Consensus.Engine
import Gleipnir.Consensus.Prepare
import Gleipnir.Consensus.Commit
import Gleipnir.Consensus.Cycle
import Gleipnir.Consensus.Calls
import Gleipnir.Consensus.ElectionSpec
import Gleipnir.Consensus.PrepareSpec
import Gleipnir.Consensus.CommitSpec
import Gleipnir.Consensus.CycleSpec
import Gleipnir.Lib.Quorum
import Gleipnir.Sample
import Gleipnir.Consensus.CommitQuorum
import Gleipnir.Consensus.Atomicity
import Gleipnir.Consensus.Election
import Gleipnir.Consensus.CallsSpec
import Gleipnir.Consensus.Origin
import Gleipnir.Consensus.ChainLinks
import Gleipnir.Consensus.Votes
import Gleipnir.Consensus.Equivocation
import Gleipnir.Consensus.Bus
import Gleipnir.Consensus.VoteValidity
import Gleipnir.Consensus.KeyAuthority
import Gleipnir.Lib.Guard
import Gleipnir.LightClient.Verify
import Gleipnir.LightClient.VerifySpec
import Gleipnir.LightClient.Intersection
import Gleipnir.Lib.Interleave
import Gleipnir.Consensus.Publications
import Gleipnir.Consensus.Network
import Gleipnir.Consensus.Agreement
import Gleipnir.Consensus.StateRoot
import Gleipnir.Lib.Handover
import Gleipnir.Lib.HashChain
import Gleipnir.Lib.Offers
import Gleipnir.LightClient.ArrivalOrder
import Gleipnir.LightClient.Binding
import Gleipnir.LightClient.Bounds
import Gleipnir.Consensus.Convergence
import Gleipnir.Consensus.MandateAuthority
import Gleipnir.Consensus.Admission
import Gleipnir.Consensus.Retention
import Gleipnir.Consensus.SingleNode
import Gleipnir.Consensus.Authority
import Gleipnir.Consensus.SubChain
import Gleipnir.Consensus.Acceptance
import Gleipnir.Transport.GossipBus
import Gleipnir.Validators.Activity
import Gleipnir.Consensus.Enforcement
import Gleipnir.Lib.Bucket
import Gleipnir.Lib.Tiling
import Gleipnir.LightClient.Timing
import Gleipnir.Server.MerkleProof
import Gleipnir.Server.Rest
import Gleipnir.SmtMap
import Gleipnir.Storage.Restart
import Gleipnir.Transport.Finals
import Gleipnir.Transport.Forgery
import Gleipnir.Validation.Compliance
import Gleipnir.Validation.ComplianceSpec
import Gleipnir.Lib.Ranked
import Gleipnir.Validation.Audits
import Gleipnir.Validation.Lineage
import Gleipnir.Consensus.Compliance
import Gleipnir.Consensus.AllOrNothing
import Gleipnir.Consensus.SubChainRun
import Gleipnir.Consensus.Trimming
import Gleipnir.Lib.Latch
import Gleipnir.Consensus.DegradedRun
import Gleipnir.Lib.Matching
import Gleipnir.Consensus.QuorumCount
import Gleipnir.Lib.Dleq
import Gleipnir.Identity.VRF
import Gleipnir.Lib.SlidingWindow
import Gleipnir.Consensus.RateLimit
import Gleipnir.Consensus.EnqueueOrder
import Gleipnir.Daemon.Peers
import Gleipnir.Genesis.Spec
import Gleipnir.Genesis.Keys
import Gleipnir.Genesis.Config
import Gleipnir.Consensus.Pairing
import Gleipnir.Lib.CopyMap
import Gleipnir.SmtRecords
import Gleipnir.SmtRestore
import Gleipnir.Lib.Framing
import Gleipnir.Transport.SecureConn
import Gleipnir.Transport.Handshake
import Gleipnir.Lib.Floats
import Gleipnir.Lib.ExchangeSort
import Gleipnir.Lib.Spectrum
import Gleipnir.Lib.Sites
import Gleipnir.State.Laplacian
import Gleipnir.State.Connectivity
import Gleipnir.Validators.Connectivity
import Gleipnir.Transport.Mesh
import Gleipnir.Lib.Readers
import Gleipnir.Server.Streaming
import Gleipnir.Server.RestLimit
