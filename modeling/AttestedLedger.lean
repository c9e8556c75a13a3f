import AttestedLedger.Archive.File
import AttestedLedger.Archive.Records
import AttestedLedger.Archive.Snapshot
import AttestedLedger.Archive.Store
import AttestedLedger.Attestation.Basic
import AttestedLedger.Attestation.Round
import AttestedLedger.Attestation.Verifier
import AttestedLedger.Block
import AttestedLedger.Block.Work
import AttestedLedger.Bytes
import AttestedLedger.Bytes.Hex
import AttestedLedger.Codec.Decoder
import AttestedLedger.Codec.Prefixed
import AttestedLedger.Codec.Varint
import AttestedLedger.Command.Args
import AttestedLedger.Command.Run
import AttestedLedger.Curve.Ecdsa
import AttestedLedger.Curve.Secp256k1
import AttestedLedger.Decimal.Binary64
import AttestedLedger.Digest
import AttestedLedger.Digest.Hmac
import AttestedLedger.Digest.Sha256
import AttestedLedger.Duration
import AttestedLedger.Json.Reader
import AttestedLedger.Json.Value
import AttestedLedger.Key.Basic
import AttestedLedger.Key.File
import AttestedLedger.Key.Identity
import AttestedLedger.Ledger.Chain
import AttestedLedger.Ledger.Pool
import AttestedLedger.Ledger.Rules
import AttestedLedger.Ledger.State
import AttestedLedger.Main
import AttestedLedger.Message
import AttestedLedger.Mining.Attempt
import AttestedLedger.Mining.Candidate
import AttestedLedger.Node.Basic
import AttestedLedger.Node.Delivery
import AttestedLedger.Node.Serving
import AttestedLedger.Node.Step
import AttestedLedger.Params
import AttestedLedger.Params.Retarget
import AttestedLedger.Params.Reward
import AttestedLedger.Peer.Address
import AttestedLedger.Peer.Call
import AttestedLedger.Peer.Stream
import AttestedLedger.Simulation.Desk
import AttestedLedger.Simulation.Drive
import AttestedLedger.Simulation.Script
import AttestedLedger.Text.Literal
import AttestedLedger.Text.Utf8
import AttestedLedger.Transaction
import AttestedLedger.Proofs.Ledger.Acceptance
import AttestedLedger.Proofs.Ledger.History
import AttestedLedger.Proofs.Ledger.Pool
import AttestedLedger.Proofs.Ledger.Upkeep
import AttestedLedger.Proofs.Mining.Search
import AttestedLedger.Proofs.Node.Step
import AttestedLedger.Proofs.Archive.Load
import AttestedLedger.Proofs.Node.Upkeep
import AttestedLedger.Proofs.Node.Conservation
import AttestedLedger.Proofs.Attestation.Round
import AttestedLedger.Proofs.Codec.Prefix
import AttestedLedger.Proofs.Ledger.Naming
import AttestedLedger.Proofs.Mining.Production
import AttestedLedger.Proofs.Node.Production
import AttestedLedger.Proofs.Attestation.Inquiry
import AttestedLedger.Proofs.Codec.Reading
import AttestedLedger.Proofs.Codec.RoundTrip
import AttestedLedger.Proofs.Codec.Scopes
import AttestedLedger.Proofs.Codec.Framing
import AttestedLedger.Command.Life
import AttestedLedger.Proofs.Ledger.Rebuild
import AttestedLedger.Proofs.Ledger.Commitment
import AttestedLedger.Proofs.Archive.Save
import AttestedLedger.Proofs.Archive.Restore
import AttestedLedger.Proofs.Node.Life
import AttestedLedger.Proofs.Archive.Tamper
import AttestedLedger.Proofs.Node.Admission
import AttestedLedger.Proofs.Node.Durability
import AttestedLedger.Proofs.Mining.Capacity
import AttestedLedger.Proofs.Archive.Overlay
import AttestedLedger.Proofs.Archive.Interrupted
import AttestedLedger.Proofs.Text.Length
import AttestedLedger.Proofs.Codec.Faults
import AttestedLedger.Proofs.Node.Replies
import AttestedLedger.Proofs.Node.Serving
import AttestedLedger.Proofs.Codec.Respelling
import AttestedLedger.Proofs.Attestation.Polling
import AttestedLedger.Proofs.Node.Watching
import AttestedLedger.Proofs.Node.Calls
import AttestedLedger.Proofs.Node.Refreshing
import AttestedLedger.Proofs.Mining.Rounds
import AttestedLedger.Proofs.Node.Rounds
import AttestedLedger.Proofs.Node.Replay
import AttestedLedger.Proofs.Node.Acceptance
import AttestedLedger.Proofs.Mining.Trials
import AttestedLedger.Proofs.Params.Retarget
import AttestedLedger.Proofs.Ledger.Retargeting
import AttestedLedger.Proofs.Ledger.Audit
import AttestedLedger.Proofs.Ledger.Pruning
import AttestedLedger.Proofs.Codec.Limits
