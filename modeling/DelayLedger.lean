import DelayLedger.Command.Keygen
import DelayLedger.Command.Node
import DelayLedger.Keystore
import DelayLedger.Round.Timeline
import DelayLedger.Settings
import DelayLedger.Store
import DelayLedger.Text.Moment
import DelayLedger.Forge
import DelayLedger.Schedule
import DelayLedger.Suite.Standard
import DelayLedger.Block.Wire
import DelayLedger.Block.Record
import DelayLedger.Main
import DelayLedger.Bytes.Number
import DelayLedger.Delay.Power
import DelayLedger.Proofs.Ticket
import DelayLedger.Proofs.Membership.Roll
import DelayLedger.Proofs.Chain.History
import DelayLedger.Proofs.Chain.Reachable
import DelayLedger.Proofs.Block.Preimage
import DelayLedger.Proofs.Chain.Race
import DelayLedger.Proofs.Forge
import DelayLedger.Proofs.Membership.Consent
import DelayLedger.Proofs.Chain.Restore
import DelayLedger.Proofs.Membership.Replay
import DelayLedger.Proofs.Delay.Computation
import DelayLedger.Proofs.Delay.Sign
import DelayLedger.Proofs.Delay.Primality
import DelayLedger.Proofs.Delay.Statement
import DelayLedger.Proofs.Chain.Commitment
import DelayLedger.Proofs.Block.Format
import DelayLedger.Proofs.Chain.Relay
import DelayLedger.Proofs.Store.Interruption
import DelayLedger.Proofs.Store.Mirror
import DelayLedger.Proofs.Chain.Sync
import DelayLedger.Proofs.Chain.Feed
import DelayLedger.Proofs.Membership.Queue
import DelayLedger.Proofs.Round.Outcome
import DelayLedger.Proofs.Round.Undisturbed
import DelayLedger.Proofs.Round.Requests
import DelayLedger.Proofs.Round.Timeline
import DelayLedger.Proofs.Chain.Election
import DelayLedger.Proofs.Membership.Capacity
import DelayLedger.Proofs.Schedule
import DelayLedger.Proofs.Retarget.Words
import DelayLedger.Proofs.Chain.Alteration
import DelayLedger.Proofs.Chain.Stamping
import DelayLedger.Proofs.Membership.Arrival
import DelayLedger.Proofs.Genesis
import DelayLedger.Proofs.Purpose
import DelayLedger.Proofs.Keystore.Overwriting
import DelayLedger.Proofs.Keystore.Contents
