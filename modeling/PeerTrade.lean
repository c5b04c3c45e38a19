import PeerTrade.Identifier.Basic
import PeerTrade.Main
import PeerTrade.Network.Calls
import PeerTrade.Network.Observer
import PeerTrade.Proofs.Checks
import PeerTrade.Proofs.Engine.Step
import PeerTrade.Proofs.Engine.Run
import PeerTrade.Proofs.Engine.Replay
import PeerTrade.Proofs.Engine.Consumption
import PeerTrade.Proofs.Cbor.Head
import PeerTrade.Proofs.Cbor.Item
import PeerTrade.Proofs.Cbor.Record
import PeerTrade.Proofs.Wire.Deadline
import PeerTrade.Proofs.Dict
import PeerTrade.Proofs.Snapshot
import PeerTrade.Proofs.Trade.Restart
import PeerTrade.Proofs.Store.Durability
import PeerTrade.Proofs.Store.Convergence
import PeerTrade.Proofs.Engine.Guards
import PeerTrade.Proofs.Pair.Basic
import PeerTrade.Proofs.Pair.Agreement
import PeerTrade.Proofs.Standard.Completion
import PeerTrade.Proofs.Network.Actions
import PeerTrade.Proofs.Node.Deadlines
import PeerTrade.Proofs.Exchange.Cooperation
import PeerTrade.Proofs.Exchange.Cancellation
import PeerTrade.Proofs.Snapshot.RoundTrip
import PeerTrade.Proofs.Protocol.Draft
import PeerTrade.Proofs.Engine.Clock
import PeerTrade.Proofs.Engine.Outsiders
import PeerTrade.Proofs.Engine.Coherence
import PeerTrade.Proofs.Standard.Payment
import PeerTrade.Proofs.Standard.Endings
import PeerTrade.Proofs.Store.Aftermath
import PeerTrade.Proofs.Standard.Handshake
import PeerTrade.Proofs.Protocol.Listing
import PeerTrade.Proofs.Node.Retries
import PeerTrade.Proofs.Store.Closing
import PeerTrade.Proofs.Snapshot.Foreign
import PeerTrade.Proofs.Node.Messages
import PeerTrade.Proofs.Node.Lives
import PeerTrade.Proofs.Engine.Effects
import PeerTrade.Proofs.Standard.Lifetime
import PeerTrade.Proofs.Standard.Exits
import PeerTrade.Proofs.Store.Coalescing
import PeerTrade.Proofs.Notice.Subscriptions
import PeerTrade.Proofs.Node.Resumption
import PeerTrade.Proofs.Node.Notices
import PeerTrade.Proofs.Node.Failures
import PeerTrade.Proofs.Commitment
import PeerTrade.Proofs.Registry
import PeerTrade.Proofs.Protocol.Declarations
import PeerTrade.Proofs.Engine.Lengths
import PeerTrade.Proofs.Node.Dues
import PeerTrade.Proofs.Node.Rearming
import PeerTrade.Proofs.Store.WakeUps
import PeerTrade.Proofs.Store.Draining
