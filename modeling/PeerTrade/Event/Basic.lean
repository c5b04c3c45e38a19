import PeerTrade.Bytes
import PeerTrade.Deadline
import PeerTrade.Peer

/-!
# Events and messages

An event is a message that arrived from the counterparty, a deadline that expired, or a command
of the local user. What the local side sends is an `Outbound`; once it is delivered the
other side sees the same content together with the sender (`Outbound.toInbound`).
-/

namespace PeerTrade

/-! ## Messages -/

/-- A message that arrived. -/
structure Inbound where
  tradeId : String
  /-- The sequence of the sender's own trade when it sent the message. -/
  sequence : UInt64
  sender : Peer
  kind : MessageKind
  payload : Bytes
  signature : Bytes
  deriving DecidableEq, Repr

/-- A message to be delivered. -/
structure Outbound where
  tradeId : String
  sequence : UInt64
  kind : MessageKind
  payload : Bytes
  signature : Bytes
  deriving DecidableEq, Repr

/-- What the other side sees of a message. -/
def Outbound.toInbound (m : Outbound) (sender : Peer) : Inbound where
  tradeId := m.tradeId
  sequence := m.sequence
  sender
  kind := m.kind
  payload := m.payload
  signature := m.signature

/-! ## Events -/

/-- An order of the local user or wallet. -/
structure Command where
  id : String
  kind : CommandKind
  payload : Bytes
  signature : Bytes
  deriving DecidableEq, Repr

/-- What moves a trade. -/
inductive Event where
  | inbound (message : Inbound)
  | timeout (id : DeadlineId)
  | command (command : Command)
  deriving DecidableEq, Repr

/-- The kind under which a transition table lists an event. -/
def Event.kind : Event → EventKind
  | inbound m => .message m.kind
  | timeout id => .timeout id.kind
  | command c => .command c.kind

end PeerTrade
