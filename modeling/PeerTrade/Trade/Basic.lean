import PeerTrade.Protocol.Listing
import PeerTrade.Registry
import PeerTrade.Snapshot

/-!
# Trades

A trade is created under the transition table that a registry holds for its combination, and
keeps that table for life. `Trade.toSnapshot` is what is stored of it, and `Trade.restore` brings
a stored trade back, provided that the registry still holds the table it was begun with.
-/

namespace PeerTrade

/-- A trade as the local side sees it. -/
structure Trade where
  id : String
  combination : Combination
  state : State
  /-- The number of transitions so far. -/
  sequence : UInt64
  terms : Terms
  /-- The digest of the terms, by which a taker commits to them. -/
  termsFingerprint : String
  counterparty : Peer
  createdAt : Instant
  updatedAt : Instant
  finalized : Bool
  /-- The greatest sequence of a message that was acted upon. -/
  lastPeerSequence : UInt64
  /-- The names of the commands that were acted upon, oldest first, as far as remembered. -/
  consumed : List String
  /-- The armed deadlines. -/
  deadlines : Dict DeadlineKind Deadline
  protocol : Protocol
  deriving DecidableEq

namespace Trade

/-! ## Creating and restoring -/

/-- A trade that has just been created under a table. -/
def initial (now : Instant) (id : String) (combination : Combination) (terms : Terms)
    (counterparty : Peer) (protocol : Protocol) : Trade where
  id
  combination
  state := protocol.initial
  sequence := 0
  terms
  termsFingerprint := terms.fingerprint
  counterparty
  createdAt := now
  updatedAt := now
  finalized := false
  lastPeerSequence := 0
  consumed := []
  deadlines := {}
  protocol

/-- A new trade. Neither a combination without table nor unsound terms give a trade. -/
def create (registry : Registry) (now : Instant) (id : String) (combination : Combination)
    (terms : Terms) (counterparty : Peer) : Except SetupError Trade := do
  if id.isEmpty then throw .emptyTradeId
  let protocol ← registry.lookup combination
  (terms.verify).mapError .invalidTerms
  pure (initial now id combination terms counterparty protocol)

/-- The trade that a snapshot stands for under a table. -/
def ofSnapshot (s : Snapshot) (protocol : Protocol) : Trade where
  id := s.tradeId
  combination := ⟨s.role, s.settlement⟩
  state := s.state
  sequence := s.sequence
  terms := s.terms
  termsFingerprint := s.terms.fingerprint
  counterparty := s.counterparty
  createdAt := s.createdAt
  updatedAt := s.updatedAt
  finalized := s.finalized
  lastPeerSequence := s.lastPeerSequence
  consumed := s.consumed
  deadlines := .ofList (s.deadlines.map fun d => (d.id.kind, d))
  protocol

/-- The trade that a snapshot was taken of, under the table it was begun with. -/
def restore (registry : Registry) (s : Snapshot) : Except SetupError Trade := do
  if s.tradeId.isEmpty then throw .emptyTradeId
  let protocol ← registry.lookup ⟨s.role, s.settlement⟩
  if protocol.fingerprint ≠ s.fingerprint then
    throw (.definitionMismatch s.fingerprint protocol.fingerprint)
  (s.terms.verify).mapError .invalidTerms
  pure (ofSnapshot s protocol)

/-- What is stored of a trade. -/
def toSnapshot (t : Trade) : Snapshot where
  version := Snapshot.currentVersion
  tradeId := t.id
  role := t.combination.role
  settlement := t.combination.settlement
  state := t.state
  sequence := t.sequence
  terms := t.terms
  counterparty := t.counterparty
  createdAt := t.createdAt
  updatedAt := t.updatedAt
  finalized := t.finalized
  lastPeerSequence := t.lastPeerSequence
  consumed := t.consumed
  deadlines := t.deadlines.values
  fingerprint := t.protocol.fingerprint

/-! ## Looking -/

/-- The armed deadline of a kind. -/
def deadline? (t : Trade) (kind : DeadlineKind) : Option Deadline := t.deadlines.get? kind

/-- The names of the armed deadlines, by kind. -/
def armed (t : Trade) : List DeadlineId := t.deadlines.values.map (·.id)

/-- Whether a command is remembered as acted upon. -/
def hasConsumed (t : Trade) (id : String) : Bool := t.consumed.contains id

/-! ## Changing

Only a committed transition changes a trade. -/

/-- How many names of commands are remembered. -/
def window : Nat := 64

/-- The next sequence and a new state. -/
def advance (t : Trade) (target : State) (now : Instant) : Trade :=
  { t with sequence := t.sequence + 1, state := target, updatedAt := now }

/-- Remembers a command, and forgets the oldest ones beyond the window. -/
def remember (t : Trade) (id : String) : Trade :=
  let consumed := t.consumed ++ [id]
  { t with consumed := consumed.drop (consumed.length - window) }

/-- Arms a deadline in place of one of the same kind. -/
def arm (t : Trade) (d : Deadline) : Trade :=
  { t with deadlines := t.deadlines.insert d.id.kind d }

/-- Disarms the deadline of a kind. -/
def disarm (t : Trade) (kind : DeadlineKind) : Trade :=
  { t with deadlines := t.deadlines.erase kind }

/-- Ends the trade, with all deadlines disarmed. -/
def finalize (t : Trade) : Trade := { t with finalized := true, deadlines := {} }

end Trade

end PeerTrade
