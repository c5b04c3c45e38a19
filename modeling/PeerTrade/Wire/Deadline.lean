import PeerTrade.Cbor.Record
import PeerTrade.Deadline
import PeerTrade.Peer

/-!
# Peers, instants and deadlines in their stored form

An instant is stored as a signed number of nanoseconds. One that such a number cannot hold has no
stored form, and neither has anything that contains it; this is the only way in which writing can
fail.
-/

namespace PeerTrade

open Cbor

/-- Why a value has no stored form. -/
inductive EncodeError where
  /-- An instant lies too far from 1970. -/
  | instantOutOfRange
  deriving DecidableEq, Repr

/-- The error in words. -/
def EncodeError.message : EncodeError → String
  | instantOutOfRange => "failed to encode timestamp. timestamp_nanos_opt returned None"

namespace Peer

/-- The stored form of a peer. -/
def encode (p : Peer) : Bytes := ofRecord [ofText p.handle]

/-- Reads a peer. -/
def decode : Reader Peer := form₁ text mk

end Peer

namespace Instant

/-- The stored form of an instant. -/
def encode (t : Instant) : Except EncodeError Bytes :=
  if t.IsStorable then .ok (ofInt t.nanos) else .error .instantOutOfRange

/-- Reads an instant. -/
def decode : Reader Instant := ofInt64 <$> int64

end Instant

namespace DeadlineId

/-- The stored form of a deadline's name. -/
def encode (d : DeadlineId) : Bytes := ofRecord [ofMember d.kind, ofNat d.armedAt.toNat]

/-- Reads a deadline's name. -/
def decode : Reader DeadlineId := form₂ member uint64 mk

end DeadlineId

namespace Deadline

/-- The stored form of a deadline. -/
def encode (d : Deadline) : Except EncodeError Bytes := do
  let expiresAt ← d.expiresAt.encode
  pure (ofRecord [d.id.encode, expiresAt])

/-- Reads a deadline. -/
def decode : Reader Deadline := form₂ DeadlineId.decode Instant.decode mk

end Deadline

end PeerTrade
