import PeerTrade.Peer
import PeerTrade.Sha256

/-!
# Commitments to payloads

A signature is checked by a `Verifier`, which the surrounding program supplies. The commitment of
this module is the digest of the signer's handle, a zero byte and the payload. It binds a payload
to a handle and lets two nodes in one process exercise the guards on signatures; it is no
signature scheme, since anybody can compute it.
-/

namespace PeerTrade

/-- What decides whether a signature holds. -/
structure Verifier where
  /-- Whether a signature of a peer on a payload holds. -/
  accepts : Peer → (payload signature : Bytes) → Bool
  /-- Whether the check breaks down instead of giving an answer. -/
  crashes : Bool := false

namespace Commitment

/-- What the digest is taken of. -/
def preimage (signer : Peer) (payload : Bytes) : Bytes := Bytes.ofText signer.handle ++ 0 :: payload

/-- The commitment of a peer to a payload. -/
def commit (signer : Peer) (payload : Bytes) : Bytes := Sha256.digest (preimage signer payload)

/-- The verifier that accepts exactly the commitments. -/
def verifier : Verifier where
  accepts signer payload signature :=
    !signature.isEmpty && Bytes.hex signature == Sha256.hexDigest (preimage signer payload)

end Commitment

end PeerTrade
