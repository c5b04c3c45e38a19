/-!
# Peers

Whoever takes part in trades is known to the others by a handle; nothing is read out of it.
-/

namespace PeerTrade

/-- The handle under which a peer is known. -/
structure Peer where
  handle : String
  deriving DecidableEq, Inhabited, Repr

end PeerTrade
