import PeerTrade.Engine.Rejection
import PeerTrade.Link
import PeerTrade.State
import PeerTrade.Store.Error

/-!
# Notices

What happens to a trade is made known to observers by notices, each of them tied to a trade and
to the sequence that the trade had when it was raised.
-/

namespace PeerTrade

/-- What a notice reports. -/
inductive Happening where
  | stateChanged (source target : State)
  /-- The trade has ended and accepts nothing further. -/
  | finalized (state : State)
  | rejected (rejection : Rejection)
  | persistenceFailed (failure : PersistFailure)
  | deliveryFailed (error : LinkError)
  | deadlineExpired (id : DeadlineId)
  deriving DecidableEq, Repr

/-- The happening in words. -/
def Happening.text : Happening → String
  | stateChanged source target =>
    "state changed " ++ Catalog.name source ++ " -> " ++ Catalog.name target
  | finalized state => "trade finished in " ++ Catalog.name state
  | rejected rejection => "event rejected: " ++ rejection.text
  | persistenceFailed failure => failure.message
  | deliveryFailed error => "delivery failed: " ++ error.message
  | deadlineExpired id =>
    "deadline " ++ Catalog.name id.kind ++ s!" armed at #{id.armedAt} expired"

/-- One notice. -/
structure Notice where
  tradeId : String
  sequence : UInt64
  happening : Happening
  deriving DecidableEq, Repr

/-- The notice in words. -/
def Notice.text (n : Notice) : String := s!"[{n.tradeId} #{n.sequence}] " ++ n.happening.text

end PeerTrade
