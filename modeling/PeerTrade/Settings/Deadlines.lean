import PeerTrade.Event.Kind
import PeerTrade.Instant.Basic

/-!
# Lengths of deadlines

How long each kind of deadline runs, in whole seconds.
-/

namespace PeerTrade

/-- The length of each kind of deadline, in seconds. -/
structure DeadlineSettings where
  takeOfferResponse : UInt64 := 120
  fiatPayment : UInt64 := 86400
  btcSettlement : UInt64 := 86400
  deposit : UInt64 := 3600
  payout : UInt64 := 172800
  deriving DecidableEq, Inhabited, Repr

namespace DeadlineSettings

/-- The length of a kind of deadline, in seconds. -/
def secs (s : DeadlineSettings) : DeadlineKind → UInt64
  | .takeOfferResponse => s.takeOfferResponse
  | .fiatPayment => s.fiatPayment
  | .btcSettlement => s.btcSettlement
  | .deposit => s.deposit
  | .payout => s.payout

/-- The length of a kind of deadline. -/
def duration (s : DeadlineSettings) (kind : DeadlineKind) : Duration := .ofSecs (s.secs kind)

end DeadlineSettings

end PeerTrade
