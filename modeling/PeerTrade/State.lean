import PeerTrade.Catalog

/-!
# States of a trade

One list of states serves every settlement mechanism; a transition table uses the part of the
list that its mechanism needs.
-/

namespace PeerTrade

/-- The stage that a trade has reached. -/
inductive State where
  | init
  | takeOfferSent
  | offerAccepted
  | accountDataSent
  | accountDataReceived
  | fiatSent
  | fiatSentReceived
  | fiatReceiptConfirmed
  | btcSentReceived
  | awaitingDeposit
  | depositConfirmed
  | completed
  | cancelled
  | failed
  | disputed
  deriving DecidableEq, Inhabited, Repr

namespace State

instance : Catalog State where
  all := [init, takeOfferSent, offerAccepted, accountDataSent, accountDataReceived, fiatSent,
    fiatSentReceived, fiatReceiptConfirmed, btcSentReceived, awaitingDeposit, depositConfirmed,
    completed, cancelled, failed, disputed]
  index := State.ctorIdx
  name
    | init => "Init"
    | takeOfferSent => "TakeOfferSent"
    | offerAccepted => "OfferAccepted"
    | accountDataSent => "AccountDataSent"
    | accountDataReceived => "AccountDataReceived"
    | fiatSent => "FiatSent"
    | fiatSentReceived => "FiatSentReceived"
    | fiatReceiptConfirmed => "FiatReceiptConfirmed"
    | btcSentReceived => "BtcSentReceived"
    | awaitingDeposit => "AwaitingDeposit"
    | depositConfirmed => "DepositConfirmed"
    | completed => "Completed"
    | cancelled => "Cancelled"
    | failed => "Failed"
    | disputed => "Disputed"

instance : LawfulCatalog State where
  all_index a := by cases a <;> rfl
  index_all := by decide

instance : Ord State := ⟨Catalog.cmp⟩

instance : Std.TransOrd State := inferInstanceAs (Std.TransCmp Catalog.cmp)

instance : Std.LawfulEqOrd State := inferInstanceAs (Std.LawfulEqCmp Catalog.cmp)

end State

end PeerTrade
