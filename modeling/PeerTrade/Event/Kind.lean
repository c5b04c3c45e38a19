import PeerTrade.Catalog

/-!
# Kinds of events

Three sources move a trade: messages of the counterparty, deadlines that expire, and commands of
the local user. An `EventKind` says which, and is the half of a transition table's key that does
not depend on the trade. Messages are listed in front of timeouts and timeouts in front of
commands.
-/

namespace PeerTrade

/-! ## Messages, commands and deadlines -/

/-- What a message between the two sides says. -/
inductive MessageKind where
  | takeOfferRequest
  | takeOfferResponse
  | accountData
  | fiatSent
  | fiatReceiptConfirmed
  | btcSent
  | depositTxSigned
  | payoutSigned
  | tradeCancelled
  | disputeOpened
  deriving DecidableEq, Inhabited, Repr

namespace MessageKind

instance : Catalog MessageKind where
  all := [takeOfferRequest, takeOfferResponse, accountData, fiatSent, fiatReceiptConfirmed,
    btcSent, depositTxSigned, payoutSigned, tradeCancelled, disputeOpened]
  index := MessageKind.ctorIdx
  name
    | takeOfferRequest => "TakeOfferRequest"
    | takeOfferResponse => "TakeOfferResponse"
    | accountData => "AccountData"
    | fiatSent => "FiatSent"
    | fiatReceiptConfirmed => "FiatReceiptConfirmed"
    | btcSent => "BtcSent"
    | depositTxSigned => "DepositTxSigned"
    | payoutSigned => "PayoutSigned"
    | tradeCancelled => "TradeCancelled"
    | disputeOpened => "DisputeOpened"

instance : LawfulCatalog MessageKind where
  all_index a := by cases a <;> rfl
  index_all := by decide

end MessageKind

/-- What the local user orders. -/
inductive CommandKind where
  | takeOffer
  | sendAccountData
  | confirmFiatSent
  | confirmFiatReceipt
  | confirmBtcSent
  | confirmBtcReceipt
  | signDeposit
  | signPayout
  | cancelTrade
  | openDispute
  deriving DecidableEq, Inhabited, Repr

namespace CommandKind

instance : Catalog CommandKind where
  all := [takeOffer, sendAccountData, confirmFiatSent, confirmFiatReceipt, confirmBtcSent,
    confirmBtcReceipt, signDeposit, signPayout, cancelTrade, openDispute]
  index := CommandKind.ctorIdx
  name
    | takeOffer => "TakeOffer"
    | sendAccountData => "SendAccountData"
    | confirmFiatSent => "ConfirmFiatSent"
    | confirmFiatReceipt => "ConfirmFiatReceipt"
    | confirmBtcSent => "ConfirmBtcSent"
    | confirmBtcReceipt => "ConfirmBtcReceipt"
    | signDeposit => "SignDeposit"
    | signPayout => "SignPayout"
    | cancelTrade => "CancelTrade"
    | openDispute => "OpenDispute"

instance : LawfulCatalog CommandKind where
  all_index a := by cases a <;> rfl
  index_all := by decide

end CommandKind

/-- What a deadline waits for. -/
inductive DeadlineKind where
  | takeOfferResponse
  | fiatPayment
  | btcSettlement
  | deposit
  | payout
  deriving DecidableEq, Inhabited, Repr

namespace DeadlineKind

instance : Catalog DeadlineKind where
  all := [takeOfferResponse, fiatPayment, btcSettlement, deposit, payout]
  index := DeadlineKind.ctorIdx
  name
    | takeOfferResponse => "TakeOfferResponse"
    | fiatPayment => "FiatPayment"
    | btcSettlement => "BtcSettlement"
    | deposit => "Deposit"
    | payout => "Payout"

instance : LawfulCatalog DeadlineKind where
  all_index a := by cases a <;> rfl
  index_all := by decide

instance : Ord DeadlineKind := ⟨Catalog.cmp⟩

instance : Std.TransOrd DeadlineKind := inferInstanceAs (Std.TransCmp Catalog.cmp)

instance : Std.LawfulEqOrd DeadlineKind := inferInstanceAs (Std.LawfulEqCmp Catalog.cmp)

end DeadlineKind

/-! ## Kinds of events -/

/-- The kind of an event: its source, and what the source says. -/
inductive EventKind where
  | message (kind : MessageKind)
  | timeout (kind : DeadlineKind)
  | command (kind : CommandKind)
  deriving DecidableEq, Inhabited, Repr

namespace EventKind

/-- The kind as a reader sees it: the source in lower case, then the name. -/
def text : EventKind → String
  | message kind => "message " ++ Catalog.name kind
  | timeout kind => "timeout " ++ Catalog.name kind
  | command kind => "command " ++ Catalog.name kind

/-- The kind as it stands in the listing of a table: the name within brackets. -/
def listed : EventKind → String
  | message kind => "Message(" ++ Catalog.name kind ++ ")"
  | timeout kind => "Timeout(" ++ Catalog.name kind ++ ")"
  | command kind => "Command(" ++ Catalog.name kind ++ ")"

/-- Whether the counterparty is the source. -/
def isMessage : EventKind → Bool
  | message _ => true
  | timeout _ | command _ => false

instance : Catalog EventKind where
  all := Catalog.all.map message ++ Catalog.all.map timeout ++ Catalog.all.map command
  index
    | message kind => Catalog.index kind
    | timeout kind => 10 + Catalog.index kind
    | command kind => 15 + Catalog.index kind
  name := text

instance : LawfulCatalog EventKind where
  all_index a := by cases a with | _ kind => cases kind <;> rfl
  index_all := by decide

instance : Ord EventKind := ⟨Catalog.cmp⟩

instance : Std.TransOrd EventKind := inferInstanceAs (Std.TransCmp Catalog.cmp)

instance : Std.LawfulEqOrd EventKind := inferInstanceAs (Std.LawfulEqCmp Catalog.cmp)

end EventKind

end PeerTrade
