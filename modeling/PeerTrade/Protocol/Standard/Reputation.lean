import PeerTrade.Protocol.Standard.Building

/-!
# Trades secured by reputation

The seller shares the data of an account, the buyer pays into it, and the seller releases the
base currency once the payment arrived. Maker and taker differ in the handshake only, buyer and
seller in the settlement only, so the four tables combine two halves each.
-/

namespace PeerTrade.Standard.Reputation

/-- The states in which no payment has moved. -/
def prePayment : List State :=
  [.init, .takeOfferSent, .offerAccepted, .accountDataSent, .accountDataReceived]

/-- The states in which the payment is under way or done. -/
def postPayment : List State :=
  [.fiatSent, .fiatSentReceived, .fiatReceiptConfirmed, .btcSentReceived]

/-- The seller's half. -/
def sellerSettlement : List Declaration := [
  { states := [.offerAccepted]
    event := .command .sendAccountData
    transition :=
      { target := .accountDataSent
        guards := [.commandPayload]
        send := some ⟨.accountData, .command⟩
        arm := [.fiatPayment] } },
  { states := [.accountDataSent]
    event := .message .fiatSent
    transition := { target := .fiatSentReceived, clear := [.fiatPayment] } },
  { states := [.accountDataSent]
    event := .timeout .fiatPayment
    transition := { target := .failed } },
  { states := [.fiatSentReceived]
    event := .command .confirmFiatReceipt
    transition :=
      { target := .fiatReceiptConfirmed, send := some ⟨.fiatReceiptConfirmed, .empty⟩ } },
  -- the payload names the transaction that settles the trade
  { states := [.fiatReceiptConfirmed]
    event := .command .confirmBtcSent
    transition :=
      { target := .completed
        guards := [.commandPayload]
        send := some ⟨.btcSent, .command⟩ } }]

/-- The buyer's half. -/
def buyerSettlement : List Declaration := [
  { states := [.offerAccepted]
    event := .message .accountData
    transition := { target := .accountDataReceived, guards := [.messagePayload] } },
  { states := [.accountDataReceived]
    event := .command .confirmFiatSent
    transition :=
      { target := .fiatSent
        send := some ⟨.fiatSent, .command⟩
        arm := [.btcSettlement] } },
  { states := [.fiatSent]
    event := .message .fiatReceiptConfirmed
    transition := { target := .fiatReceiptConfirmed } },
  -- the confirmation of the receipt may be lost, so the settlement alone is enough
  { states := [.fiatSent, .fiatReceiptConfirmed]
    event := .message .btcSent
    transition :=
      { target := .btcSentReceived
        guards := [.messagePayload]
        clear := [.btcSettlement] } },
  { states := [.fiatSent, .fiatReceiptConfirmed]
    event := .timeout .btcSettlement
    transition := { target := .disputed } },
  { states := [.btcSentReceived]
    event := .command .confirmBtcReceipt
    transition := { target := .completed } }]

/-- The declarations for a role. -/
def declarations (role : Role) : List Declaration :=
  (if role.isMaker then makerHandshake .offerAccepted [] else takerHandshake .offerAccepted []) ++
    (if role.isBuyer then buyerSettlement else sellerSettlement) ++
    abortFrom prePayment ++ disputeFrom postPayment

/-- The table for a role. -/
def table (role : Role) : Protocol := tableOf role .reputationFiat (declarations role)

end PeerTrade.Standard.Reputation
