import PeerTrade.Protocol.Standard.Building

/-!
# Trades secured by an escrow

Both sides lock funds in a deposit that both of them sign. After the payment the seller confirms
the receipt, and the buyer finishes the payout. There is a table for a selling maker and one for a
buying taker; the other two roles have none.
-/

namespace PeerTrade.Standard.Escrow

/-- The roles without a table. -/
def unimplementedRoles : List Role := [.buyerAsMaker, .sellerAsTaker]

/-- The states in which no funds are locked. -/
def abortable : List State := [.init, .takeOfferSent, .awaitingDeposit]

/-- The states in which funds are locked. -/
def disputable : List State :=
  [.depositConfirmed, .fiatSent, .fiatSentReceived, .fiatReceiptConfirmed]

/-- What a selling maker declares. -/
def sellerDeclarations : List Declaration :=
  makerHandshake .awaitingDeposit [.deposit] ++ [
  { states := [.awaitingDeposit]
    event := .message .depositTxSigned
    transition :=
      { target := .depositConfirmed
        guards := [.signature]
        arm := [.fiatPayment]
        clear := [.deposit] } },
  { states := [.awaitingDeposit]
    event := .timeout .deposit
    transition := { target := .failed } },
  { states := [.depositConfirmed]
    event := .message .fiatSent
    transition := { target := .fiatSentReceived, clear := [.fiatPayment] } },
  -- the funds are locked by now, so a silent buyer means a dispute
  { states := [.depositConfirmed]
    event := .timeout .fiatPayment
    transition := { target := .disputed } },
  -- the payload is the seller's part of the payout's signature
  { states := [.fiatSentReceived]
    event := .command .confirmFiatReceipt
    transition :=
      { target := .fiatReceiptConfirmed
        guards := [.commandPayload]
        send := some ⟨.fiatReceiptConfirmed, .command⟩
        arm := [.payout] } },
  -- declared wherever it could arrive, so that the guards report one that comes too early
  { states := [.awaitingDeposit, .depositConfirmed, .fiatSentReceived, .fiatReceiptConfirmed]
    event := .message .payoutSigned
    transition :=
      { target := .completed
        guards := [.depositConfirmed, .fiatReceiptConfirmed, .signature]
        clear := [.payout] } },
  { states := [.fiatReceiptConfirmed]
    event := .timeout .payout
    transition := { target := .disputed } }] ++
  abortFrom abortable ++ disputeFrom disputable

/-- What a buying taker declares. -/
def buyerDeclarations : List Declaration :=
  takerHandshake .awaitingDeposit [.deposit] ++ [
  { states := [.awaitingDeposit]
    event := .command .signDeposit
    transition :=
      { target := .depositConfirmed
        guards := [.commandPayload, .commandSigned]
        send := some ⟨.depositTxSigned, .command⟩
        clear := [.deposit] } },
  { states := [.awaitingDeposit]
    event := .timeout .deposit
    transition := { target := .failed } },
  { states := [.depositConfirmed]
    event := .command .confirmFiatSent
    transition :=
      { target := .fiatSent
        send := some ⟨.fiatSent, .command⟩
        arm := [.payout] } },
  { states := [.fiatSent]
    event := .message .fiatReceiptConfirmed
    transition :=
      { target := .fiatReceiptConfirmed
        guards := [.messagePayload]
        clear := [.payout] } },
  { states := [.fiatSent]
    event := .timeout .payout
    transition := { target := .disputed } },
  { states := [.fiatReceiptConfirmed]
    event := .command .signPayout
    transition :=
      { target := .completed
        guards := [.commandPayload, .commandSigned]
        send := some ⟨.payoutSigned, .command⟩ } }] ++
  abortFrom abortable ++ disputeFrom disputable

/-- The table of a selling maker. -/
def sellerAsMaker : Protocol := tableOf .sellerAsMaker .multisigEscrow sellerDeclarations

/-- The table of a buying taker. -/
def buyerAsTaker : Protocol := tableOf .buyerAsTaker .multisigEscrow buyerDeclarations

end PeerTrade.Standard.Escrow
