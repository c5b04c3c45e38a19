import PeerTrade.Proofs.Engine.Milestones
import PeerTrade.Proofs.Standard.Tables
import PeerTrade.Proofs.Trade.Origin

/-!
# What a completed trade has gone through

Each built-in table has one route from the offer to the end, apart from giving up and disputes. The
route names every step of the settlement with what makes it count: own terms, authentic messages,
payloads and signatures. A trade that is completed has taken all of them in their order.
-/

namespace PeerTrade.Standard

/-! ## The routes of the built-in tables -/

/-- The agreement on the terms, as either side sees it. -/
def handshake (role : Role) : List Milestone :=
  if role.isMaker then [⟨.message .takeOfferRequest, [.ownTerms]⟩]
  else [⟨.command .takeOffer, []⟩, ⟨.message .takeOfferResponse, []⟩]

/-- The steps that settle a trade, from the first one on. -/
def settlementSteps : Combination → List Milestone
  | ⟨role, .multisigEscrow⟩ => handshake role ++
    if role.isBuyer then [
      ⟨.command .signDeposit, [.payload, .signature]⟩,
      ⟨.command .confirmFiatSent, []⟩,
      ⟨.message .fiatReceiptConfirmed, [.payload]⟩,
      ⟨.command .signPayout, [.payload, .signature]⟩]
    else [
      ⟨.message .depositTxSigned, [.verified]⟩,
      ⟨.message .fiatSent, []⟩,
      ⟨.command .confirmFiatReceipt, [.payload]⟩,
      ⟨.message .payoutSigned, [.verified]⟩]
  | ⟨role, .reputationFiat⟩ => handshake role ++
    if role.isBuyer then [
      ⟨.message .accountData, [.payload]⟩,
      ⟨.command .confirmFiatSent, []⟩,
      ⟨.message .btcSent, [.payload]⟩,
      ⟨.command .confirmBtcReceipt, []⟩]
    else [
      ⟨.command .sendAccountData, [.payload]⟩,
      ⟨.message .fiatSent, []⟩,
      ⟨.command .confirmFiatReceipt, []⟩,
      ⟨.command .confirmBtcSent, [.payload]⟩]

/-- How many steps of the settlement itself are done in a state. -/
def settled : Combination → State → Nat
  | ⟨role, .multisigEscrow⟩, state =>
    match role.isBuyer, state with
    | _, .depositConfirmed => 1
    | true, .fiatSent | false, .fiatSentReceived => 2
    | _, .fiatReceiptConfirmed => 3
    | _, .completed => 4
    | _, _ => 0
  | ⟨role, .reputationFiat⟩, state =>
    match role.isBuyer, state with
    | true, .accountDataReceived | false, .accountDataSent => 1
    -- the seller's word that the payment came is no step of the buyer's
    | true, .fiatSent | true, .fiatReceiptConfirmed | false, .fiatSentReceived => 2
    | true, .btcSentReceived | false, .fiatReceiptConfirmed => 3
    | _, .completed => 4
    | _, _ => 0

/-- The route of a combination. A trade that has ended otherwise has nothing to show for it. -/
def route (c : Combination) : Route where
  milestones := settlementSteps c
  stage
    | .init | .cancelled | .failed | .disputed => 0
    | .takeOfferSent => 1
    | state => (handshake c.role).length + settled c state

theorem fits_route {c : Combination} {p : Protocol} (h : IsTable c p) : (route c).Fits p := by
  cases h with
  | reputation role => cases role <;> decide
  | escrowSeller => decide
  | escrowBuyer => decide

theorem behind_completed (c : Combination) : (route c).behind .completed = settlementSteps c := by
  obtain ⟨role, settlement⟩ := c
  cases role <;> cases settlement <;> rfl

end PeerTrade.Standard

namespace PeerTrade.Engine

open Standard

/-- A trade under a built-in table is completed only after all the steps of its settlement. -/
theorem completed_after_settlement {created : Instant} {id : String} {combination : Combination}
    {terms : Terms} {counterparty : Peer} {t : Trade}
    (ht : Trade.create .standard created id combination terms counterparty = .ok t)
    (e : Engine) (stream : Stream) (hdone : (e.run t stream).1.state = .completed) :
    (settlementSteps combination).SublistForall₂ (Milestone.Met e.verifier t)
      ((e.history t stream).map (·.1)) := by
  obtain ⟨-, -, protocol, hprotocol, rfl⟩ := Trade.create_eq_ok_iff.1 ht
  have hfits := fits_route (isTable_of_lookup hprotocol)
  rw [← behind_completed, ← hdone]
  exact contains_run (t := .initial created id combination terms counterparty protocol) hfits rfl
    e stream

/-- A buyer's side of a trade under an escrow, with a message of a stranger among the others. -/
def settledPurchase : Stream :=
  let message := fun (sender : String) (sequence : UInt64) (kind : MessageKind) =>
    Event.inbound ⟨"trade_1", sequence, ⟨sender⟩, kind, [1], []⟩
  [(.epoch, .command ⟨"take", .takeOffer, [], []⟩),
    (.epoch, message "maker" 1 .takeOfferResponse),
    (.epoch, .command ⟨"deposit", .signDeposit, [1], [1]⟩),
    (.epoch, .command ⟨"paid", .confirmFiatSent, [], []⟩),
    (.epoch, message "stranger" 2 .fiatReceiptConfirmed),
    (.epoch, message "maker" 2 .fiatReceiptConfirmed),
    (.epoch, .command ⟨"payout", .signPayout, [1], [1]⟩)]

theorem settledPurchase_goes_through_all_steps :
    ∃ t, ∃ e : Engine, (e.run t settledPurchase).1.state = .completed ∧
      (settlementSteps ⟨.buyerAsTaker, .multisigEscrow⟩).SublistForall₂ (Milestone.Met e.verifier t)
        ((e.history t settledPurchase).map (·.1)) := by
  let t : Trade := .initial .epoch "trade_1" ⟨.buyerAsTaker, .multisigEscrow⟩ Trade.soundTerms
    ⟨"maker"⟩ Escrow.buyerAsTaker
  let e : Engine := { registry := .standard, verifier := Commitment.verifier }
  have ht : Trade.create .standard .epoch "trade_1" ⟨.buyerAsTaker, .multisigEscrow⟩
      Trade.soundTerms ⟨"maker"⟩ = .ok t :=
    Trade.create_soundTerms rfl Registry.lookup_multisigEscrow_buyerAsTaker
  have hdone : (e.run t settledPurchase).1.state = .completed := by
    set_option maxRecDepth 4000 in decide
  exact ⟨t, e, hdone, completed_after_settlement ht e settledPurchase hdone⟩

end PeerTrade.Engine
