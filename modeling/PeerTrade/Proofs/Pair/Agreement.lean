import PeerTrade.Proofs.Pair.Basic
import PeerTrade.Proofs.Protocol.Draft
import PeerTrade.Proofs.Standard.Tables
import PeerTrade.Proofs.Trade.Origin

/-!
# Agreement on the end of a trade

However commands, deadlines and messages fall, one side never ends with a completed trade while the
other one ends with a cancelled or failed one. Each half of the argument is a pair of facts about
the built-in tables, checked entry by entry: what one side's states require to have been received,
and where having sent that leaves the other side.
-/

namespace PeerTrade

open Standard

/-! ## The built-in tables -/

namespace Standard.Reputation

theorem enveloped_table (role : Role) : (table role).Enveloped := Draft.enveloped_build _ _

/-- A buyer gets to the end only through the seller's word that the payment was released. -/
theorem requires_btcSent {role : Role} (hrole : role.isBuyer = true) :
    (table role).Requires [.btcSentReceived, .completed] .btcSent := by
  cases role with
  | buyerAsMaker => decide
  | buyerAsTaker => decide
  | sellerAsMaker => cases hrole
  | sellerAsTaker => cases hrole

/-- A seller who released the payment is done. -/
theorem follows_btcSent (role : Role) : (table role).Follows .btcSent [.completed] := by
  cases role <;> decide

/-- A seller confirms and releases only after the buyer's word that the payment is under way. -/
theorem requires_fiatSent {role : Role} (hrole : role.isBuyer = false) :
    (table role).Requires [.fiatSentReceived, .fiatReceiptConfirmed, .completed] .fiatSent := by
  cases role with
  | buyerAsMaker => cases hrole
  | buyerAsTaker => cases hrole
  | sellerAsMaker => decide
  | sellerAsTaker => decide

/-- A buyer who paid can only go on or dispute. -/
theorem follows_fiatSent (role : Role) : (table role).Follows .fiatSent
    [.fiatSent, .fiatReceiptConfirmed, .btcSentReceived, .completed, .disputed] := by
  cases role <;> decide

end Standard.Reputation

namespace Standard.Escrow

theorem enveloped_sellerAsMaker : sellerAsMaker.Enveloped := Draft.enveloped_build _ _

theorem enveloped_buyerAsTaker : buyerAsTaker.Enveloped := Draft.enveloped_build _ _

/-- A seller completes only with the payout that the buyer signed. -/
theorem requires_payoutSigned : sellerAsMaker.Requires [.completed] .payoutSigned := by
  decide

/-- A buyer who signed the payout is done. -/
theorem follows_payoutSigned : buyerAsTaker.Follows .payoutSigned [.completed] := by
  decide

/-- A buyer signs the payout only after the seller confirmed the receipt. -/
theorem requires_fiatReceiptConfirmed :
    buyerAsTaker.Requires [.fiatReceiptConfirmed, .completed] .fiatReceiptConfirmed := by
  decide

/-- A seller who confirmed the receipt can only complete or dispute. -/
theorem follows_fiatReceiptConfirmed :
    sellerAsMaker.Follows .fiatReceiptConfirmed [.fiatReceiptConfirmed, .completed, .disputed] := by
  decide

end Standard.Escrow

/-! ## Agreement -/

/-- How the states of buyer and seller go together. -/
structure Agreement (settlement : Settlement) (buyer seller : State) : Prop where
  /-- No side is done with a trade that the other side has given up. -/
  buyerDone : buyer = .completed → seller ≠ .cancelled ∧ seller ≠ .failed
  sellerDone : seller = .completed → buyer ≠ .cancelled ∧ buyer ≠ .failed
  reputation : settlement = .reputationFiat →
    (buyer ∈ [.btcSentReceived, .completed] → seller = .completed) ∧
    (seller ∈ [.fiatSentReceived, .fiatReceiptConfirmed, .completed] →
      buyer ∈ [.fiatSent, .fiatReceiptConfirmed, .btcSentReceived, .completed, .disputed])
  escrow : settlement = .multisigEscrow →
    (seller = .completed → buyer = .completed) ∧
    (buyer ∈ [.fiatReceiptConfirmed, .completed] →
      seller ∈ [.fiatReceiptConfirmed, .completed, .disputed])

theorem agreement_reputationFiat {buyer seller : State}
    (hbuyer : buyer ∈ [.btcSentReceived, .completed] → seller ∈ [State.completed])
    (hseller : seller ∈ [.fiatSentReceived, .fiatReceiptConfirmed, .completed] →
      buyer ∈ [.fiatSent, .fiatReceiptConfirmed, .btcSentReceived, .completed, .disputed]) :
    Agreement .reputationFiat buyer seller where
  buyerDone h := by
    have hdone : seller = .completed := List.mem_singleton.1 (hbuyer (by simp [h]))
    simp [hdone]
  sellerDone h := by
    -- a buyer who paid has neither cancelled nor failed
    have hpaid := hseller (by simp [h])
    constructor <;> rintro rfl <;> simp at hpaid
  reputation _ := ⟨fun h => List.mem_singleton.1 (hbuyer h), hseller⟩
  escrow h := by cases h

theorem agreement_multisigEscrow {buyer seller : State}
    (hseller : seller ∈ [State.completed] → buyer ∈ [State.completed])
    (hbuyer : buyer ∈ [.fiatReceiptConfirmed, .completed] →
      seller ∈ [.fiatReceiptConfirmed, .completed, .disputed]) :
    Agreement .multisigEscrow buyer seller where
  buyerDone h := by
    -- a seller who confirmed the receipt has neither cancelled nor failed
    have hconfirmed := hbuyer (by simp [h])
    constructor <;> rintro rfl <;> simp at hconfirmed
  sellerDone h := by
    have hdone : buyer = .completed := List.mem_singleton.1 (hseller (by simp [h]))
    simp [hdone]
  reputation h := by cases h
  escrow _ := ⟨fun h => List.mem_singleton.1 (hseller (by simp [h])), hbuyer⟩

namespace Pair

variable {buyer seller : Engine} {p : Pair}

theorem Sound.agreement_reputationFiat {role role' : Role} (hrole : role.isBuyer = true)
    (hrole' : role'.isBuyer = false)
    (h : Sound (Reputation.table role) (Reputation.table role') p) :
    Agreement .reputationFiat p.buyer.trade.state p.seller.trade.state :=
  PeerTrade.agreement_reputationFiat
    (h.seller_mem (Reputation.requires_btcSent hrole) (Reputation.follows_btcSent role'))
    (h.buyer_mem (Reputation.requires_fiatSent hrole') (Reputation.follows_fiatSent role))

theorem Sound.agreement_multisigEscrow
    (h : Sound Escrow.buyerAsTaker Escrow.sellerAsMaker p) :
    Agreement .multisigEscrow p.buyer.trade.state p.seller.trade.state :=
  PeerTrade.agreement_multisigEscrow
    (h.buyer_mem Escrow.requires_payoutSigned Escrow.follows_payoutSigned)
    (h.seller_mem Escrow.requires_fiatReceiptConfirmed Escrow.follows_fiatReceiptConfirmed)

theorem sound_new {t u : Trade} (ht : t.state = t.protocol.initial)
    (hu : u.state = u.protocol.initial) :
    Sound t.protocol u.protocol { buyer := { trade := t }, seller := { trade := u } } where
  buyer := Side.follows_new ht
  seller := Side.follows_new hu
  toBuyer k hk := by cases hk
  toSeller k hk := by cases hk

/-- The two sides of a trade agree on its end, whichever of them made the offer. -/
theorem completion_agreement {id : String} {role : Role} {settlement : Settlement}
    (hrole : role.isBuyer = true) {buyerCreated sellerCreated : Instant}
    {buyerTerms sellerTerms : Terms} {buyerPeer sellerPeer : Peer} {t u : Trade}
    (ht : Trade.create .standard buyerCreated id ⟨role, settlement⟩ buyerTerms sellerPeer = .ok t)
    (hu : Trade.create .standard sellerCreated id ⟨role.counterpart, settlement⟩ sellerTerms
      buyerPeer = .ok u)
    (hp : Reachable buyer seller { buyer := { trade := t }, seller := { trade := u } } p) :
    Agreement settlement p.buyer.trade.state p.seller.trade.state := by
  -- each side has the table that the registry holds for its role
  obtain ⟨-, -, buyerTable, hbuyerTable, rfl⟩ := Trade.create_eq_ok_iff.1 ht
  obtain ⟨-, -, sellerTable, hsellerTable, rfl⟩ := Trade.create_eq_ok_iff.1 hu
  have hstart := sound_new (t := .initial buyerCreated id ⟨role, settlement⟩ buyerTerms sellerPeer
    buyerTable) (u := .initial sellerCreated id ⟨role.counterpart, settlement⟩ sellerTerms
    buyerPeer sellerTable) rfl rfl
  cases settlement with
  | reputationFiat =>
    rw [Registry.lookup_reputationFiat] at hbuyerTable hsellerTable
    cases hbuyerTable
    cases hsellerTable
    have hsound := hp.sound hstart (Reputation.enveloped_table _) (Reputation.enveloped_table _)
    exact hsound.agreement_reputationFiat hrole (by rw [Role.isBuyer_counterpart, hrole]; rfl)
  | multisigEscrow =>
    cases role with
    | buyerAsTaker =>
      rw [Registry.lookup_multisigEscrow_buyerAsTaker] at hbuyerTable
      rw [Role.counterpart, Registry.lookup_multisigEscrow_sellerAsMaker] at hsellerTable
      cases hbuyerTable
      cases hsellerTable
      have hsound := hp.sound hstart Escrow.enveloped_buyerAsTaker Escrow.enveloped_sellerAsMaker
      exact hsound.agreement_multisigEscrow
    | buyerAsMaker =>
      -- without a table the buyer's trade was never created
      rw [Registry.lookup_multisigEscrow_buyerAsMaker] at hbuyerTable
      cases hbuyerTable
    | sellerAsMaker => cases hrole
    | sellerAsTaker => cases hrole

/-! ## A trade that is completed on both sides -/

/-- What one of the sides does next in an orderly trade. -/
inductive Move where
  | buyer (c : Command)
  | seller (c : Command)
  /-- The last message of the other side arrives. -/
  | toBuyer
  | toSeller

/-- Carries moves out under one engine. -/
def play (e : Engine) (p : Pair) : List Move → Pair
  | [] => p
  | .buyer c :: rest => play e { p with buyer := p.buyer.handle e .epoch (.command c) } rest
  | .seller c :: rest => play e { p with seller := p.seller.handle e .epoch (.command c) } rest
  | .toBuyer :: rest =>
    match p.seller.history.sent.getLast? with
    | some o =>
      let m := o.toInbound p.buyer.trade.counterparty
      play e { p with buyer := p.buyer.handle e .epoch (.inbound m) } rest
    | none => play e p rest
  | .toSeller :: rest =>
    match p.buyer.history.sent.getLast? with
    | some o =>
      let m := o.toInbound p.seller.trade.counterparty
      play e { p with seller := p.seller.handle e .epoch (.inbound m) } rest
    | none => play e p rest

theorem reachable_play {e : Engine} {start p : Pair} (h : Reachable e e start p)
    (moves : List Move) : Reachable e e start (p.play e moves) := by
  induction moves generalizing p with
  | nil => exact h
  | cons move rest ih =>
    cases move with
    | buyer c => exact ih (h.step (.buyer .epoch (.command c) trivial))
    | seller c => exact ih (h.step (.seller .epoch (.command c) trivial))
    | toBuyer =>
      -- what arrives is one of the messages that were sent
      rw [play]
      split
      next o ho =>
        refine ih (h.step (.buyer .epoch _ fun _ _ => ⟨o, ?_, rfl⟩))
        exact List.mem_of_getLast? ho
      next => exact ih h
    | toSeller =>
      rw [play]
      split
      next o ho =>
        refine ih (h.step (.seller .epoch _ fun _ _ => ⟨o, ?_, rfl⟩))
        exact List.mem_of_getLast? ho
      next => exact ih h

/-- A trade under an escrow, from the offer that is taken to the payout that is signed. -/
def orderlyTrade : List Move := [
  .buyer ⟨"take", .takeOffer, [], []⟩, .toSeller, .toBuyer,
  .buyer ⟨"deposit", .signDeposit, [1], [1]⟩, .toSeller,
  .buyer ⟨"paid", .confirmFiatSent, [], []⟩, .toSeller,
  .seller ⟨"received", .confirmFiatReceipt, [1], []⟩, .toBuyer,
  .buyer ⟨"payout", .signPayout, [1], [1]⟩, .toSeller]

theorem orderlyTrade_agreement :
    ∃ t u, ∃ e : Engine, ∃ p,
      Reachable e e { buyer := { trade := t }, seller := { trade := u } } p ∧
      p.buyer.trade.state = .completed ∧
      Agreement .multisigEscrow p.buyer.trade.state p.seller.trade.state := by
  let t : Trade := .initial .epoch "trade_1" ⟨.buyerAsTaker, .multisigEscrow⟩ Trade.soundTerms
    ⟨"seller"⟩ Escrow.buyerAsTaker
  let u : Trade := .initial .epoch "trade_1" ⟨.sellerAsMaker, .multisigEscrow⟩ Trade.soundTerms
    ⟨"buyer"⟩ Escrow.sellerAsMaker
  let e : Engine := { registry := .standard, verifier := { accepts := fun _ _ _ => true } }
  have ht : Trade.create .standard .epoch "trade_1" ⟨.buyerAsTaker, .multisigEscrow⟩
      Trade.soundTerms ⟨"seller"⟩ = .ok t :=
    Trade.create_soundTerms rfl Registry.lookup_multisigEscrow_buyerAsTaker
  have hu : Trade.create .standard .epoch "trade_1" ⟨.sellerAsMaker, .multisigEscrow⟩
      Trade.soundTerms ⟨"buyer"⟩ = .ok u :=
    Trade.create_soundTerms rfl Registry.lookup_multisigEscrow_sellerAsMaker
  let start : Pair := { buyer := { trade := t }, seller := { trade := u } }
  have hp : Reachable e e start (start.play e orderlyTrade) := reachable_play .start orderlyTrade
  have hdone : (start.play e orderlyTrade).buyer.trade.state = .completed := by
    set_option maxRecDepth 4000 in decide
  exact ⟨t, u, e, _, hp, hdone, completion_agreement rfl ht hu hp⟩

end Pair

end PeerTrade
