import PeerTrade.Registry

/-!
# The registry of the built-in tables

There is a table for every role in trades secured by reputation, and one for each of two roles in
trades secured by an escrow; the registry holds these and no others.
-/

namespace PeerTrade

open Standard

theorem Registry.lookup_reputationFiat (role : Role) :
    standard.lookup ⟨role, .reputationFiat⟩ = .ok (Reputation.table role) := by
  cases role <;> rfl

theorem Registry.lookup_multisigEscrow_sellerAsMaker :
    standard.lookup ⟨.sellerAsMaker, .multisigEscrow⟩ = .ok Escrow.sellerAsMaker := by rfl

theorem Registry.lookup_multisigEscrow_buyerAsTaker :
    standard.lookup ⟨.buyerAsTaker, .multisigEscrow⟩ = .ok Escrow.buyerAsTaker := by rfl

/-- There is no table for a buying maker. -/
theorem Registry.lookup_multisigEscrow_buyerAsMaker :
    standard.lookup ⟨.buyerAsMaker, .multisigEscrow⟩ =
      .error (.unsupportedCombination ⟨.buyerAsMaker, .multisigEscrow⟩) := by rfl

/-- There is no table for a selling taker. -/
theorem Registry.lookup_multisigEscrow_sellerAsTaker :
    standard.lookup ⟨.sellerAsTaker, .multisigEscrow⟩ =
      .error (.unsupportedCombination ⟨.sellerAsTaker, .multisigEscrow⟩) := by rfl

namespace Standard

/-- The tables that trades can be created under. -/
inductive IsTable : Combination → Protocol → Prop where
  | reputation (role : Role) : IsTable ⟨role, .reputationFiat⟩ (Reputation.table role)
  | escrowSeller : IsTable ⟨.sellerAsMaker, .multisigEscrow⟩ Escrow.sellerAsMaker
  | escrowBuyer : IsTable ⟨.buyerAsTaker, .multisigEscrow⟩ Escrow.buyerAsTaker

theorem isTable_of_lookup {combination : Combination} {protocol : Protocol}
    (h : Registry.standard.lookup combination = .ok protocol) : IsTable combination protocol := by
  obtain ⟨role, settlement⟩ := combination
  cases settlement with
  | reputationFiat =>
    rw [Registry.lookup_reputationFiat] at h
    cases h
    exact .reputation role
  | multisigEscrow =>
    cases role with
    | buyerAsMaker =>
      rw [Registry.lookup_multisigEscrow_buyerAsMaker] at h
      cases h
    | buyerAsTaker =>
      rw [Registry.lookup_multisigEscrow_buyerAsTaker] at h
      cases h
      exact .escrowBuyer
    | sellerAsMaker =>
      rw [Registry.lookup_multisigEscrow_sellerAsMaker] at h
      cases h
      exact .escrowSeller
    | sellerAsTaker =>
      rw [Registry.lookup_multisigEscrow_sellerAsTaker] at h
      cases h

end Standard

end PeerTrade
