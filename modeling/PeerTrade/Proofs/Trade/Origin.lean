import PeerTrade.Proofs.Checks
import PeerTrade.Trade.Basic

/-!
# Where trades come from

A trade is created under the table of its combination, or restored from a snapshot that carries
the fingerprint of that table. Either succeeds under conditions that can be read off its inputs,
and leaves nothing of the trade open.
-/

namespace PeerTrade.Trade

open Checks

variable {registry : Registry} {t : Trade}

theorem create_eq_ok_iff {now : Instant} {id : String} {combination : Combination}
    {terms : Terms} {counterparty : Peer} :
    create registry now id combination terms counterparty = .ok t ↔
      id.isEmpty = false ∧ terms.verify = .ok () ∧
        ∃ protocol, registry.lookup combination = .ok protocol ∧
          initial now id combination terms counterparty protocol = t := by
  unfold create
  cases hid : id.isEmpty with
  | true => simp
  | false =>
    simp only [Bool.false_eq_true, if_false, bind_eq_ok_iff, pure_eq_ok_iff,
      mapError_eq_ok_iff, true_and]
    constructor
    · rintro ⟨protocol, hlookup, _, hverify, ht⟩
      exact ⟨hverify, protocol, hlookup, ht⟩
    · rintro ⟨hverify, protocol, hlookup, ht⟩
      exact ⟨protocol, hlookup, (), hverify, ht⟩

/-- A new trade is in the initial state of the table that the registry holds for its combination. -/
theorem lookup_of_create {now : Instant} {id : String} {combination : Combination}
    {terms : Terms} {counterparty : Peer}
    (h : create registry now id combination terms counterparty = .ok t) :
    registry.lookup combination = .ok t.protocol ∧ t.state = t.protocol.initial := by
  obtain ⟨-, -, protocol, hlookup, rfl⟩ := create_eq_ok_iff.1 h
  exact ⟨hlookup, rfl⟩

theorem restore_eq_ok_iff {s : Snapshot} :
    restore registry s = .ok t ↔
      s.tradeId.isEmpty = false ∧ s.terms.verify = .ok () ∧
        ∃ protocol, registry.lookup ⟨s.role, s.settlement⟩ = .ok protocol ∧
          protocol.fingerprint = s.fingerprint ∧ ofSnapshot s protocol = t := by
  unfold restore
  cases hid : s.tradeId.isEmpty with
  | true => simp
  | false =>
    simp only [Bool.false_eq_true, if_false, bind_eq_ok_iff, true_and]
    constructor
    · rintro ⟨protocol, hlookup, h⟩
      by_cases hfingerprint : protocol.fingerprint = s.fingerprint
      · simp only [hfingerprint, ne_eq, not_true_eq_false, if_false, bind_eq_ok_iff,
          mapError_eq_ok_iff, pure_eq_ok_iff] at h
        obtain ⟨_, hverify, ht⟩ := h
        exact ⟨hverify, protocol, hlookup, hfingerprint, ht⟩
      · simp [hfingerprint] at h
    · rintro ⟨hverify, protocol, hlookup, hfingerprint, ht⟩
      refine ⟨protocol, hlookup, ?_⟩
      simp only [hfingerprint, ne_eq, not_true_eq_false, if_false, bind_eq_ok_iff,
        mapError_eq_ok_iff, pure_eq_ok_iff]
      exact ⟨(), hverify, ht⟩

/-- A trade that a registry let begin, or let go on. -/
inductive Origin (registry : Registry) : Trade → Prop where
  | created {now : Instant} {id : String} {combination : Combination} {terms : Terms}
      {counterparty : Peer} {t : Trade} :
      create registry now id combination terms counterparty = .ok t → Origin registry t
  | restored {s : Snapshot} {t : Trade} : restore registry s = .ok t → Origin registry t

/-! ## Sound terms -/

/-- Terms with every part set: some bitcoin for euros at the market's price. -/
def soundTerms : Terms where
  base := some "BTC"
  quote := some "EUR"
  amount := some (.baseFixed 100000)
  price := some .market
  method := some ⟨.sepa, "EUR", none⟩

theorem verify_soundTerms : soundTerms.verify = .ok () := by rfl

/-- Sound terms and an id give a trade under every table that the registry holds. -/
theorem create_soundTerms {now : Instant} {id : String} {combination : Combination}
    {counterparty : Peer} {protocol : Protocol} (hid : id.isEmpty = false)
    (hlookup : registry.lookup combination = .ok protocol) :
    create registry now id combination soundTerms counterparty =
      .ok (initial now id combination soundTerms counterparty protocol) :=
  create_eq_ok_iff.2 ⟨hid, verify_soundTerms, protocol, hlookup, rfl⟩

end PeerTrade.Trade
