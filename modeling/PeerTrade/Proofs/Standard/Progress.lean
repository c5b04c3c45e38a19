import PeerTrade.Proofs.Engine.Milestones
import PeerTrade.Proofs.Standard.Tables

/-!
# How far a trade can come

No built-in table leads back: every entry takes a trade to a state of a higher rank. As the ranks
are few, a trade has few commits in its whole life, so that its sequence counts all of them without
ever wrapping around.
-/

namespace PeerTrade

/-! ## Ranks -/

/-- How far a trade has come in a state. -/
def State.rank : State → Nat
  | init => 0
  | takeOfferSent => 1
  | offerAccepted | awaitingDeposit => 2
  | accountDataSent | accountDataReceived | depositConfirmed => 3
  | fiatSent | fiatSentReceived => 4
  | fiatReceiptConfirmed => 5
  | btcSentReceived => 6
  | completed => 7
  | cancelled | failed | disputed => 8

theorem State.rank_le (s : State) : s.rank ≤ 8 := by cases s <;> decide

/-- Every entry leads to a state of a higher rank. -/
def Protocol.Ascends (p : Protocol) : Prop :=
  ∀ e ∈ p.table.entries, e.1.state.rank < e.2.target.rank

instance (p : Protocol) : Decidable p.Ascends :=
  inferInstanceAs (Decidable (∀ e ∈ p.table.entries, _))

theorem Standard.ascends_of_isTable {c : Combination} {p : Protocol} (h : IsTable c p) :
    p.Ascends := by
  cases h with
  | reputation role => cases role <;> decide
  | escrowSeller => decide
  | escrowBuyer => decide

/-! ## What a commit does to the rank -/

namespace Engine

variable {e : Engine} {now : Instant} {t t' : Trade} {event : Event} {c : Commit}

theorem rank_lt_of_committed (hascends : t.protocol.Ascends)
    (h : e.handle now t event = (t', .committed c)) : t.state.rank < t'.state.rank := by
  obtain ⟨tr, hc⟩ := exists_committed_of_handle h
  obtain ⟨deadlines, rfl⟩ := hc.after
  exact hascends _ (Dict.get?_eq_some_iff.1 hc.entry)

/-- There are no more commits than ranks between the first state and the last one. -/
theorem rank_add_length_history_le (e : Engine) (hascends : t.protocol.Ascends)
    (stream : Stream) :
    t.state.rank + (e.history t stream).length ≤ (e.run t stream).1.state.rank := by
  have hrun := run_induction (e := e) (t := t) (h := [])
    (P := fun t' h => t'.protocol = t.protocol ∧ t.state.rank + h.length ≤ t'.state.rank)
    ?_ ⟨rfl, Nat.le_refl _⟩ stream
  · exact hrun.2
  · rintro t₁ h now event t₂ c ⟨hprotocol, hle⟩ hcommit
    have hlt := rank_lt_of_committed (by rwa [hprotocol]) hcommit
    refine ⟨(sameDeal_of_committed hcommit).protocol.trans hprotocol, ?_⟩
    rw [List.length_append, List.length_singleton]
    omega

end Engine

/-! ## Sequences that never wrap around -/

/-- A trade has not committed more often than its rank says. -/
def Trade.Paced (t : Trade) : Prop := t.sequence.toNat ≤ t.state.rank

namespace Trade.Paced

variable {e : Engine} {now : Instant} {t t' : Trade} {event : Event} {c : Commit}

theorem toNat_succ (h : t.Paced) : (t.sequence + 1).toNat = t.sequence.toNat + 1 := by
  have hrank := t.state.rank_le
  rw [Paced] at h
  rw [UInt64.toNat_add]
  exact Nat.mod_eq_of_lt (by simp; omega)

theorem commit (h : t.Paced) (hascends : t.protocol.Ascends)
    (hcommit : e.handle now t event = (t', .committed c)) : t'.Paced := by
  have hlt := Engine.rank_lt_of_committed hascends hcommit
  have hsucc := h.toNat_succ
  obtain ⟨tr, hc⟩ := Engine.exists_committed_of_handle hcommit
  obtain ⟨deadlines, rfl⟩ := hc.after
  rw [Paced] at h
  show (t.sequence + 1).toNat ≤ _
  omega

end Trade.Paced

end PeerTrade
