import PeerTrade.Proofs.Engine.Coherence
import PeerTrade.Proofs.Standard.Tables

/-!
# Payments under the built-in tables

In every trade one event is the payment: the buyer makes it, and the seller hears of it. The built-in
tables keep the states behind it apart from those in front of it, and nothing but the payment itself
leads from these to those (`Protocol.Settles`). The state of a trade therefore tells whether the payment
is in its history (`Engine.afterPayment_run_iff`), and the payment tells how the trade can end
(`Engine.payment_decides_ending`).
-/

namespace PeerTrade

open Standard

/-! ## The payment -/

namespace Settlement

/-- The command by which a buyer makes the payment. -/
def paymentStep : Settlement → CommandKind
  | reputationFiat => .confirmFiatSent
  | multisigEscrow => .signDeposit

/-- The message that tells the seller about it. -/
def paymentMessage : Settlement → MessageKind
  | reputationFiat => .fiatSent
  | multisigEscrow => .depositTxSigned

end Settlement

/-- The event that is the payment on the side of a role. -/
def Combination.payment (c : Combination) : EventKind :=
  if c.role.isBuyer then .command c.settlement.paymentStep else .message c.settlement.paymentMessage

namespace State

/-- The ends of a trade in which a payment has been made. -/
def settled : List State := [.completed, .disputed]

/-- The ends of a trade in which no payment has been made. -/
def abandoned : List State := [.cancelled, .failed]

/-- The states that only a trade with a payment can be in. -/
def AfterPayment (s : State) : Prop := s ∈ Reputation.postPayment ++ Escrow.disputable ++ settled

instance : DecidablePred AfterPayment := fun s =>
  inferInstanceAs (Decidable (s ∈ Reputation.postPayment ++ Escrow.disputable ++ settled))

theorem afterPayment_of_mem_settled {s : State} (h : s ∈ settled) : s.AfterPayment :=
  List.mem_append_right _ h

theorem AfterPayment.not_mem_abandoned {s : State} (h : s.AfterPayment) : s ∉ abandoned := by
  revert h
  cases s <;> decide

end State

/-! ## Histories -/

namespace History

/-- Events of a kind have been committed. -/
def Has (kind : EventKind) (h : History) : Prop := ∃ step ∈ h, step.1.kind = kind

instance (kind : EventKind) (h : History) : Decidable (h.Has kind) :=
  inferInstanceAs (Decidable (∃ step ∈ h, _))

theorem has_append_iff {kind : EventKind} {h h' : History} :
    Has kind (h ++ h') ↔ h.Has kind ∨ h'.Has kind := by
  simp only [Has, List.mem_append, or_and_right, exists_or]

theorem has_concat_iff {kind : EventKind} {h : History} {step : Event × Commit} :
    Has kind (h ++ [step]) ↔ h.Has kind ∨ step.1.kind = kind := by
  rw [has_append_iff]
  exact or_congr_right (by simp [Has])

end History

/-! ## Tables -/

namespace Protocol

/-- Every entry that any event can pass leads behind the payment exactly if it starts from there or is
the payment. -/
def Settles (p : Protocol) (payment : EventKind) : Prop :=
  ¬p.initial.AfterPayment ∧ ∀ e ∈ p.table.entries, (∃ g ∈ e.2.guards, g.Bars e.1.state) ∨
    (e.2.target.AfterPayment ↔ e.1.state.AfterPayment ∨ e.1.event = payment)

instance (p : Protocol) (payment : EventKind) : Decidable (p.Settles payment) :=
  inferInstanceAs (Decidable (_ ∧ ∀ e ∈ p.table.entries, _))

/-- A trade can begin, and wherever it ends it is settled or abandoned. -/
def Concludes (p : Protocol) : Prop :=
  p.isTerminal p.initial = false ∧ ∀ e ∈ p.table.entries, p.isTerminal e.2.target = true →
    e.2.target ∈ State.settled ++ State.abandoned

instance (p : Protocol) : Decidable p.Concludes :=
  inferInstanceAs (Decidable (_ ∧ ∀ e ∈ p.table.entries, _))

end Protocol

namespace Standard

variable {c : Combination} {p : Protocol}

theorem settles_of_isTable (h : IsTable c p) : p.Settles c.payment := by
  cases h with
  | reputation role => cases role <;> decide
  | escrowSeller => decide
  | escrowBuyer => decide

theorem concludes_of_isTable (h : IsTable c p) : p.Concludes := by
  cases h with
  | reputation role => cases role <;> decide
  | escrowSeller => decide
  | escrowBuyer => decide

end Standard

/-! ## Trades -/

namespace Engine

variable {e : Engine} {t t' : Trade} {now : Instant} {event : Event} {c : Commit}
  {payment : EventKind}

/-- A commit leads behind the payment exactly if the trade was there, or the event is the payment. -/
theorem afterPayment_iff_of_committed (hsettles : t.protocol.Settles payment)
    (h : e.handle now t event = (t', .committed c)) :
    t'.state.AfterPayment ↔ t.state.AfterPayment ∨ event.kind = payment := by
  obtain ⟨tr, hc⟩ := exists_committed_of_handle h
  obtain ⟨deadlines, rfl⟩ := hc.after
  rcases hsettles.2 _ (Dict.get?_eq_some_iff.1 hc.entry) with ⟨g, hg, hbars⟩ | hside
  · -- a guard of the entry would have refused every event
    exact absurd hbars (Guard.not_bars_of_check (checkGuards_eq_ok_iff.1 hc.guards g hg))
  · exact hside

/-- The state of a trade tells whether the payment is in its history. -/
theorem afterPayment_run_iff (hsettles : t.protocol.Settles payment)
    (hstate : t.state = t.protocol.initial) (e : Engine) (stream : Stream) :
    (e.run t stream).1.state.AfterPayment ↔ (e.history t stream).Has payment := by
  refine run_induction_deal (P := fun t' h => t'.state.AfterPayment ↔ h.Has payment) ?_ ?_ stream
  · intro u h now event u' c hdeal hiff hcommit
    rw [afterPayment_iff_of_committed (by rwa [hdeal.protocol]) hcommit, hiff,
      History.has_concat_iff]
  · -- nothing has been paid when the trade begins
    rw [hstate]
    exact iff_of_false hsettles.1 fun ⟨_, hstep, _⟩ => List.not_mem_nil hstep

/-- A trade that has ended is in one of the states that its table ends in. -/
theorem mem_of_finalized {registry : Registry} {created : Instant} {id : String}
    {combination : Combination} {terms : Terms} {counterparty : Peer}
    (hcreate : Trade.create registry created id combination terms counterparty = .ok t)
    (hconcludes : t.protocol.Concludes) (e : Engine) (stream : Stream)
    (hfinalized : (e.run t stream).1.finalized = true) :
    (e.run t stream).1.state ∈ State.settled ++ State.abandoned := by
  have htraced := traced_run hcreate hconcludes.1 e stream
  have hprotocol := (sameDeal_run e t stream).protocol
  have hterminal : t.protocol.isTerminal (e.run t stream).1.state = true := by
    rw [← hprotocol, ← htraced.finalized, hfinalized]
  have hreached := htraced.continues.reached_eq
  rw [← htraced.state, hprotocol] at hreached
  rcases hreached with hinitial | ⟨entry, hentry, htarget⟩
  · -- there is a way out of the initial state
    rw [hinitial, hconcludes.1] at hterminal
    cases hterminal
  · rw [← htarget] at hterminal ⊢
    exact hconcludes.2 entry hentry hterminal

/-- Once the payment is made, or has been heard of, a trade under a built-in table is never cancelled
and never fails: it ends only by being completed or disputed. Before that it is neither completed nor
disputed, and ends only by being cancelled or by failing. -/
theorem payment_decides_ending {created : Instant} {id : String} {combination : Combination}
    {terms : Terms} {counterparty : Peer}
    (hcreate : Trade.create .standard created id combination terms counterparty = .ok t)
    (e : Engine) (stream : Stream) :
    ((e.history t stream).Has combination.payment → ∀ more,
      (e.run t (stream ++ more)).1.state ∉ State.abandoned ∧
        ((e.run t (stream ++ more)).1.finalized = true →
          (e.run t (stream ++ more)).1.state ∈ State.settled)) ∧
    (¬(e.history t stream).Has combination.payment →
      (e.run t stream).1.state ∉ State.settled ∧
        ((e.run t stream).1.finalized = true → (e.run t stream).1.state ∈ State.abandoned)) := by
  obtain ⟨hlookup, hinitial⟩ := Trade.lookup_of_create hcreate
  have htable := isTable_of_lookup hlookup
  have hside := afterPayment_run_iff (settles_of_isTable htable) hinitial e
  have hends := mem_of_finalized hcreate (concludes_of_isTable htable) e
  refine ⟨fun hpaid more => ?_, fun hunpaid => ?_⟩
  · -- what has been paid remains in the history
    have hstays : (e.history t (stream ++ more)).Has combination.payment := by
      rw [history_append, History.has_append_iff]
      exact .inl hpaid
    have hopen := ((hside _).2 hstays).not_mem_abandoned
    exact ⟨hopen, fun hfinalized => (List.mem_append.1 (hends _ hfinalized)).resolve_right hopen⟩
  · have hopen : (e.run t stream).1.state ∉ State.settled := fun hsettled =>
      hunpaid ((hside _).1 (State.afterPayment_of_mem_settled hsettled))
    exact ⟨hopen, fun hfinalized => (List.mem_append.1 (hends _ hfinalized)).resolve_left hopen⟩

/-- A taker gets the data of an account. -/
def accountKnown : Stream := [
  (.epoch, .command ⟨"take", .takeOffer, [], []⟩),
  (.epoch, .inbound ⟨"trade_1", 1, ⟨"maker"⟩, .takeOfferResponse, [], []⟩),
  (.epoch, .inbound ⟨"trade_1", 2, ⟨"maker"⟩, .accountData, [1], []⟩)]

/-- Afterwards the taker pays into it. -/
def accountPaid : Stream := accountKnown ++ [(.epoch, .command ⟨"pay", .confirmFiatSent, [], []⟩)]

/-- It is too late to cancel, so that the taker opens a dispute. -/
def complaint : Stream := [
  (.epoch, .command ⟨"cancel", .cancelTrade, [], []⟩),
  (.epoch, .command ⟨"dispute", .openDispute, [], []⟩)]

theorem complaint_settles_trade :
    ∃ t, ∃ e : Engine,
      Trade.create .standard .epoch "trade_1" ⟨.buyerAsTaker, .reputationFiat⟩ Trade.soundTerms
        ⟨"maker"⟩ = .ok t ∧
      ¬(e.history t accountKnown).Has (Combination.payment ⟨.buyerAsTaker, .reputationFiat⟩) ∧
      (e.run t accountKnown).1.state ∉ State.settled ∧
      (e.history t accountPaid).Has (Combination.payment ⟨.buyerAsTaker, .reputationFiat⟩) ∧
      (e.run t (accountPaid ++ complaint)).1.finalized = true ∧
      (e.run t (accountPaid ++ complaint)).1.state ∈ State.settled := by
  let e : Engine := { registry := .standard, verifier := { accepts := fun _ _ _ => false } }
  let t : Trade := .initial .epoch "trade_1" ⟨.buyerAsTaker, .reputationFiat⟩ Trade.soundTerms
    ⟨"maker"⟩ (Reputation.table .buyerAsTaker)
  have hcreate : Trade.create .standard .epoch "trade_1" ⟨.buyerAsTaker, .reputationFiat⟩
      Trade.soundTerms ⟨"maker"⟩ = .ok t :=
    Trade.create_soundTerms rfl (Registry.lookup_reputationFiat _)
  have hunpaid : ¬(e.history t accountKnown).Has
      (Combination.payment ⟨.buyerAsTaker, .reputationFiat⟩) := by decide
  have hpaid : (e.history t accountPaid).Has
      (Combination.payment ⟨.buyerAsTaker, .reputationFiat⟩) := by decide
  have hended : (e.run t (accountPaid ++ complaint)).1.finalized = true := by decide
  exact ⟨t, e, hcreate, hunpaid, ((payment_decides_ending hcreate e accountKnown).2 hunpaid).1,
    hpaid, hended, ((payment_decides_ending hcreate e accountPaid).1 hpaid complaint).2 hended⟩

end Engine

end PeerTrade
