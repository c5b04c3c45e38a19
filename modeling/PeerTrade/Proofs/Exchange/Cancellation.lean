import PeerTrade.Proofs.Exchange.Cooperation
import PeerTrade.Proofs.Standard.Payment

/-!
# Walking away from a payment

A side may cancel while no payment has moved as far as it knows. There is no answer to a
cancellation, so it can cross the payment: the seller gives up while the buyer's message is still on
its way. In an escrow the seller can also give up after a deposit whose signature does not hold, since
nothing tells the buyer that it was refused. These are the only ways in which one side is cancelled
while the other one has paid (`Exchange.cancelled_beside_payment`).
-/

namespace PeerTrade

open Standard

/-! ## Payments -/

namespace Settlement

/-- The states in which either party has made the payment. -/
def paid : Settlement → Both (List State)
  | reputationFiat =>
    ⟨[.fiatSent, .fiatReceiptConfirmed, .btcSentReceived, .completed, .disputed], []⟩
  | multisigEscrow =>
    ⟨[.depositConfirmed, .fiatSent, .fiatReceiptConfirmed, .completed, .disputed], []⟩

/-- The states in which either party has signed a deposit. -/
def deposited : Settlement → Both (List State)
  | reputationFiat => ⟨[], []⟩
  | multisigEscrow => multisigEscrow.paid

end Settlement

namespace Exchange

/-- A cancellation is on its way to the buyer while the payment is on its way to the seller. -/
def Crossed (settlement : Settlement) (x : Exchange) : Prop :=
  .tradeCancelled ∈ x.lines.buyer.map (·.kind) ∧
    settlement.paymentMessage ∈ x.lines.seller.map (·.kind)

/-- The buyer has signed the deposit in a way that the seller's verifier does not accept. -/
def Missigned (setup : Setup) (x : Exchange) : Prop :=
  ∃ step ∈ x.sides.buyer.history, ∃ c, step.1 = .command c ∧ c.kind = .signDeposit ∧
    setup.engines.seller.verifier.accepts setup.handles.buyer c.payload c.signature = false

end Exchange

/-! ## What the tables say -/

namespace Protocol

/-- States that are entered by a kind of event, and never left. -/
def Keeps (p : Protocol) (kind : EventKind) (states : List State) : Prop :=
  ∀ e ∈ p.table.entries, e.1.event = kind ∨ e.1.state ∈ states → e.2.target ∈ states

instance (p : Protocol) (kind : EventKind) (states : List State) : Decidable (p.Keeps kind states) :=
  inferInstanceAs (Decidable (∀ e ∈ p.table.entries, _))

end Protocol

/-- All commands are given, and a deposit is signed so that the seller accepts it. -/
def Regime.free (tables : Both Protocol) : Regime where
  tables
  permits _ := true
  signed := [.signDeposit]

namespace Outline

/-- A cancellation is on its way to the buyer while the payment is on its way to the seller. -/
def crossed (settlement : Settlement) (o : Outline) : Bool :=
  (o.lines.buyer.map (·.kind)).contains .tradeCancelled &&
    (o.lines.seller.map (·.kind)).contains settlement.paymentMessage

/-- The outlines of two sides as long as no cancellation crosses the payment. -/
def uncrossed (settlement : Settlement) (tables : Both Protocol) : List Outline :=
  explore (.free tables) (crossed settlement) 20 [start tables] [start tables]

end Outline

namespace Standard

variable {settlement : Settlement} {tables : Both Protocol}

theorem keeps_paid_of_arePair (h : ArePair settlement tables) :
    ∀ p, (tables.of p).Keeps (.command settlement.paymentStep) (settlement.paid.of p) := by
  cases h with
  | @reputation role hrole =>
    cases role with
    | buyerAsMaker => decide +kernel
    | buyerAsTaker => decide +kernel
    | sellerAsMaker => cases hrole
    | sellerAsTaker => cases hrole
  | escrow => decide +kernel

theorem keeps_deposited_of_arePair (h : ArePair settlement tables) :
    ∀ p, (tables.of p).Keeps (.command .signDeposit) (settlement.deposited.of p) := by
  cases h with
  | @reputation role hrole => cases role <;> decide +kernel
  | escrow => decide +kernel

/-- Without a crossing no side is cancelled once the buyer has paid. -/
theorem uncrossed_of_arePair (h : ArePair settlement tables) :
    Outline.start tables ∈ Outline.uncrossed settlement tables ∧
      Outline.Closed (.free tables) (Outline.crossed settlement)
        (Outline.uncrossed settlement tables) ∧
      ∀ o ∈ Outline.uncrossed settlement tables, o.states.buyer ∈ settlement.paid.buyer →
        o.states.seller ≠ .cancelled := by
  cases h with
  | @reputation role hrole =>
    cases role with
    | buyerAsMaker => decide +kernel
    | buyerAsTaker => decide +kernel
    | sellerAsMaker => cases hrole
    | sellerAsTaker => cases hrole
  | escrow => decide +kernel

end Standard

/-! ## What the exchanges show -/

namespace Exchange

variable {setup : Setup} {permits : Party → Command → Prop} {tables : Both Protocol}
  {x x' start : Exchange} {p : Party} {now : Instant} {event : Event} {kind : EventKind}

/-- What a side has committed stays in its history. -/
theorem Step.history_subset (h : Step setup permits x x') (q : Party) :
    (x.sides.of q).history ⊆ (x'.sides.of q).history := by
  have hfeed (p : Party) (now : Instant) (event : Event) (y : Exchange) :
      ∀ q, (y.sides.of q).history ⊆ ((y.feed setup p now event).sides.of q).history := by
    rcases y.feed_cases setup p now event with ⟨tr, c, hfed⟩ | ⟨-, heq⟩
    · refine p.forall_of ?_ ?_
      · rw [hfed.history]
        exact List.subset_append_left _ _
      · rw [hfed.other]
        exact List.Subset.refl _
    · rw [heq]
      exact fun _ => List.Subset.refl _
  cases h with
  | command p now c _ => exact hfeed p now _ x q
  | deliver p now m rest _ => exact hfeed p now _ (x.proceed p rest) q

/-- Either party is in the states that its table keeps after what it has committed. -/
def Keeps (kind : EventKind) (states : Both (List State)) (x : Exchange) : Prop :=
  ∀ p, (x.sides.of p).history.Has kind → (x.trade p).state ∈ states.of p

theorem Keeps.feed {states : Both (List State)} (h : x.Keeps kind states)
    (hsound : x.Sound setup tables) (hkeeps : ∀ p, (tables.of p).Keeps kind (states.of p)) :
    (x.feed setup p now event).Keeps kind states := by
  rcases x.feed_cases setup p now event with ⟨tr, c, hfed⟩ | ⟨-, heq⟩
  · refine p.forall_of ?_ ?_
    · intro hhas
      obtain ⟨deadlines, hafter⟩ := hfed.committed.after
      have hentry : (⟨(x.trade p).state, event.kind⟩, tr) ∈ (tables.of p).table.entries := by
        rw [← hsound.table p]
        exact Dict.get?_eq_some_iff.1 hfed.committed.entry
      rw [hafter]
      refine hkeeps p _ hentry ?_
      -- the event is the one of the kind, or there was one before
      rw [hfed.history, History.has_concat_iff] at hhas
      exact hhas.symm.imp_right (h p)
    · rw [trade, hfed.other]
      exact h p.other
  · rw [heq]
    exact h

theorem Keeps.reachable {states : Both (List State)} (hsound : start.Sound setup tables)
    (hascends : ∀ p, (tables.of p).Ascends) (hstart : start.Keeps kind states)
    (hkeeps : ∀ p, (tables.of p).Keeps kind (states.of p))
    (hx : Reachable setup permits start x) : x.Keeps kind states := by
  induction hx with
  | refl => exact hstart
  | tail hbefore hstep ih =>
    have hsound := hsound.reachable hascends hbefore
    cases hstep with
    | command p now c _ => exact ih.feed hsound hkeeps
    | deliver p now m rest hline =>
      have hproceed : Keeps kind states (Exchange.proceed _ p rest) := ih
      exact hproceed.feed (hsound.proceed hline) hkeeps

/-- Unless the deposit is signed in a way that the seller does not accept, all commands are as the
outlines assume. -/
theorem Reachable.free {settlement : Settlement} (htables : ArePair settlement tables)
    (hsound : start.Sound setup tables) (hx : Reachable setup permits start x)
    (hsigned : ¬x.Missigned setup) :
    Reachable setup ((Regime.free tables).Allows setup) start x := by
  induction hx with
  | refl => exact .refl
  | @tail y z hbefore hstep ih =>
    have hy : ¬y.Missigned setup := by
      rintro ⟨step, hmem, hstep'⟩
      exact hsigned ⟨step, hstep.history_subset .buyer hmem, hstep'⟩
    have hbefore' := ih hy
    cases hstep with
    | deliver p now m rest hline => exact hbefore'.tail (.deliver p now m rest hline)
    | command p now c _ =>
      by_cases hallows : (Regime.free tables).Allows setup p c
      · exact hbefore'.tail (.command p now c hallows)
      -- what is left is a deposit that is signed wrongly, and if it counted then a buyer signed it
      · have hkind : c.kind = .signDeposit := by
          by_contra hkind
          exact hallows ⟨rfl, fun hsigned => absurd (List.mem_singleton.1 hsigned) hkind⟩
        have hrefused : (setup.engines.of p.other).verifier.accepts (setup.handles.of p) c.payload
            c.signature = false := by
          rw [Bool.eq_false_iff]
          exact fun haccepts => hallows ⟨rfl, fun _ => haccepts⟩
        rcases y.feed_cases setup p now (.command c) with ⟨tr, commit, hfed⟩ | ⟨-, heq⟩
        · refine absurd ?_ hsigned
          have hlast : (Event.command c, commit) ∈
              ((y.feed setup p now (.command c)).sides.of p).history := by
            rw [hfed.history]
            exact List.mem_append_right _ (List.mem_singleton_self _)
          cases p with
          | buyer => exact ⟨_, hlast, c, rfl, hkind, hrefused⟩
          | seller =>
            -- a seller's table has no entry for it
            have hsoundy := hsound.reachable (ascends_of_arePair htables) hbefore
            have hentry : (⟨(y.trade .seller).state, .command .signDeposit⟩, tr) ∈
                tables.seller.table.entries := by
              have hlookup := hfed.committed.entry
              rw [hsoundy.table, Event.kind, hkind] at hlookup
              exact Dict.get?_eq_some_iff.1 hlookup
            have htarget := keeps_deposited_of_arePair htables .seller _ hentry (.inl rfl)
            cases settlement <;> cases htarget
        · rw [heq]
          exact hbefore'

theorem crossed_of_fits {settlement : Settlement} {o : Outline} (h : o.Fits setup x)
    (hcrossed : o.crossed settlement = true) : x.Crossed settlement := by
  have hbuyer : x.lines.buyer.map (·.kind) = o.lines.buyer.map (·.kind) :=
    Note.map_kind_eq (h.lines .buyer)
  have hseller : x.lines.seller.map (·.kind) = o.lines.seller.map (·.kind) :=
    Note.map_kind_eq (h.lines .seller)
  rw [Crossed, hbuyer, hseller]
  simpa [Outline.crossed, Bool.and_eq_true, List.contains_iff_mem] using hcrossed

/-- If one side is cancelled while the other one has committed its payment, then the cancelled side
is the seller, and either the cancellation and the payment have crossed, or the buyer of an escrow
signed the deposit in a way that the seller's verifier does not accept. -/
theorem cancelled_beside_payment {setup : Setup} {id : String} {role : Role}
    {settlement : Settlement} (hrole : role.isBuyer = true) {terms : Terms}
    {buyerCreated sellerCreated : Instant} {t u : Trade}
    (ht : Trade.create .standard buyerCreated id ⟨role, settlement⟩ terms setup.handles.seller =
      .ok t)
    (hu : Trade.create .standard sellerCreated id ⟨role.counterpart, settlement⟩ terms
      setup.handles.buyer = .ok u)
    {x : Exchange} (hx : Reachable setup (fun _ _ => True) (.new t u) x) {p : Party}
    (hcancelled : (x.trade p).state = .cancelled)
    (hpaid : (x.sides.of p.other).history.Has (.command settlement.paymentStep)) :
    p = .seller ∧
      ((∃ y, Reachable setup (fun _ _ => True) (.new t u) y ∧
          Reachable setup (fun _ _ => True) y x ∧ y.Crossed settlement) ∨
        settlement = .multisigEscrow ∧ x.Missigned setup) := by
  obtain ⟨tables, htables, hsound, hfits⟩ := exists_tables_of_create hrole ht hu
  have hascends := ascends_of_arePair htables
  have hnone (kind : EventKind) (states : Both (List State)) : (new t u).Keeps kind states := by
    rintro q ⟨step, hstep, -⟩
    cases q <;> cases hstep
  have hstate : (x.trade p.other).state ∈ settlement.paid.of p.other :=
    (Keeps.reachable hsound hascends (hnone _ _) (keeps_paid_of_arePair htables) hx) p.other hpaid
  obtain rfl : p = .seller := by
    cases p with
    | seller => rfl
    | buyer => cases settlement <;> cases hstate
  refine ⟨rfl, ?_⟩
  by_cases hsigned : x.Missigned setup
  · -- only in an escrow is a deposit signed at all
    refine .inr ⟨?_, hsigned⟩
    obtain ⟨step, hstep, c, hevent, hkind, -⟩ := hsigned
    have hhas : (x.sides.of .buyer).history.Has (.command .signDeposit) :=
      ⟨step, hstep, by rw [hevent, Event.kind, hkind]⟩
    have hdeposited := (Keeps.reachable hsound hascends (hnone _ _)
      (keeps_deposited_of_arePair htables) hx) .buyer hhas
    cases settlement with
    | multisigEscrow => rfl
    | reputationFiat => cases hdeposited
  · refine .inl ?_
    obtain ⟨hstart, hclosed, huncrossed⟩ := uncrossed_of_arePair htables
    have hfree := hx.free htables hsound hsigned
    rcases Outline.exists_fits_of_reachable hclosed hascends hsound ⟨_, hstart, hfits⟩ hfree with
      ⟨o, ho, hfits⟩ | ⟨y, o, hy, hrest, hfits, hcrossed⟩
    · -- the outline would show a cancelled seller beside a buyer who paid
      refine absurd ?_ (huncrossed o ho ?_)
      · rw [← hcancelled]
        exact (hfits.states .seller).symm
      · have hbuyer := hfits.states .buyer
        rw [Party.other] at hstate
        rw [hbuyer] at hstate
        exact hstate
    · exact ⟨y, hy.mono fun _ _ _ => trivial, hrest.mono fun _ _ _ => trivial,
        crossed_of_fits hfits hcrossed⟩

/-- The seller gives up while the word of the payment is on its way. -/
def crossing : List Move := [
  .command .buyer ⟨"take", .takeOffer, [], []⟩, .deliver .seller, .deliver .buyer,
  .command .seller ⟨"account", .sendAccountData, [1], []⟩, .deliver .buyer,
  .command .buyer ⟨"paid", .confirmFiatSent, [], []⟩,
  .command .seller ⟨"cancel", .cancelTrade, [], []⟩]

/-- The seller gives up after a deposit with a signature that does not hold. -/
def refusal : List Move := [
  .command .buyer ⟨"take", .takeOffer, [], []⟩, .deliver .seller, .deliver .buyer,
  .command .buyer ⟨"deposit", .signDeposit, [1], [0]⟩, .deliver .seller,
  .command .seller ⟨"cancel", .cancelTrade, [], []⟩]

theorem reachable_of_play (start : Exchange) (moves : List Move) :
    Reachable twoParties (fun _ _ => True) start (start.play twoParties moves) :=
  reachable_play (fun _ _ _ => trivial) start

theorem exists_crossing :
    ∃ x, Reachable twoParties (fun _ _ => True)
        (.new (purchase .reputationFiat (Reputation.table .buyerAsTaker))
          (sale .reputationFiat (Reputation.table .sellerAsMaker))) x ∧
      (x.trade .seller).state = .cancelled ∧
      x.sides.buyer.history.Has (.command .confirmFiatSent) :=
  ⟨_, reachable_of_play _ crossing, by decide +kernel⟩

theorem exists_refusal :
    ∃ x, Reachable twoParties (fun _ _ => True)
        (.new (purchase .multisigEscrow Escrow.buyerAsTaker)
          (sale .multisigEscrow Escrow.sellerAsMaker)) x ∧
      (x.trade .seller).state = .cancelled ∧
      x.sides.buyer.history.Has (.command .signDeposit) ∧ x.lines.seller = [] :=
  ⟨_, reachable_of_play _ refusal, by decide +kernel⟩

theorem crossing_leaves_payment_behind :
    ∃ t u x, Reachable twoParties (fun _ _ => True) (.new t u) x ∧
      (x.trade .seller).state = .cancelled ∧
      x.sides.buyer.history.Has (.command .confirmFiatSent) ∧
      (Party.seller = .seller ∧
        ((∃ y, Reachable twoParties (fun _ _ => True) (.new t u) y ∧
            Reachable twoParties (fun _ _ => True) y x ∧ y.Crossed .reputationFiat) ∨
          Settlement.reputationFiat = .multisigEscrow ∧ x.Missigned twoParties)) := by
  obtain ⟨x, hx, hcancelled, hpaid⟩ := exists_crossing
  exact ⟨_, _, x, hx, hcancelled, hpaid, cancelled_beside_payment rfl
    (create_purchase (Registry.lookup_reputationFiat _))
    (create_sale (Registry.lookup_reputationFiat _)) hx hcancelled hpaid⟩

/-- A payment can be left behind by a cancellation that crosses it, and by one that follows a
deposit that was refused. -/
theorem payment_can_be_left_behind :
    (∃ t u x,
      Trade.create .standard .epoch "trade_1" ⟨.buyerAsTaker, .reputationFiat⟩ Trade.soundTerms
        twoParties.handles.seller = .ok t ∧
      Trade.create .standard .epoch "trade_1" ⟨.sellerAsMaker, .reputationFiat⟩ Trade.soundTerms
        twoParties.handles.buyer = .ok u ∧
      Reachable twoParties (fun _ _ => True) (.new t u) x ∧
      (x.trade .seller).state = .cancelled ∧
      x.sides.buyer.history.Has (.command .confirmFiatSent)) ∧
    (∃ t u x,
      Trade.create .standard .epoch "trade_1" ⟨.buyerAsTaker, .multisigEscrow⟩ Trade.soundTerms
        twoParties.handles.seller = .ok t ∧
      Trade.create .standard .epoch "trade_1" ⟨.sellerAsMaker, .multisigEscrow⟩ Trade.soundTerms
        twoParties.handles.buyer = .ok u ∧
      Reachable twoParties (fun _ _ => True) (.new t u) x ∧
      (x.trade .seller).state = .cancelled ∧
      x.sides.buyer.history.Has (.command .signDeposit) ∧
      -- the deposit has arrived, so that nothing has crossed it
      x.lines.seller = []) := by
  obtain ⟨x, hx, hcancelled, hpaid⟩ := exists_crossing
  obtain ⟨y, hy, hcancelled', hpaid', hline⟩ := exists_refusal
  exact ⟨⟨_, _, x, create_purchase (Registry.lookup_reputationFiat _),
      create_sale (Registry.lookup_reputationFiat _), hx, hcancelled, hpaid⟩,
    ⟨_, _, y, create_purchase Registry.lookup_multisigEscrow_buyerAsTaker,
      create_sale Registry.lookup_multisigEscrow_sellerAsMaker, hy, hcancelled', hpaid', hline⟩⟩

end Exchange

end PeerTrade
