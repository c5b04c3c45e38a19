import PeerTrade.Proofs.Commitment
import PeerTrade.Proofs.Exchange.Outline
import PeerTrade.Proofs.Trade.Origin

/-!
# Sides that work together

As long as neither user gives up, the built-in tables of the two sides fit together: every message
that arrives is acted upon, and whenever no message is on its way the sides are in states that belong
together. All outlines that the sides can come to are listed, and each of them is checked
(`Standard.smooth_of_arePair`).
-/

namespace PeerTrade

open Standard

/-! ## Tables of one settlement -/

namespace Standard

/-- The tables of a buyer and of the seller on the other side. -/
inductive ArePair : Settlement → Both Protocol → Prop where
  | reputation {role : Role} : role.isBuyer = true →
      ArePair .reputationFiat ⟨Reputation.table role, Reputation.table role.counterpart⟩
  | escrow : ArePair .multisigEscrow ⟨Escrow.buyerAsTaker, Escrow.sellerAsMaker⟩

theorem ascends_of_arePair {settlement : Settlement} {tables : Both Protocol}
    (h : ArePair settlement tables) : ∀ p, (tables.of p).Ascends := by
  cases h with
  | @reputation role _ =>
    exact Party.forall_of .buyer (ascends_of_isTable (.reputation role))
      (ascends_of_isTable (.reputation role.counterpart))
  | escrow =>
    exact Party.forall_of .buyer (ascends_of_isTable .escrowBuyer)
      (ascends_of_isTable .escrowSeller)

/-- A buyer and the seller on the other side have the tables that the registry holds for a pair. -/
theorem arePair_of_lookup {role : Role} {settlement : Settlement} {buyer seller : Protocol}
    (hrole : role.isBuyer = true)
    (hbuyer : Registry.standard.lookup ⟨role, settlement⟩ = .ok buyer)
    (hseller : Registry.standard.lookup ⟨role.counterpart, settlement⟩ = .ok seller) :
    ArePair settlement ⟨buyer, seller⟩ := by
  cases settlement with
  | reputationFiat =>
    rw [Registry.lookup_reputationFiat] at hbuyer hseller
    cases hbuyer
    cases hseller
    exact .reputation hrole
  | multisigEscrow =>
    -- only a buying taker has a table
    have htable := isTable_of_lookup hbuyer
    cases htable with
    | escrowSeller => cases hrole
    | escrowBuyer =>
      rw [Role.counterpart, Registry.lookup_multisigEscrow_sellerAsMaker] at hseller
      cases hseller
      exact .escrow

end Standard

/-- The outline of two trades about which nothing has been said yet. -/
def Outline.start (tables : Both Protocol) : Outline where
  states := ⟨tables.buyer.initial, tables.seller.initial⟩

/-- Two trades that a buyer and a seller create for one deal with each other. -/
theorem Exchange.exists_tables_of_create {setup : Setup} {id : String} {role : Role}
    {settlement : Settlement} {terms : Terms} {buyerCreated sellerCreated : Instant} {t u : Trade}
    (hrole : role.isBuyer = true)
    (ht : Trade.create .standard buyerCreated id ⟨role, settlement⟩ terms setup.handles.seller =
      .ok t)
    (hu : Trade.create .standard sellerCreated id ⟨role.counterpart, settlement⟩ terms
      setup.handles.buyer = .ok u) :
    ∃ tables, ArePair settlement tables ∧ Sound setup tables (.new t u) ∧
      (Outline.start tables).Fits setup (.new t u) := by
  obtain ⟨-, -, buyer, hbuyer, rfl⟩ := Trade.create_eq_ok_iff.1 ht
  obtain ⟨-, -, seller, hseller, rfl⟩ := Trade.create_eq_ok_iff.1 hu
  refine ⟨⟨buyer, seller⟩, arePair_of_lookup hrole hbuyer hseller, sound_new, ?_⟩
  constructor <;> intro p <;> cases p <;> first | rfl | exact .nil

/-! ## What the outlines show -/

/-- The commands of users who go on with the trade. -/
def Regime.cooperative (tables : Both Protocol) : Regime where
  tables
  permits k := k ≠ .cancelTrade ∧ k ≠ .openDispute
  signed := [.signDeposit, .signPayout]

/-- The states of buyer and seller that belong together. -/
def matching : Settlement → List (Both State)
  | .reputationFiat => [
      ⟨.init, .init⟩,
      ⟨.offerAccepted, .offerAccepted⟩,
      ⟨.accountDataReceived, .accountDataSent⟩,
      ⟨.fiatSent, .fiatSentReceived⟩,
      ⟨.fiatReceiptConfirmed, .fiatReceiptConfirmed⟩,
      ⟨.btcSentReceived, .completed⟩,
      ⟨.completed, .completed⟩]
  | .multisigEscrow => [
      ⟨.init, .init⟩,
      ⟨.awaitingDeposit, .awaitingDeposit⟩,
      ⟨.depositConfirmed, .depositConfirmed⟩,
      ⟨.fiatSent, .fiatSentReceived⟩,
      ⟨.fiatReceiptConfirmed, .fiatReceiptConfirmed⟩,
      ⟨.completed, .completed⟩]

/-- What comes next is acted upon, and without anything to come the states belong together. -/
def Outline.Smooth (r : Regime) (settlement : Settlement) (o : Outline) : Prop :=
  (∀ p, ∀ n ∈ (o.lines.of p).head?, o.accepts r p n = true) ∧
    (o.lines = ⟨[], []⟩ → o.states ∈ matching settlement)

instance (r : Regime) (settlement : Settlement) (o : Outline) : Decidable (o.Smooth r settlement) :=
  inferInstanceAs (Decidable (_ ∧ _))

/-- The outlines of two sides that work together. -/
def Outline.cooperations (tables : Both Protocol) : List Outline :=
  explore (.cooperative tables) (fun _ => false) 20 [start tables] [start tables]

theorem Standard.smooth_of_arePair {settlement : Settlement} {tables : Both Protocol}
    (h : ArePair settlement tables) :
    Outline.start tables ∈ Outline.cooperations tables ∧
      Outline.Closed (.cooperative tables) (fun _ => false) (Outline.cooperations tables) ∧
      ∀ o ∈ Outline.cooperations tables, o.Smooth (.cooperative tables) settlement := by
  cases h with
  | @reputation role hrole =>
    cases role with
    | buyerAsMaker => decide +kernel
    | buyerAsTaker => decide +kernel
    | sellerAsMaker => cases hrole
    | sellerAsTaker => cases hrole
  | escrow => decide +kernel

/-! ## What the exchanges show -/

namespace Exchange

/-- A user goes on with the trade: neither cancels nor disputes, and signs what is to be signed. -/
def Cooperates (setup : Setup) (p : Party) (c : Command) : Prop :=
  c.kind ≠ .cancelTrade ∧ c.kind ≠ .openDispute ∧
    (c.kind = .signDeposit ∨ c.kind = .signPayout →
      c.signature = Commitment.commit (setup.handles.of p) c.payload)

theorem Cooperates.allows {setup : Setup} (tables : Both Protocol)
    (hverifier : ∀ p, (setup.engines.of p).verifier = Commitment.verifier) {p : Party}
    {c : Command} (h : Cooperates setup p c) : (Regime.cooperative tables).Allows setup p c := by
  obtain ⟨hcancel, hdispute, hsigned⟩ := h
  refine ⟨by simp [Regime.cooperative, hcancel, hdispute], fun hkind => ?_⟩
  rw [hverifier, hsigned (by simpa [Regime.cooperative] using hkind)]
  exact Commitment.accepts_commit ..

/-- Between users who go on with their trade every message that arrives is acted upon, and whenever
none is on its way the two sides are in states that belong together. -/
theorem cooperation_is_smooth {setup : Setup}
    (hverifier : ∀ p, (setup.engines.of p).verifier = Commitment.verifier)
    {id : String} {role : Role} {settlement : Settlement} (hrole : role.isBuyer = true)
    {terms : Terms} {buyerCreated sellerCreated : Instant} {t u : Trade}
    (ht : Trade.create .standard buyerCreated id ⟨role, settlement⟩ terms setup.handles.seller =
      .ok t)
    (hu : Trade.create .standard sellerCreated id ⟨role.counterpart, settlement⟩ terms
      setup.handles.buyer = .ok u)
    {x : Exchange} (hx : Reachable setup (Cooperates setup) (.new t u) x) :
    (∀ p now m rest, x.lines.of p = m :: rest →
      ∃ t' c, (setup.engines.of p).handle now (x.trade p) (arrival setup p m) =
        (t', .committed c)) ∧
    (x.lines = ⟨[], []⟩ →
      ⟨(x.trade .buyer).state, (x.trade .seller).state⟩ ∈ matching settlement) := by
  obtain ⟨tables, htables, hsound, hfits⟩ := exists_tables_of_create hrole ht hu
  obtain ⟨hstart, hclosed, hsmooth⟩ := smooth_of_arePair htables
  have hascends := ascends_of_arePair htables
  have hallows := hx.mono fun p c h => h.allows tables hverifier
  -- the exchange has one of the outlines that were listed, since none was left out
  obtain ⟨o, ho, hfits⟩ : ∃ o ∈ Outline.cooperations tables, o.Fits setup x := by
    rcases Outline.exists_fits_of_reachable hclosed hascends hsound ⟨_, hstart, hfits⟩ hallows with
      hseen | ⟨-, -, -, -, -, hexempt⟩
    · exact hseen
    · cases hexempt
  obtain ⟨haccepts, hmatching⟩ := hsmooth o ho
  have hsound := hsound.reachable hascends hallows
  constructor
  · intro p now m rest hline
    have hlines := hfits.lines p
    rw [hline] at hlines
    obtain ⟨n, notes, -, -, hnotes⟩ := List.forall₂_cons_left_iff.1 hlines
    exact hfits.exists_committed now hsound hline hnotes (haccepts p n (by simp [hnotes]))
  · intro hempty
    have hlines : o.lines = ⟨[], []⟩ := by
      refine Both.ext fun p => ?_
      have hp := hfits.lines p
      rw [hempty] at hp
      cases p <;> exact List.forall₂_nil_left_iff.1 hp
    have hstates : ⟨(x.trade .buyer).state, (x.trade .seller).state⟩ = o.states := by
      refine Both.ext fun p => ?_
      cases p <;> exact hfits.states _
    rw [hstates]
    exact hmatching hlines

/-! ## A trade between two parties -/

/-- A buyer and a seller who sign with commitments. -/
def twoParties : Setup where
  engines :=
    ⟨{ registry := .standard, verifier := Commitment.verifier },
      { registry := .standard, verifier := Commitment.verifier }⟩
  handles := ⟨⟨"buyer"⟩, ⟨"seller"⟩⟩

/-- The trade as the buyer begins it. -/
def purchase (settlement : Settlement) (table : Protocol) : Trade :=
  .initial .epoch "trade_1" ⟨.buyerAsTaker, settlement⟩ Trade.soundTerms ⟨"seller"⟩ table

/-- The trade as the seller begins it. -/
def sale (settlement : Settlement) (table : Protocol) : Trade :=
  .initial .epoch "trade_1" ⟨.sellerAsMaker, settlement⟩ Trade.soundTerms ⟨"buyer"⟩ table

theorem create_purchase {settlement : Settlement} {table : Protocol}
    (h : Registry.standard.lookup ⟨.buyerAsTaker, settlement⟩ = .ok table) :
    Trade.create .standard .epoch "trade_1" ⟨.buyerAsTaker, settlement⟩ Trade.soundTerms
      twoParties.handles.seller = .ok (purchase settlement table) :=
  Trade.create_soundTerms rfl h

theorem create_sale {settlement : Settlement} {table : Protocol}
    (h : Registry.standard.lookup ⟨.sellerAsMaker, settlement⟩ = .ok table) :
    Trade.create .standard .epoch "trade_1" ⟨Role.buyerAsTaker.counterpart, settlement⟩
      Trade.soundTerms twoParties.handles.buyer = .ok (sale settlement table) :=
  Trade.create_soundTerms rfl h

/-- A payment that is made, and confirmed by the seller, who gives two commands in a row. -/
def orderlyPayment : List Move := [
  .command .buyer ⟨"take", .takeOffer, [], []⟩, .deliver .seller, .deliver .buyer,
  .command .seller ⟨"account", .sendAccountData, [1], []⟩, .deliver .buyer,
  .command .buyer ⟨"paid", .confirmFiatSent, [], []⟩, .deliver .seller,
  .command .seller ⟨"received", .confirmFiatReceipt, [], []⟩,
  .command .seller ⟨"released", .confirmBtcSent, [1], []⟩]

theorem orderlyPayment_is_smooth :
    ∃ t u setup, ∃ x : Exchange, Reachable setup (Cooperates setup) (.new t u) x ∧
      x.lines.buyer.map (·.kind) = [.fiatReceiptConfirmed, .btcSent] ∧
      (∀ p now m rest, x.lines.of p = m :: rest →
        ∃ t' c, (setup.engines.of p).handle now (x.trade p) (arrival setup p m) =
          (t', .committed c)) ∧
      (x.lines = ⟨[], []⟩ →
        ⟨(x.trade .buyer).state, (x.trade .seller).state⟩ ∈ matching .reputationFiat) := by
  let start := new (purchase .reputationFiat (Reputation.table .buyerAsTaker))
    (sale .reputationFiat (Reputation.table .sellerAsMaker))
  have hverifier : ∀ p, (twoParties.engines.of p).verifier = Commitment.verifier := by
    intro p
    cases p <;> rfl
  have hx : Reachable twoParties (Cooperates twoParties) start
      (start.play twoParties orderlyPayment) := by
    refine reachable_play (fun p c hc => ?_) _
    -- nothing has to be signed in a trade secured by reputation
    simp only [orderlyPayment, List.mem_cons, Move.command.injEq, reduceCtorEq, false_or,
      List.not_mem_nil, or_false] at hc
    rcases hc with ⟨rfl, rfl⟩ | ⟨rfl, rfl⟩ | ⟨rfl, rfl⟩ | ⟨rfl, rfl⟩ | ⟨rfl, rfl⟩ <;>
      simp [Cooperates]
  have hlines : (start.play twoParties orderlyPayment).lines.buyer.map (·.kind) =
      [.fiatReceiptConfirmed, .btcSent] := by
    decide +kernel
  exact ⟨_, _, twoParties, _, hx, hlines, cooperation_is_smooth hverifier rfl
    (create_purchase (Registry.lookup_reputationFiat _))
    (create_sale (Registry.lookup_reputationFiat _)) hx⟩

end Exchange

end PeerTrade
