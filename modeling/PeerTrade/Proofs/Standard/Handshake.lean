import PeerTrade.Proofs.Standard.Progress
import PeerTrade.Proofs.Trade.Origin
import PeerTrade.Proofs.Wire.Terms

/-!
# The handshake

A taker takes an offer by a request that carries the fingerprint of the taker's terms, and the maker
accepts a request only with the fingerprint of the maker's own. Both are the first thing that happens
to a trade (`Protocol.Requests`, `Protocol.Compares`), so that the request is the first message of the
taker and finds a maker who has heard nothing yet. As no two terms have one fingerprint
(`Terms.fingerprint_inj`), a trade comes about exactly if both sides mean the same terms
(`Engine.request_committed_iff`).
-/

namespace PeerTrade

open Standard

/-! ## What the tables say -/

namespace Protocol

/-- Offers are taken at the start of a trade, by a request that names the terms. -/
def Requests (p : Protocol) : Prop :=
  ∀ e ∈ p.table.entries, e.1.event = .command .takeOffer →
    e.1.state = .init ∧ e.2.send = some ⟨.takeOfferRequest, .termsFingerprint⟩

instance (p : Protocol) : Decidable p.Requests :=
  inferInstanceAs (Decidable (∀ e ∈ p.table.entries, _))

/-- A request is accepted at the start of a trade, from the counterparty and for the same terms. -/
def Compares (p : Protocol) : Prop :=
  (p.lookup .init (.message .takeOfferRequest)).map (·.guards) = some [.envelope, .termsMatch]

instance (p : Protocol) : Decidable p.Compares :=
  inferInstanceAs (Decidable (_ = some _))

end Protocol

namespace Standard

variable {c : Combination} {p : Protocol}

theorem requests_of_isTable (h : IsTable c p) : p.Requests := by
  cases h with
  | reputation role => cases role <;> decide
  | escrowSeller => decide
  | escrowBuyer => decide

theorem compares_of_isTable (h : IsTable c p) (hrole : c.role.isMaker = true) : p.Compares := by
  cases h with
  | reputation role =>
    cases role with
    | buyerAsMaker => decide
    | sellerAsMaker => decide
    | buyerAsTaker => cases hrole
    | sellerAsTaker => cases hrole
  | escrowSeller => decide
  | escrowBuyer => cases hrole

end Standard

/-! ## Trades at their start -/

namespace Engine

variable {e : Engine} {t : Trade}

/-- A trade without commits is the trade that it was. -/
theorem run_fst_of_history_nil {stream : Stream} (h : e.history t stream = []) :
    (e.run t stream).1 = t := by
  have hrun := run_induction (e := e) (t := t) (h := [])
    (P := fun t' h => h = [] → t' = t) ?_ (fun _ => rfl) stream
  · exact hrun (by simpa using h)
  · -- behind a commit the history is not empty
    intro t₁ h now event t₂ c _ _ hnil
    simp at hnil

/-- Under a table that does not lead back, a trade that is still at its start has not moved. -/
theorem run_fst_of_state_init (hascends : t.protocol.Ascends) {stream : Stream}
    (h : (e.run t stream).1.state = .init) : (e.run t stream).1 = t := by
  have hrank := rank_add_length_history_le e hascends stream
  rw [h] at hrank
  have hlength : (e.history t stream).length = 0 := by
    simp only [State.rank] at hrank
    omega
  exact run_fst_of_history_nil (List.length_eq_zero_iff.1 hlength)

end Engine

namespace Trade

/-- A trade that has just begun under a built-in table. -/
structure Begins (combination : Combination) (id : String) (terms : Terms) (counterparty : Peer)
    (t : Trade) : Prop where
  table : IsTable combination t.protocol
  id : t.id = id
  counterparty : t.counterparty = counterparty
  terms : t.termsFingerprint = terms.fingerprint
  state : t.state = .init
  live : t.finalized = false
  sequence : t.sequence = 0
  heard : t.lastPeerSequence = 0

theorem begins_of_create {registry : Registry} (hregistry : registry = .standard) {now : Instant}
    {combination : Combination} {id : String} {terms : Terms} {counterparty : Peer} {t : Trade}
    (h : create registry now id combination terms counterparty = .ok t) :
    t.Begins combination id terms counterparty := by
  subst hregistry
  obtain ⟨-, -, protocol, hlookup, rfl⟩ := create_eq_ok_iff.1 h
  have htable : IsTable combination protocol := isTable_of_lookup hlookup
  have hinitial : protocol.initial = .init := by
    cases htable with
    | reputation role => rfl
    | escrowSeller => rfl
    | escrowBuyer => rfl
  exact ⟨htable, rfl, rfl, rfl, hinitial, rfl, rfl, rfl⟩

end Trade

/-! ## The request and the answer -/

namespace Engine

variable {combination : Combination} {id : String} {terms : Terms} {counterparty : Peer}

/-- Taking an offer sends one message, the first of the trade, with the fingerprint of the terms. -/
theorem sent_of_takeOffer {e : Engine} {t t' : Trade}
    (hbegins : t.Begins combination id terms counterparty) (stream : Stream) {now : Instant}
    {command : Command} (hcommand : command.kind = .takeOffer) {c : Commit}
    (h : e.handle now (e.run t stream).1 (.command command) = (t', .committed c)) :
    c.sent = [{
      tradeId := id
      sequence := 1
      kind := .takeOfferRequest
      payload := Bytes.ofText terms.fingerprint
      signature := [] }] := by
  have hascends := ascends_of_isTable hbegins.table
  have hrequests := requests_of_isTable hbegins.table
  obtain ⟨tr, hc⟩ := exists_committed_of_handle h
  -- the entry is one of the taker's table, whatever happened to the trade before
  have hentry := Dict.get?_eq_some_iff.1 hc.entry
  rw [(sameDeal_run e t stream).protocol] at hentry
  obtain ⟨hinit, hsend⟩ := hrequests _ hentry (by simp [Event.kind, hcommand])
  have hsame : (e.run t stream).1 = t := run_fst_of_state_init hascends hinit
  rw [hsame] at h hc
  obtain ⟨u, hdeal, hsequence, hsent⟩ := composed_of_committed h hc.entry
  obtain ⟨deadlines, hafter⟩ := hc.after
  have hfirst : u.sequence = 1 := by
    rw [hsequence, hafter]
    show t.sequence + 1 = 1
    rw [hbegins.sequence]
    rfl
  rw [hsent, hsend]
  simp [compose, body, hfirst, hdeal.id, hdeal.termsFingerprint, hbegins.id, hbegins.terms]

/-- A maker at the start accepts a first request of the counterparty exactly if it carries the
fingerprint of the maker's terms. -/
theorem request_accepted_iff {e : Engine} {u : Trade} {combination : Combination}
    (hbegins : u.Begins combination id terms counterparty)
    (hrole : combination.role.isMaker = true) {m : Inbound} (hkind : m.kind = .takeOfferRequest)
    (hid : m.tradeId = id) (hsender : m.sender = counterparty) (hsequence : m.sequence = 1)
    (now : Instant) :
    (∃ u' c, e.handle now u (.inbound m) = (u', .committed c)) ↔
      m.payload = Bytes.ofText terms.fingerprint := by
  have hcompares := compares_of_isTable hbegins.table hrole
  obtain ⟨tr, hlookup, hguards⟩ := Option.map_eq_some_iff.1 hcompares
  have hentry : u.protocol.lookup u.state (Event.inbound m).kind = some tr := by
    rw [hbegins.state, Event.kind, hkind, hlookup]
  have hfresh : checkReplay u (.inbound m) = .ok () := by
    rw [checkReplay, hsequence, hbegins.heard]
    rfl
  -- the envelope is in order, so that everything hangs on the terms
  have henvelope : Guard.check e.context u (.inbound m) .envelope = .ok () := by
    apply Guard.check_envelope_eq_ok_iff.2
    exact ⟨hid.trans hbegins.id.symm, hsender.trans hbegins.counterparty.symm⟩
  have hterms : Guard.check e.context u (.inbound m) .termsMatch = .ok () ↔
      m.payload = Bytes.ofText terms.fingerprint := by
    simp [Guard.check, Guard.onMessage, hbegins.terms]
  rw [← hterms]
  constructor
  · rintro ⟨u', c, h⟩
    obtain ⟨tr', hc⟩ := exists_committed_of_handle h
    obtain rfl : tr' = tr := Option.some.inj (hc.entry.symm.trans hentry)
    apply checkGuards_eq_ok_iff.1 hc.guards
    simp [hguards]
  · intro hmatch
    have hall : checkGuards e.context u (.inbound m) tr.guards = .ok () := by
      apply checkGuards_eq_ok_iff.2
      simp [hguards, henvelope, hmatch]
    have hselect := select_eq_ok_iff.2 ⟨hbegins.live, hfresh, hentry, hall⟩
    exact ⟨_, _, handle_of_select now hselect⟩

/-- The handshake binds both sides to the same terms. Whatever happened to a taker's trade, taking the
offer sends one request; and a maker of the counterpart role who is still at the start, whatever was
refused until then, acts upon the request exactly if the maker's terms are the taker's in every part.
The stored forms from which the fingerprints are made leave nothing about terms open. -/
theorem request_committed_iff {taker maker : Engine} (htaker : taker.registry = .standard)
    (hmaker : maker.registry = .standard) {role : Role} {settlement : Settlement}
    (hrole : role.isMaker = false) {offered asked : Terms} {takerPeer makerPeer : Peer}
    {createdAt createdAt' : Instant} {t u : Trade}
    (ht : taker.create createdAt id ⟨role, settlement⟩ asked makerPeer = .ok t)
    (hu : maker.create createdAt' id ⟨role.counterpart, settlement⟩ offered takerPeer = .ok u)
    (hasked : ∀ s ∈ asked.texts, Fits s) (hoffered : ∀ s ∈ offered.texts, Fits s)
    (hdigest : Sha256.digest asked.encode = Sha256.digest offered.encode →
      asked.encode = offered.encode)
    (before waiting : Stream) (now now' : Instant) {command : Command}
    (hcommand : command.kind = .takeOffer) {t' : Trade} {c : Commit}
    (hcommit : taker.handle now (taker.run t before).1 (.command command) = (t', .committed c))
    (hinit : (maker.run u waiting).1.state = .init) :
    (asked.encode = offered.encode ↔ asked = offered) ∧
      ∃ m, c.sent = [m] ∧ m.kind = .takeOfferRequest ∧
        ((∃ u' c', maker.handle now' (maker.run u waiting).1 (.inbound (m.toInbound takerPeer)) =
          (u', .committed c')) ↔ asked = offered) := by
  have htbegins := Trade.begins_of_create htaker ht
  have hubegins := Trade.begins_of_create hmaker hu
  have hmakerRole : role.counterpart.isMaker = true := by
    simp [hrole]
  have hsame : (maker.run u waiting).1 = u :=
    run_fst_of_state_init (ascends_of_isTable hubegins.table) hinit
  refine ⟨Terms.encode_inj hasked hoffered, _, sent_of_takeOffer htbegins before hcommand hcommit,
    rfl, ?_⟩
  rw [hsame, request_accepted_iff hubegins hmakerRole rfl rfl rfl rfl]
  show Bytes.ofText asked.fingerprint = Bytes.ofText offered.fingerprint ↔ _
  constructor
  · intro h
    exact (Terms.fingerprint_inj hasked hoffered hdigest).1 (Bytes.ofText_inj h)
  · intro h
    rw [h]

/-- Before the offer is taken, the taker hears of a payment. -/
def rashPayment : Stream := [(.epoch, .inbound ⟨"trade_1", 1, ⟨"maker"⟩, .fiatSent, [], []⟩)]

/-- Before the offer is taken, a stranger tries to take it. -/
def strangersRequest : Stream :=
  [(.epoch, .inbound ⟨"trade_1", 7, ⟨"stranger"⟩, .takeOfferRequest, [], []⟩)]

theorem soundTerms_bind_both_sides :
    ∃ e : Engine, ∃ t u : Trade,
      e.create .epoch "trade_1" ⟨.buyerAsTaker, .multisigEscrow⟩ Trade.soundTerms ⟨"maker"⟩ = .ok t ∧
      e.create .epoch "trade_1" ⟨.sellerAsMaker, .multisigEscrow⟩ Trade.soundTerms ⟨"taker"⟩ = .ok u ∧
      (e.run u strangersRequest).1.state = .init ∧
      ∃ t' c, e.handle .epoch (e.run t rashPayment).1 (.command ⟨"take", .takeOffer, [], []⟩) =
        (t', .committed c) ∧
      ∃ m, c.sent = [m] ∧ m.kind = .takeOfferRequest ∧
      ∃ u' c', e.handle .epoch (e.run u strangersRequest).1 (.inbound (m.toInbound ⟨"taker"⟩)) =
        (u', .committed c') := by
  let e : Engine := { registry := .standard, verifier := { accepts := fun _ _ _ => false } }
  let t : Trade := .initial .epoch "trade_1" ⟨.buyerAsTaker, .multisigEscrow⟩ Trade.soundTerms
    ⟨"maker"⟩ Escrow.buyerAsTaker
  let u : Trade := .initial .epoch "trade_1" ⟨.sellerAsMaker, .multisigEscrow⟩ Trade.soundTerms
    ⟨"taker"⟩ Escrow.sellerAsMaker
  have ht : e.create .epoch "trade_1" ⟨.buyerAsTaker, .multisigEscrow⟩ Trade.soundTerms ⟨"maker"⟩ =
      .ok t :=
    Trade.create_soundTerms rfl Registry.lookup_multisigEscrow_buyerAsTaker
  have hu : e.create .epoch "trade_1" ⟨.sellerAsMaker, .multisigEscrow⟩ Trade.soundTerms ⟨"taker"⟩ =
      .ok u :=
    Trade.create_soundTerms rfl Registry.lookup_multisigEscrow_sellerAsMaker
  have htexts : ∀ s ∈ Trade.soundTerms.texts, Fits s := by decide
  have hinit : (e.run u strangersRequest).1.state = .init := by decide
  have htake : (e.select (e.run t rashPayment).1 (.command ⟨"take", .takeOffer, [], []⟩)).isOk := by
    decide
  cases hselect : e.select (e.run t rashPayment).1 (.command ⟨"take", .takeOffer, [], []⟩) with
  | error r =>
    rw [hselect] at htake
    cases htake
  | ok tr =>
    have hcommit := handle_of_select .epoch hselect
    obtain ⟨-, m, hsent, hkind, hbinds⟩ := request_committed_iff rfl rfl rfl ht hu htexts htexts
      (fun _ => rfl) rashPayment strangersRequest .epoch .epoch rfl hcommit hinit
    exact ⟨e, t, u, ht, hu, hinit, _, _, hcommit, m, hsent, hkind, hbinds.2 rfl⟩

end Engine

end PeerTrade
