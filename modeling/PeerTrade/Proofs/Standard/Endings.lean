import PeerTrade.Proofs.Standard.Expiry
import PeerTrade.Proofs.Standard.Payment

/-!
# Where deadlines lead to

Under a built-in table it does not matter by which way a trade came into a state: the deadlines that are
armed there are those whose expiry the table lets through in that state, neither more nor fewer
(`Protocol.ArmsHeeded`). Each of them ends the trade when it expires, in failure as long as nothing was
paid and in a dispute afterwards (`Engine.deadlines_end_trades`).
-/

namespace PeerTrade

open Standard

/-! ## Tables -/

namespace Protocol

/-- No expiry is let through in the initial state. Every entry that any event can pass, and that does not
end the trade, leads to a state that lets the expiry of those deadlines through that are armed then,
provided that those were armed before whose expiry its own state lets through. -/
def ArmsHeeded (p : Protocol) : Prop :=
  (∀ k ∈ (Catalog.all : List DeadlineKind), p.heeds p.initial k = false) ∧
    ∀ e ∈ p.table.entries, (∃ g ∈ e.2.guards, g.Bars e.1.state) ∨ p.isTerminal e.2.target = true ∨
      ∀ k ∈ (Catalog.all : List DeadlineKind), p.heeds e.2.target k = true ↔
        k ∈ e.2.arm ∨ (p.heeds e.1.state k = true ∧ k ∉ e.2.clear ∧ e.1.event ≠ .timeout k)

instance (p : Protocol) : Decidable p.ArmsHeeded :=
  inferInstanceAs (Decidable
    (_ ∧ ∀ e ∈ p.table.entries, _ ∨ _ ∨ ∀ k ∈ (Catalog.all : List DeadlineKind), _))

/-- Every expiry ends the trade, in a dispute behind the payment and in failure in front of it. -/
def EndsOnExpiry (p : Protocol) : Prop :=
  ∀ e ∈ p.table.entries, ∀ k ∈ (Catalog.all : List DeadlineKind), e.1.event = .timeout k →
    p.isTerminal e.2.target = true ∧
      e.2.target = if e.1.state.AfterPayment then .disputed else .failed

instance (p : Protocol) : Decidable p.EndsOnExpiry :=
  inferInstanceAs (Decidable (∀ e ∈ p.table.entries, ∀ k ∈ (Catalog.all : List DeadlineKind), _))

end Protocol

namespace Standard

variable {c : Combination} {p : Protocol}

theorem armsHeeded_of_isTable (h : IsTable c p) : p.ArmsHeeded := by
  cases h with
  | reputation role => cases role <;> decide +kernel
  | escrowSeller => decide +kernel
  | escrowBuyer => decide +kernel

theorem endsOnExpiry_of_isTable (h : IsTable c p) : p.EndsOnExpiry := by
  cases h with
  | reputation role => cases role <;> decide
  | escrowSeller => decide
  | escrowBuyer => decide

/-- The kinds of deadlines whose expiry the table of a combination lets through in a state. -/
def awaited (c : Combination) (s : State) : List DeadlineKind :=
  match Registry.standard.lookup c with
  | .ok p => Catalog.all.filter (p.heeds s)
  | .error _ => []

theorem mem_awaited_iff {s : State} {k : DeadlineKind} (h : Registry.standard.lookup c = .ok p) :
    k ∈ awaited c s ↔ p.heeds s k = true := by
  rw [awaited, h]
  exact List.mem_filter.trans (and_iff_right (Catalog.mem_all k))

example : awaited ⟨.sellerAsMaker, .multisigEscrow⟩ .depositConfirmed = [.fiatPayment] := by decide

end Standard

/-! ## Trades -/

namespace Engine

variable {e : Engine} {t t' : Trade} {now : Instant} {event : Event} {c : Commit} {id : DeadlineId}

/-- Whether a deadline is armed after a commit depends on the entry, and on whether one of its kind was
armed before. -/
theorem isSome_liveId?_commit_iff {tr : Transition} {k : DeadlineKind} :
    ((e.commit now t event tr).1.liveId? k).isSome = true ↔
      t.protocol.isTerminal tr.target = false ∧
        (k ∈ tr.arm ∨ ((t.liveId? k).isSome = true ∧ k ∉ tr.clear ∧ event.kind ≠ .timeout k)) := by
  rw [liveId?_commit_eq]
  split
  next hterminal => simp [hterminal]
  next hopen =>
    rw [and_iff_right (Bool.eq_false_iff.2 hopen)]
    split
    next harm => simp [harm]
    next hunarmed =>
      rw [or_iff_right hunarmed]
      split
      next hgone => exact iff_of_false Bool.false_ne_true fun h => hgone.elim h.2.1 h.2.2
      next hkept => exact (and_iff_left (not_or.1 hkept)).symm

/-- The deadlines that are armed are those whose expiry the table lets through. -/
def ArmedAsHeeded (t : Trade) : Prop :=
  ∀ k, (t.liveId? k).isSome = true ↔ t.protocol.heeds t.state k = true

theorem ArmedAsHeeded.commit (harms : t.protocol.ArmsHeeded) (h : ArmedAsHeeded t)
    (hcommit : e.handle now t event = (t', .committed c)) : ArmedAsHeeded t' := by
  obtain ⟨tr, hselect, rfl, -⟩ := exists_commit_of_handle hcommit
  have hc := committed_of_select now hselect
  obtain ⟨deadlines, hafter⟩ := hc.after
  intro k
  have hheeds : (e.commit now t event tr).1.protocol.heeds (e.commit now t event tr).1.state k =
      t.protocol.heeds tr.target k := by rw [hafter]
  rw [isSome_liveId?_commit_iff, hheeds, h k]
  cases hterminal : t.protocol.isTerminal tr.target with
  | true =>
    -- nothing is armed in the end, and the table lets nothing through
    have hnone := (t.protocol.isTerminal_iff tr.target).1 hterminal (.timeout k)
    simp [Protocol.heeds, hnone]
  | false =>
    rcases harms.2 _ (Dict.get?_eq_some_iff.1 hc.entry) with ⟨g, hg, hbars⟩ | hends | hnext
    · -- a guard of the entry would have refused every event
      exact absurd hbars (Guard.not_bars_of_check (checkGuards_eq_ok_iff.1 hc.guards g hg))
    · rw [hterminal] at hends
      cases hends
    · rw [and_iff_right rfl, hnext k (Catalog.mem_all k)]

theorem armedAsHeeded_run {registry : Registry} {created : Instant} {id : String}
    {combination : Combination} {terms : Terms} {counterparty : Peer}
    (hcreate : Trade.create registry created id combination terms counterparty = .ok t)
    (harms : t.protocol.ArmsHeeded) (e : Engine) (stream : Stream) :
    ArmedAsHeeded (e.run t stream).1 := by
  refine run_induction_deal (P := fun t' _ => ArmedAsHeeded t') ?_ ?_ stream
  · intro u _ now event u' c hdeal harmed hcommit
    exact harmed.commit (by rwa [hdeal.protocol]) hcommit
  · -- nothing is armed when the trade begins
    obtain ⟨-, -, protocol, -, rfl⟩ := Trade.create_eq_ok_iff.1 hcreate
    intro k
    exact iff_of_false Bool.false_ne_true (Bool.eq_false_iff.1 (harms.1 k (Catalog.mem_all k)))

/-- The expiry of an armed deadline ends the trade. -/
theorem handle_timeout_ends (hheedful : t.Heedful) (hends : t.protocol.EndsOnExpiry) (e : Engine)
    (now : Instant) (hlive : t.liveId? id.kind = some id) :
    ∃ t' c, e.handle now t (.timeout id) = (t', .committed c) ∧
      t'.state = (if t.state.AfterPayment then .disputed else .failed) ∧
      t'.finalized = true ∧ t'.armed = [] := by
  obtain ⟨tr, hselect⟩ := hheedful.select_timeout e hlive
  have hc := committed_of_select now hselect
  obtain ⟨deadlines, hafter⟩ := hc.after
  obtain ⟨hterminal, htarget⟩ := hends _ (Dict.get?_eq_some_iff.1 hc.entry) id.kind
    (Catalog.mem_all _) rfl
  refine ⟨_, _, handle_of_select now hselect, ?_, ?_, Trade.armed_eq_nil fun k => ?_⟩
  · rw [hafter]
    exact htarget
  · rw [hafter]
    exact hterminal
  · rw [liveId?_commit_eq, if_pos hterminal]

/-- Every deadline that a trade under a built-in table has armed ends the trade when it expires, under
whichever engine: in a dispute if the payment has been committed, and in failure if not. Which kinds of
deadlines are armed depends on nothing but the combination and the state. -/
theorem deadlines_end_trades {created : Instant} {tradeId : String} {combination : Combination}
    {terms : Terms} {counterparty : Peer}
    (hcreate : Trade.create .standard created tradeId combination terms counterparty = .ok t)
    (e : Engine) (stream : Stream) :
    (∀ id ∈ (e.run t stream).1.armed, ∀ (e' : Engine) (now : Instant),
      ∃ t' c, e'.handle now (e.run t stream).1 (.timeout id) = (t', .committed c) ∧
        t'.state =
          (if (e.history t stream).Has combination.payment then .disputed else .failed) ∧
        t'.finalized = true ∧ t'.armed = []) ∧
    ∀ kind, (∃ id ∈ (e.run t stream).1.armed, id.kind = kind) ↔
      kind ∈ awaited combination (e.run t stream).1.state := by
  obtain ⟨hlookup, hinitial⟩ := Trade.lookup_of_create hcreate
  have htable := isTable_of_lookup hlookup
  have hprotocol : (e.run t stream).1.protocol = t.protocol := (sameDeal_run e t stream).protocol
  have hheedful : (e.run t stream).1.Heedful := ((Trade.Lived.created hcreate).run e stream).heedful
  have hpaid := afterPayment_run_iff (settles_of_isTable htable) hinitial e stream
  refine ⟨fun id hid e' now => ?_, fun kind => ?_⟩
  · have hends : (e.run t stream).1.protocol.EndsOnExpiry := by
      rw [hprotocol]
      exact endsOnExpiry_of_isTable htable
    simp only [← hpaid]
    exact handle_timeout_ends hheedful hends e' now (hheedful.mem_armed_iff.1 hid)
  · have harmed := armedAsHeeded_run hcreate (armsHeeded_of_isTable htable) e stream kind
    rw [hprotocol] at harmed
    rw [mem_awaited_iff hlookup, ← harmed, Option.isSome_iff_exists]
    constructor
    · rintro ⟨id, hid, rfl⟩
      exact ⟨id, hheedful.mem_armed_iff.1 hid⟩
    · rintro ⟨id, hlive⟩
      obtain rfl := (hheedful.named kind id hlive).1
      exact ⟨id, hheedful.mem_armed_iff.2 hlive, rfl⟩

/-- A buyer takes an offer in an escrow. -/
def offerTaken : Stream := [
  (.epoch, .command ⟨"take", .takeOffer, [], []⟩),
  (.epoch, .inbound ⟨"trade_1", 1, ⟨"maker"⟩, .takeOfferResponse, [], []⟩)]

/-- The buyer signs the deposit and pays. -/
def escrowPaid : Stream := offerTaken ++ [
  (.epoch, .command ⟨"deposit", .signDeposit, [1], [1]⟩),
  (.epoch, .command ⟨"pay", .confirmFiatSent, [], []⟩)]

/-- The trade fails if there is no deposit in time, and is disputed if there is no payout. -/
theorem escrow_expires :
    ∃ t, ∃ e : Engine,
      Trade.create .standard .epoch "trade_1" ⟨.buyerAsTaker, .multisigEscrow⟩ Trade.soundTerms
        ⟨"maker"⟩ = .ok t ∧
      (e.run t offerTaken).1.armed = [⟨.deposit, 2⟩] ∧
      (∃ t' c, e.handle .epoch (e.run t offerTaken).1 (.timeout ⟨.deposit, 2⟩) =
        (t', .committed c) ∧ t'.state = .failed ∧ t'.finalized = true ∧ t'.armed = []) ∧
      (e.run t escrowPaid).1.armed = [⟨.payout, 4⟩] ∧
      ∃ t' c, e.handle .epoch (e.run t escrowPaid).1 (.timeout ⟨.payout, 4⟩) =
        (t', .committed c) ∧ t'.state = .disputed ∧ t'.finalized = true ∧ t'.armed = [] := by
  let e : Engine := { registry := .standard, verifier := { accepts := fun _ _ _ => false } }
  let t : Trade := .initial .epoch "trade_1" ⟨.buyerAsTaker, .multisigEscrow⟩ Trade.soundTerms
    ⟨"maker"⟩ Escrow.buyerAsTaker
  have hcreate : Trade.create .standard .epoch "trade_1" ⟨.buyerAsTaker, .multisigEscrow⟩
      Trade.soundTerms ⟨"maker"⟩ = .ok t :=
    Trade.create_soundTerms rfl Registry.lookup_multisigEscrow_buyerAsTaker
  have hdeposit : (e.run t offerTaken).1.armed = [⟨.deposit, 2⟩] := by decide
  have hpayout : (e.run t escrowPaid).1.armed = [⟨.payout, 4⟩] := by decide
  have hunpaid : ¬(e.history t offerTaken).Has
      (Combination.payment ⟨.buyerAsTaker, .multisigEscrow⟩) := by decide
  have hpaid : (e.history t escrowPaid).Has
      (Combination.payment ⟨.buyerAsTaker, .multisigEscrow⟩) := by decide
  have hfails := (deadlines_end_trades hcreate e offerTaken).1 ⟨.deposit, 2⟩
    (by rw [hdeposit]; exact List.mem_cons_self) e .epoch
  have hdisputes := (deadlines_end_trades hcreate e escrowPaid).1 ⟨.payout, 4⟩
    (by rw [hpayout]; exact List.mem_cons_self) e .epoch
  rw [if_neg hunpaid] at hfails
  rw [if_pos hpaid] at hdisputes
  exact ⟨t, e, hcreate, hdeposit, hfails, hpayout, hdisputes⟩

end Engine

end PeerTrade
