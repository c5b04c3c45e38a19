import PeerTrade.Proofs.Standard.Payment

/-!
# The way out

Each side can leave a trade without the other in one of two ways: it cancels the trade, or it opens a
dispute. The built-in tables offer one of them in every state that a trade can be in, and never both
(`Protocol.HasOneExit`): a cancellation as long as nothing was paid, and a dispute afterwards. The same
goes for what the counterparty says (`Engine.one_exit_remains`).
-/

namespace PeerTrade

open Standard

/-! ## Exits -/

/-- A way to leave a trade without the other side. -/
inductive Exit where
  | cancellation
  | dispute
  deriving DecidableEq, Repr

namespace Exit

/-- The exit that is not this one. -/
def other : Exit → Exit
  | cancellation => dispute
  | dispute => cancellation

/-- The command by which the user leaves. -/
def command : Exit → CommandKind
  | cancellation => .cancelTrade
  | dispute => .openDispute

/-- The message by which the counterparty hears of it. -/
def message : Exit → MessageKind
  | cancellation => .tradeCancelled
  | dispute => .disputeOpened

/-- What the message carries. -/
def payload : Exit → PayloadSource
  | cancellation => .empty
  | dispute => .command

/-- Payload and signature of the message. -/
def body (cmd : Command) : Exit → Bytes × Bytes
  | cancellation => ([], [])
  | dispute => (cmd.payload, cmd.signature)

/-- Where the exit leads to. -/
def target : Exit → State
  | cancellation => .cancelled
  | dispute => .disputed

end Exit

/-- The exit from a state: a dispute behind the payment, and a cancellation in front of it. -/
def State.exit (s : State) : Exit := if s.AfterPayment then .dispute else .cancellation

/-! ## Tables -/

namespace Protocol

/-- The exit is open in a state, to either side and for good. -/
def Offers (p : Protocol) (s : State) (x : Exit) : Prop :=
  p.isTerminal x.target = true ∧
    p.lookup s (.command x.command) = some { target := x.target, send := some ⟨x.message, x.payload⟩ } ∧
    p.lookup s (.message x.message) = some { target := x.target, guards := [.envelope] }

instance (p : Protocol) (s : State) (x : Exit) : Decidable (p.Offers s x) :=
  inferInstanceAs (Decidable (_ ∧ _ ∧ _))

/-- The exit is shut in a state. -/
def Withholds (p : Protocol) (s : State) (x : Exit) : Prop :=
  p.lookup s (.command x.command) = none ∧ p.lookup s (.message x.message) = none

instance (p : Protocol) (s : State) (x : Exit) : Decidable (p.Withholds s x) :=
  inferInstanceAs (Decidable (_ ∧ _))

/-- Every state but the last ones has an exit, and no other. -/
def HasOneExit (p : Protocol) : Prop :=
  ∀ s ∈ (Catalog.all : List State), p.isTerminal s = true ∨
    (p.Offers s s.exit ∧ p.Withholds s s.exit.other)

instance (p : Protocol) : Decidable p.HasOneExit :=
  inferInstanceAs (Decidable (∀ s ∈ (Catalog.all : List State), _))

end Protocol

theorem Standard.hasOneExit_of_isTable {c : Combination} {p : Protocol} (h : IsTable c p) :
    p.HasOneExit := by
  cases h with
  | reputation role => cases role <;> decide +kernel
  | escrowSeller => decide +kernel
  | escrowBuyer => decide +kernel

/-! ## Trades -/

/-- A commit by which a trade has been left, with what it says to the counterparty. -/
structure Exit.Taken (x : Exit) (t' : Trade) (c : Commit) (sent : List Outbound) : Prop where
  target : c.target = x.target
  state : t'.state = x.target
  finalized : c.finalized = true ∧ t'.finalized = true
  sent : c.sent = sent

namespace Engine

variable {t : Trade} {event : Event} {h : History} {x : Exit}

/-- Whatever is new to an open trade, and has an entry that leads to an exit, ends the trade there. -/
theorem exists_taken {tr : Transition} (e : Engine) (now : Instant) (hopen : t.finalized = false)
    (hfresh : checkReplay t event = .ok ()) (hentry : t.protocol.lookup t.state event.kind = some tr)
    (hguards : ∀ g ∈ tr.guards, g.check e.context t event = .ok ()) (htarget : tr.target = x.target)
    (hterminal : t.protocol.isTerminal x.target = true) :
    ∃ t' c u, e.handle now t event = (t', .committed c) ∧ t.SameDeal u ∧ u.sequence = c.sequence ∧
      x.Taken t' c (tr.send.toList.map (compose u event)) := by
  have hselect : e.select t event = .ok tr :=
    select_eq_ok_iff.2 ⟨hopen, hfresh, hentry, checkGuards_eq_ok_iff.2 hguards⟩
  have hcommit := handle_of_select now hselect
  obtain ⟨u, hdeal, hsequence, hsent⟩ := composed_of_committed hcommit hentry
  obtain ⟨deadlines, hafter⟩ := (committed_of_select now hselect).after
  refine ⟨_, _, u, hcommit, hdeal, ?_, ?_⟩
  · rw [hsequence, commit_snd]
  · constructor
    · rw [commit_snd, htarget]
    · rw [hafter, htarget]
    · rw [commit_snd, hafter, htarget]
      exact ⟨hterminal, hterminal⟩
    · exact hsent

/-- Whatever is new to an open trade and has no entry is refused for want of one. -/
theorem exists_rejected (e : Engine) (now : Instant) (hopen : t.finalized = false)
    (hfresh : checkReplay t event = .ok ()) (hentry : t.protocol.lookup t.state event.kind = none) :
    ∃ r, e.handle now t event = (t, .rejected r) ∧ r.reason = missingEntry event.kind := by
  refine ⟨⟨missingEntry event.kind,
    event.kind.text ++ " is not accepted in state " ++ Catalog.name t.state⟩, ?_, rfl⟩
  rw [handle, select, hopen, hfresh, hentry]
  rfl

/-- An exit is the only one that is open. Whoever takes it with something new, be it the user or the
counterparty, ends the trade, whatever the engine; whoever tries the other one is refused. -/
structure OnlyExit (x : Exit) (t : Trade) (h : History) : Prop where
  command : ∀ cmd : Command, cmd.kind = x.command → h.Fresh (.command cmd) →
    ∀ (e : Engine) (now : Instant), ∃ t' c, e.handle now t (.command cmd) = (t', .committed c) ∧
      x.Taken t' c [⟨t.id, c.sequence, x.message, (x.body cmd).1, (x.body cmd).2⟩]
  message : ∀ m : Inbound, m.kind = x.message → m.tradeId = t.id → m.sender = t.counterparty →
    h.Fresh (.inbound m) → ∀ (e : Engine) (now : Instant),
      ∃ t' c, e.handle now t (.inbound m) = (t', .committed c) ∧ x.Taken t' c []
  otherCommand : ∀ cmd : Command, cmd.kind = x.other.command → h.Fresh (.command cmd) →
    ∀ (e : Engine) (now : Instant), ∃ r, e.handle now t (.command cmd) = (t, .rejected r) ∧
      r.reason = .invalidOperation
  otherMessage : ∀ m : Inbound, m.kind = x.other.message → h.Fresh (.inbound m) →
    ∀ (e : Engine) (now : Instant), ∃ r, e.handle now t (.inbound m) = (t, .rejected r) ∧
      r.reason = .noMatchingTransition

theorem onlyExit_of_offers (hremembers : Remembers t h) (hopen : t.finalized = false)
    (hoffers : t.protocol.Offers t.state x) (hwithholds : t.protocol.Withholds t.state x.other) :
    OnlyExit x t h := by
  obtain ⟨hterminal, hcommand, hmessage⟩ := hoffers
  have hnew : ∀ {event}, h.Fresh event → checkReplay t event = .ok () :=
    fun {event} hfresh => (hremembers.checkReplay_eq_ok_iff event).2 hfresh
  constructor
  · intro cmd hkind hfresh e now
    have hentry : t.protocol.lookup t.state (Event.command cmd).kind = _ :=
      (congrArg (fun k => t.protocol.lookup t.state (.command k)) hkind).trans hcommand
    obtain ⟨t', c, u, hcommit, hdeal, hsequence, htaken⟩ :=
      exists_taken e now hopen (hnew hfresh) hentry nofun rfl hterminal
    refine ⟨t', c, hcommit, htaken.target, htaken.state, htaken.finalized, htaken.sent.trans ?_⟩
    rw [← hdeal.id, ← hsequence]
    cases x <;> rfl
  · intro m hkind htrade hsender hfresh e now
    have hentry : t.protocol.lookup t.state (Event.inbound m).kind = _ :=
      (congrArg (fun k => t.protocol.lookup t.state (.message k)) hkind).trans hmessage
    have hguards : ∀ g ∈ [Guard.envelope], g.check e.context t (.inbound m) = .ok () := by
      intro g hg
      rw [List.mem_singleton.1 hg]
      exact Guard.check_envelope_eq_ok_iff.2 ⟨htrade, hsender⟩
    obtain ⟨t', c, u, hcommit, -, -, htaken⟩ :=
      exists_taken e now hopen (hnew hfresh) hentry hguards rfl hterminal
    exact ⟨t', c, hcommit, htaken⟩
  · intro cmd hkind hfresh e now
    have hentry : t.protocol.lookup t.state (Event.command cmd).kind = none :=
      (congrArg (fun k => t.protocol.lookup t.state (.command k)) hkind).trans hwithholds.1
    exact exists_rejected e now hopen (hnew hfresh) hentry
  · intro m hkind hfresh e now
    have hentry : t.protocol.lookup t.state (Event.inbound m).kind = none :=
      (congrArg (fun k => t.protocol.lookup t.state (.message k)) hkind).trans hwithholds.2
    exact exists_rejected e now hopen (hnew hfresh) hentry

/-- As long as a trade under a built-in table goes on, whatever has happened in it, each side can leave it
alone, and in one way only: by a cancellation before the payment, and by a dispute after it. -/
theorem one_exit_remains {created : Instant} {id : String} {combination : Combination} {terms : Terms}
    {counterparty : Peer}
    (hcreate : Trade.create .standard created id combination terms counterparty = .ok t)
    (e : Engine) (stream : Stream) (hopen : (e.run t stream).1.finalized = false) :
    OnlyExit (if (e.history t stream).Has combination.payment then .dispute else .cancellation)
      (e.run t stream).1 (e.history t stream) := by
  obtain ⟨hlookup, hinitial⟩ := Trade.lookup_of_create hcreate
  have htable := isTable_of_lookup hlookup
  have htraced := traced_run hcreate (concludes_of_isTable htable).1 e stream
  have hprotocol : (e.run t stream).1.protocol = t.protocol := (sameDeal_run e t stream).protocol
  have hexit : (e.run t stream).1.state.exit =
      if (e.history t stream).Has combination.payment then .dispute else .cancellation := by
    simp only [State.exit, afterPayment_run_iff (settles_of_isTable htable) hinitial e stream]
  -- the table offers a way out, since the trade has not ended
  have hgoes : (e.run t stream).1.protocol.isTerminal (e.run t stream).1.state = false := by
    rw [← htraced.finalized, hopen]
  have htable' : (e.run t stream).1.protocol.HasOneExit := by
    rw [hprotocol]
    exact hasOneExit_of_isTable htable
  rcases htable' (e.run t stream).1.state (Catalog.mem_all _) with hends | ⟨hoffers, hwithholds⟩
  · rw [hgoes] at hends
    cases hends
  · rw [← hexit]
    exact onlyExit_of_offers htraced.remembers hopen hoffers hwithholds

/-- A buyer takes an offer, hears where to pay, and pays. -/
def purchasePaid : Stream := [
  (.epoch, .command ⟨"take", .takeOffer, [], []⟩),
  (.epoch, .inbound ⟨"trade_1", 1, ⟨"maker"⟩, .takeOfferResponse, [], []⟩),
  (.epoch, .inbound ⟨"trade_1", 2, ⟨"maker"⟩, .accountData, [1], []⟩),
  (.epoch, .command ⟨"paid", .confirmFiatSent, [], []⟩)]

/-- In front of the payment the buyer can cancel the trade, and behind it open a dispute. -/
theorem purchasePaid_exits :
    ∃ t, ∃ e : Engine,
      Trade.create .standard .epoch "trade_1" ⟨.buyerAsTaker, .reputationFiat⟩ Trade.soundTerms
        ⟨"maker"⟩ = .ok t ∧
      (e.run t (purchasePaid.take 3)).1.finalized = false ∧
      (e.run t (purchasePaid.take 3)).1.state = .accountDataReceived ∧
      OnlyExit .cancellation (e.run t (purchasePaid.take 3)).1 (e.history t (purchasePaid.take 3)) ∧
      (e.run t purchasePaid).1.finalized = false ∧ (e.run t purchasePaid).1.state = .fiatSent ∧
      OnlyExit .dispute (e.run t purchasePaid).1 (e.history t purchasePaid) := by
  let e : Engine := { registry := .standard, verifier := { accepts := fun _ _ _ => true } }
  let t : Trade := .initial .epoch "trade_1" ⟨.buyerAsTaker, .reputationFiat⟩ Trade.soundTerms
    ⟨"maker"⟩ (Reputation.table .buyerAsTaker)
  have hcreate : Trade.create .standard .epoch "trade_1" ⟨.buyerAsTaker, .reputationFiat⟩
      Trade.soundTerms ⟨"maker"⟩ = .ok t :=
    Trade.create_soundTerms rfl (Registry.lookup_reputationFiat _)
  have hunpaid : ¬(e.history t (purchasePaid.take 3)).Has
      (Combination.payment ⟨.buyerAsTaker, .reputationFiat⟩) := by decide
  have hpaid : (e.history t purchasePaid).Has
      (Combination.payment ⟨.buyerAsTaker, .reputationFiat⟩) := by decide
  have hopen : (e.run t (purchasePaid.take 3)).1.finalized = false := by decide
  have hopen' : (e.run t purchasePaid).1.finalized = false := by decide
  have hcancellation := one_exit_remains hcreate e (purchasePaid.take 3) hopen
  have hdispute := one_exit_remains hcreate e purchasePaid hopen'
  rw [if_neg hunpaid] at hcancellation
  rw [if_pos hpaid] at hdispute
  exact ⟨t, e, hcreate, hopen, by decide, hcancellation, hopen', by decide, hdispute⟩

end Engine

end PeerTrade
