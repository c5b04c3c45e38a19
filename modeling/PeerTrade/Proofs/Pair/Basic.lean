import PeerTrade.Proofs.Engine.Guards
import PeerTrade.Proofs.Engine.Run

/-!
# The two sides of a trade

Each side of a trade has an engine and a trade of its own. Between them is a network that loses,
repeats, delays and reorders what is sent, and that brings messages of anybody else; the one thing
it never does is to put the counterparty's handle on a message that the counterparty did not send.
Commands and deadlines may come at any time. Whatever happens then, a side has only received what
the other side has sent (`Pair.Linked`), and two conditions on the transition tables carry over
from the entries to the states: a state can require that a message was received, and a message that
was sent can leave only some states to its sender.
-/

namespace PeerTrade

/-! ## Sides -/

namespace History

/-- Everything that was sent, in the order of the commits. -/
def sent (h : History) : List Outbound := h.flatMap fun step => step.2.sent

/-- The kinds of the messages that were sent. -/
def sentKinds (h : History) : List MessageKind := (sent h).map (·.kind)

/-- The kinds of the messages that were acted upon. -/
def receivedKinds (h : History) : List MessageKind :=
  h.filterMap fun step =>
    match step.1 with
    | .inbound m => some m.kind
    | .command _ | .timeout _ => none

theorem sentKinds_concat (h : History) (event : Event) (c : Commit) :
    sentKinds (h ++ [(event, c)]) = sentKinds h ++ c.sent.map (·.kind) := by
  simp [sentKinds, sent]

theorem receivedKinds_append (h h' : History) :
    receivedKinds (h ++ h') = receivedKinds h ++ receivedKinds h' :=
  List.filterMap_append

theorem mem_receivedKinds_concat {h : History} {event : Event} {c : Commit} {k : MessageKind} :
    k ∈ receivedKinds (h ++ [(event, c)]) ↔ k ∈ receivedKinds h ∨ event.kind = .message k := by
  rw [receivedKinds_append, List.mem_append]
  cases event <;> simp [receivedKinds, Event.kind, eq_comm]

end History

/-- One side of a trade, with everything that it has committed. -/
structure Side where
  trade : Trade
  history : History := []

namespace Side

/-- The side after an event. -/
def handle (e : Engine) (now : Instant) (event : Event) (s : Side) : Side :=
  match e.handle now s.trade event with
  | (trade, .committed c) => ⟨trade, s.history ++ [(event, c)]⟩
  | (trade, .rejected _) => ⟨trade, s.history⟩

theorem handle_cases (e : Engine) (now : Instant) (event : Event) (s : Side) :
    (∃ t c, e.handle now s.trade event = (t, .committed c) ∧
      s.handle e now event = ⟨t, s.history ++ [(event, c)]⟩) ∨ s.handle e now event = s := by
  unfold handle
  cases hhandle : e.handle now s.trade event with
  | mk t outcome =>
    cases outcome with
    | committed c => exact .inl ⟨t, c, rfl, rfl⟩
    | rejected r =>
      apply Or.inr
      rw [Engine.eq_of_rejected hhandle]

/-- An event that can come to a side: nobody but the other side sends a message for the trade under
the handle of the counterparty. -/
def Admits (s other : Side) : Event → Prop
  | .inbound m => m.sender = s.trade.counterparty → m.tradeId = s.trade.id →
      ∃ o ∈ other.history.sent, m = o.toInbound s.trade.counterparty
  | .command _ | .timeout _ => True

end Side

/-- The two sides of a trade. -/
structure Pair where
  buyer : Side
  seller : Side

namespace Pair

/-- Something happens on one of the sides. -/
inductive Step (buyer seller : Engine) (p : Pair) : Pair → Prop where
  | buyer (now : Instant) (event : Event) : p.buyer.Admits p.seller event →
      Step buyer seller p { p with buyer := p.buyer.handle buyer now event }
  | seller (now : Instant) (event : Event) : p.seller.Admits p.buyer event →
      Step buyer seller p { p with seller := p.seller.handle seller now event }

/-- The pairs that two new trades can become. -/
inductive Reachable (buyer seller : Engine) (start : Pair) : Pair → Prop where
  | start : Reachable buyer seller start start
  | step {p p' : Pair} : Reachable buyer seller start p → Step buyer seller p p' →
      Reachable buyer seller start p'

end Pair

/-! ## What a table says about its states -/

namespace Protocol

/-- States that cannot be entered without a message of a kind. -/
def Requires (p : Protocol) (states : List State) (k : MessageKind) : Prop :=
  p.initial ∉ states ∧ ∀ e ∈ p.table.entries, e.2.target ∈ states →
    e.1.state ∈ states ∨ e.1.event = .message k

/-- States that are entered when a message of a kind is sent, and never left. -/
def Follows (p : Protocol) (k : MessageKind) (states : List State) : Prop :=
  ∀ e ∈ p.table.entries, e.2.send.map (·.kind) = some k ∨ e.1.state ∈ states →
    e.2.target ∈ states

instance (p : Protocol) (states : List State) (k : MessageKind) :
    Decidable (p.Requires states k) :=
  inferInstanceAs (Decidable (_ ∧ _))

instance (p : Protocol) (k : MessageKind) (states : List State) :
    Decidable (p.Follows k states) :=
  inferInstanceAs (Decidable (∀ e ∈ p.table.entries, _))

end Protocol

/-! ## What a table says about a side -/

namespace Side

/-- The state of a side is where its table and its history leave it. -/
structure Follows (protocol : Protocol) (s : Side) : Prop where
  table : s.trade.protocol = protocol
  requires (states : List State) (k : MessageKind) : protocol.Requires states k →
    s.trade.state ∈ states → k ∈ s.history.receivedKinds
  follows (k : MessageKind) (states : List State) : protocol.Follows k states →
    k ∈ s.history.sentKinds → s.trade.state ∈ states

theorem follows_new {t : Trade} (h : t.state = t.protocol.initial) :
    Follows t.protocol { trade := t } where
  table := rfl
  requires states k hrequires hstate := by
    rw [h] at hstate
    exact absurd hstate hrequires.1
  follows k states _ hsent := by cases hsent

variable {protocol : Protocol} {e : Engine} {now : Instant} {event : Event} {s other : Side}
  {t : Trade} {c : Commit}

theorem Follows.commit (hs : Follows protocol s)
    (hcommit : e.handle now s.trade event = (t, .committed c)) :
    Follows protocol ⟨t, s.history ++ [(event, c)]⟩ := by
  obtain ⟨tr, hc⟩ := Engine.exists_committed_of_handle hcommit
  obtain ⟨deadlines, hafter⟩ := hc.after
  have hstate : t.state = tr.target := by rw [hafter]
  have hentry : (⟨s.trade.state, event.kind⟩, tr) ∈ protocol.table.entries := by
    rw [← hs.table]
    exact Dict.get?_eq_some_iff.1 hc.entry
  constructor
  · rw [← hs.table, hafter]
  · intro states k hrequires htarget
    rw [hstate] at htarget
    rw [History.mem_receivedKinds_concat]
    -- the state was entered by this very message, or was required before
    rcases hrequires.2 _ hentry htarget with hbefore | hmessage
    · exact .inl (hs.requires states k hrequires hbefore)
    · exact .inr hmessage
  · intro k states hfollows hk
    rw [hstate]
    rw [History.sentKinds_concat] at hk
    -- the message was sent before, or is what this entry sends
    obtain ⟨u, -, -, hsent⟩ := hc.sent
    rcases List.mem_append.1 hk with hk | hk
    · exact hfollows _ hentry (.inr (hs.follows k states hfollows hk))
    · refine hfollows _ hentry (.inl ?_)
      rw [hsent] at hk
      cases hsend : tr.send with
      | none => simp [hsend] at hk
      | some emission =>
        have hkind : k = emission.kind := by simpa [hsend, Engine.compose] using hk
        rw [hkind]
        rfl

end Side

namespace Pair

/-! ## What is received was sent -/

/-- One side has acted only upon what the other side has sent. -/
def Linked (s other : Side) : Prop :=
  ∀ k ∈ s.history.receivedKinds, k ∈ other.history.sentKinds

variable {e : Engine} {now : Instant} {event : Event} {s other : Side} {protocol : Protocol}

/-- The envelope guard lets only messages of the other side through. -/
theorem mem_sentKinds_of_committed {t : Trade} {c : Commit} {k : MessageKind}
    (henveloped : s.trade.protocol.Enveloped) (hadmits : s.Admits other event)
    (hcommit : e.handle now s.trade event = (t, .committed c)) (hk : event.kind = .message k) :
    k ∈ other.history.sentKinds := by
  obtain ⟨tr, hc⟩ := Engine.exists_committed_of_handle hcommit
  cases event with
  | inbound m =>
    obtain ⟨hid, hsender⟩ := henveloped.authentic hc.entry hc.guards
    obtain ⟨o, ho, rfl⟩ := hadmits hsender hid
    cases hk
    exact List.mem_map_of_mem ho
  | command cmd => cases hk
  | timeout id => cases hk

theorem Linked.handle (h : Linked s other) (henveloped : s.trade.protocol.Enveloped)
    (hadmits : s.Admits other event) : Linked (s.handle e now event) other := by
  rcases s.handle_cases e now event with ⟨t, c, hcommit, heq⟩ | heq
  · rw [heq]
    intro k hk
    rcases History.mem_receivedKinds_concat.1 hk with hk | hk
    · exact h k hk
    · exact mem_sentKinds_of_committed henveloped hadmits hcommit hk
  · rw [heq]
    exact h

theorem Linked.handle_other (h : Linked s other) : Linked s (other.handle e now event) := by
  rcases other.handle_cases e now event with ⟨t, c, -, heq⟩ | heq
  · rw [heq]
    intro k hk
    -- nothing that was sent is taken back
    rw [History.sentKinds_concat]
    exact List.mem_append_left _ (h k hk)
  · rw [heq]
    exact h

theorem follows_handle (hs : s.Follows protocol) : (s.handle e now event).Follows protocol := by
  rcases s.handle_cases e now event with ⟨t, c, hcommit, heq⟩ | heq
  · rw [heq]
    exact hs.commit hcommit
  · rw [heq]
    exact hs

/-! ## Pairs that follow their tables -/

/-- Both sides are where their tables and the messages between them leave them. -/
structure Sound (buyer seller : Protocol) (p : Pair) : Prop where
  buyer : p.buyer.Follows buyer
  seller : p.seller.Follows seller
  toBuyer : Linked p.buyer p.seller
  toSeller : Linked p.seller p.buyer

variable {buyer seller : Engine} {buyerTable sellerTable : Protocol} {p p' start : Pair}

theorem Sound.step (h : Sound buyerTable sellerTable p) (hbuyer : buyerTable.Enveloped)
    (hseller : sellerTable.Enveloped) (hstep : Step buyer seller p p') :
    Sound buyerTable sellerTable p' := by
  cases hstep with
  | buyer now event hadmits =>
    have henveloped : p.buyer.trade.protocol.Enveloped := by rwa [h.buyer.table]
    exact ⟨follows_handle h.buyer, h.seller, h.toBuyer.handle henveloped hadmits,
      h.toSeller.handle_other⟩
  | seller now event hadmits =>
    have henveloped : p.seller.trade.protocol.Enveloped := by rwa [h.seller.table]
    exact ⟨h.buyer, follows_handle h.seller, h.toBuyer.handle_other,
      h.toSeller.handle henveloped hadmits⟩

theorem Reachable.sound (h : Reachable buyer seller start p)
    (hstart : Sound buyerTable sellerTable start) (hbuyer : buyerTable.Enveloped)
    (hseller : sellerTable.Enveloped) : Sound buyerTable sellerTable p := by
  induction h with
  | start => exact hstart
  | step _ hstep ih => exact ih.step hbuyer hseller hstep

/-- If the buyer cannot be in some states without a message, then the seller has sent it, and is
where that leaves a seller. -/
theorem Sound.seller_mem (h : Sound buyerTable sellerTable p) {k : MessageKind}
    {states states' : List State} (hrequires : buyerTable.Requires states k)
    (hfollows : sellerTable.Follows k states') (hbuyer : p.buyer.trade.state ∈ states) :
    p.seller.trade.state ∈ states' :=
  h.seller.follows k states' hfollows
    (h.toBuyer k (h.buyer.requires states k hrequires hbuyer))

theorem Sound.buyer_mem (h : Sound buyerTable sellerTable p) {k : MessageKind}
    {states states' : List State} (hrequires : sellerTable.Requires states k)
    (hfollows : buyerTable.Follows k states') (hseller : p.seller.trade.state ∈ states) :
    p.buyer.trade.state ∈ states' :=
  h.buyer.follows k states' hfollows
    (h.toSeller k (h.seller.requires states k hrequires hseller))

end Pair

end PeerTrade
