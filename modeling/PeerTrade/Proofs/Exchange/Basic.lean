import Mathlib.Logic.Relation
import PeerTrade.Proofs.Pair.Basic
import PeerTrade.Proofs.Standard.Progress

/-!
# Two sides and the lines between them

An exchange consists of the two sides of a trade and of two lines, one to each side. What a side
sends joins the line to the other side, and arrives in its turn: nothing is lost, repeated or
overtaken. Users give commands at any time, as far as a condition permits them, and no deadline
expires. Whatever the tables look like, the sequences on a line ascend from those that the receiver
has acted upon (`Exchange.Sound`), so that nothing that arrives is taken for a repetition.
-/

namespace PeerTrade

/-! ## The two parties -/

/-- A party to a trade. -/
inductive Party where
  | buyer
  | seller
  deriving DecidableEq, Repr

namespace Party

def other : Party → Party
  | buyer => seller
  | seller => buyer

@[simp] theorem other_other (p : Party) : p.other.other = p := by cases p <;> rfl

/-- What holds of a party and of the other one holds of both. -/
theorem forall_of {P : Party → Prop} (p : Party) (hself : P p) (hother : P p.other) (q : Party) :
    P q := by
  cases p <;> cases q <;> assumption

instance (P : Party → Prop) [DecidablePred P] : Decidable (∀ p, P p) :=
  decidable_of_iff (P buyer ∧ P seller)
    ⟨fun h => forall_of buyer h.1 h.2, fun h => ⟨h buyer, h seller⟩⟩

end Party

/-- Something that each of the parties has. -/
structure Both (α : Type) where
  buyer : α
  seller : α
  deriving DecidableEq, Repr

namespace Both

variable {α : Type} (b : Both α) (p : Party) (a : α)

/-- What a party has. -/
def of : Party → α
  | .buyer => b.buyer
  | .seller => b.seller

/-- Gives a party something else. -/
def put : Both α :=
  match p with
  | .buyer => { b with buyer := a }
  | .seller => { b with seller := a }

@[simp] theorem of_put_self : (b.put p a).of p = a := by cases p <;> rfl

@[simp] theorem of_put_other : (b.put p a).of p.other = b.of p.other := by cases p <;> rfl

@[simp] theorem of_other_put : (b.put p.other a).of p = b.of p := by cases p <;> rfl

theorem ext {b b' : Both α} (h : ∀ p, b.of p = b'.of p) : b = b' := by
  have hbuyer : b.buyer = b'.buyer := h .buyer
  have hseller : b.seller = b'.seller := h .seller
  cases b
  cases b'
  rw [mk.injEq]
  exact ⟨hbuyer, hseller⟩

end Both

/-! ## Exchanges -/

/-- Who decides for the parties, and the handles that they are known by. -/
structure Setup where
  engines : Both Engine
  handles : Both Peer

/-- The two sides of a trade, and what is on its way to either of them, oldest first. -/
structure Exchange where
  sides : Both Side
  lines : Both (List Outbound) := ⟨[], []⟩

namespace Exchange

/-- The trade of a party. -/
def trade (x : Exchange) (p : Party) : Trade := (x.sides.of p).trade

/-- Two trades about which nothing has been said yet. -/
def new (buyer seller : Trade) : Exchange := { sides := ⟨{ trade := buyer }, { trade := seller }⟩ }

/-- A party handles an event. What it sends joins the line to the other party. -/
def feed (setup : Setup) (p : Party) (now : Instant) (event : Event) (x : Exchange) : Exchange :=
  match (setup.engines.of p).handle now (x.trade p) event with
  | (trade, .committed c) =>
    { sides := x.sides.put p ⟨trade, (x.sides.of p).history ++ [(event, c)]⟩
      lines := x.lines.put p.other (x.lines.of p.other ++ c.sent) }
  | (_, .rejected _) => x

/-- The exchange with nothing but the rest of a line. -/
def proceed (x : Exchange) (p : Party) (rest : List Outbound) : Exchange :=
  { x with lines := x.lines.put p rest }

/-- What the oldest message of a line is to the party that it arrives at. -/
def arrival (setup : Setup) (p : Party) (m : Outbound) : Event :=
  .inbound (m.toInbound (setup.handles.of p.other))

/-- A user gives a command that is permitted, or the oldest message of a line arrives. -/
inductive Step (setup : Setup) (permits : Party → Command → Prop) (x : Exchange) :
    Exchange → Prop where
  | command (p : Party) (now : Instant) (c : Command) : permits p c →
      Step setup permits x (x.feed setup p now (.command c))
  | deliver (p : Party) (now : Instant) (m : Outbound) (rest : List Outbound) :
      x.lines.of p = m :: rest →
      Step setup permits x ((x.proceed p rest).feed setup p now (arrival setup p m))

/-- What an exchange can become. -/
abbrev Reachable (setup : Setup) (permits : Party → Command → Prop) : Exchange → Exchange → Prop :=
  Relation.ReflTransGen (Step setup permits)

variable {setup : Setup} {permits permits' : Party → Command → Prop} {x x' : Exchange} {p : Party}
  {now : Instant} {event : Event}

/-- What becomes of an exchange when a party commits to an event. -/
structure Fed (setup : Setup) (p : Party) (now : Instant) (event : Event) (x x' : Exchange)
    (tr : Transition) (c : Commit) : Prop where
  handled : (setup.engines.of p).handle now (x.trade p) event = (x'.trade p, .committed c)
  committed : Engine.Committed (setup.engines.of p) now (x.trade p) event tr (x'.trade p) c
  /-- The messages are what the entry calls for, under the deal of the party. -/
  composed : ∃ u, (x.trade p).SameDeal u ∧ u.sequence = (x'.trade p).sequence ∧
    c.sent = tr.send.toList.map (Engine.compose u event)
  history : (x'.sides.of p).history = (x.sides.of p).history ++ [(event, c)]
  /-- The other side is what it was. -/
  other : x'.sides.of p.other = x.sides.of p.other
  line : x'.lines.of p = x.lines.of p
  otherLine : x'.lines.of p.other = x.lines.of p.other ++ c.sent

theorem feed_cases (setup : Setup) (p : Party) (now : Instant) (event : Event) (x : Exchange) :
    (∃ tr c, Fed setup p now event x (x.feed setup p now event) tr c) ∨
    (∃ t r, (setup.engines.of p).handle now (x.trade p) event = (t, .rejected r)) ∧
      x.feed setup p now event = x := by
  unfold feed
  cases hhandle : (setup.engines.of p).handle now (x.trade p) event with
  | mk t outcome =>
    cases outcome with
    | committed c =>
      obtain ⟨tr, hc⟩ := Engine.exists_committed_of_handle hhandle
      have hcomposed := Engine.composed_of_committed hhandle hc.entry
      refine .inl ⟨tr, c, ?_⟩
      constructor
      · simpa [trade] using hhandle
      · simpa [trade] using hc
      · simpa [trade] using hcomposed
      · simp
      · simp
      · simp
      · simp
    | rejected r => exact .inr ⟨⟨t, r, rfl⟩, rfl⟩

theorem Step.mono (hpermits : ∀ p c, permits p c → permits' p c)
    (h : Step setup permits x x') : Step setup permits' x x' := by
  cases h with
  | command p now c hc => exact .command p now c (hpermits p c hc)
  | deliver p now m rest hline => exact .deliver p now m rest hline

theorem Reachable.mono (hpermits : ∀ p c, permits p c → permits' p c)
    (h : Reachable setup permits x x') : Reachable setup permits' x x' :=
  Relation.ReflTransGen.mono (fun _ _ => Step.mono hpermits) _ _ h

/-! ## Sound exchanges -/

/-- The sequence that a party has acted upon last, and those that are on their way to it. -/
def marks (x : Exchange) (p : Party) : List UInt64 :=
  (x.trade p).lastPeerSequence :: (x.lines.of p).map (·.sequence)

/-- Both sides have the deal they began with, have not gone on beyond the end, and what is on its
way ascends between what its receiver has seen and where its sender is. -/
structure Sound (setup : Setup) (tables : Both Protocol) (x : Exchange) : Prop where
  table (p : Party) : (x.trade p).protocol = tables.of p
  counterparty (p : Party) : (x.trade p).counterparty = setup.handles.of p.other
  id (p : Party) : (x.trade p).id = (x.trade p.other).id
  fingerprint (p : Party) : (x.trade p).termsFingerprint = (x.trade p.other).termsFingerprint
  ended (p : Party) : (x.trade p).finalized = true →
    (tables.of p).isTerminal (x.trade p).state = true
  paced (p : Party) : (x.trade p).Paced
  ascending (p : Party) : (x.marks p).Pairwise (· < ·)
  bounded (p : Party) : ∀ n ∈ x.marks p, n ≤ (x.trade p.other).sequence

variable {tables : Both Protocol}

theorem Sound.proceed (h : Sound setup tables x) {m : Outbound} {rest : List Outbound}
    (hline : x.lines.of p = m :: rest) : Sound setup tables (x.proceed p rest) := by
  -- the marks of the receiver are fewer than before, and those of the other party are the same
  have hmarks : ∀ q, ((x.proceed p rest).marks q).Sublist (x.marks q) := by
    refine p.forall_of ?_ ?_
    · simp [marks, Exchange.proceed, hline, trade]
    · simp [marks, Exchange.proceed, trade]
  exact
    { table := h.table
      counterparty := h.counterparty
      id := h.id
      fingerprint := h.fingerprint
      ended := h.ended
      paced := h.paced
      ascending q := (h.ascending q).sublist (hmarks q)
      bounded q n hn := h.bounded q n ((hmarks q).subset hn) }

/-- What a party has seen after an event comes before what is on its way to that party, and was
sent by the other one. -/
structure Timely (x : Exchange) (p : Party) (event : Event) : Prop where
  ascending : ((Engine.consume (x.trade p) event).lastPeerSequence ::
    (x.lines.of p).map (·.sequence)).Pairwise (· < ·)
  bounded : (Engine.consume (x.trade p) event).lastPeerSequence ≤ (x.trade p.other).sequence

theorem Sound.timely_command (h : Sound setup tables x) (p : Party) (c : Command) :
    x.Timely p (.command c) where
  ascending := h.ascending p
  bounded := h.bounded p _ List.mem_cons_self

theorem Sound.timely_arrival (h : Sound setup tables x) {m : Outbound} {rest : List Outbound}
    (hline : x.lines.of p = m :: rest) : (x.proceed p rest).Timely p (arrival setup p m) := by
  have hmarks : x.marks p = (x.trade p).lastPeerSequence :: m.sequence :: rest.map (·.sequence) := by
    simp [marks, hline]
  have hascending := h.ascending p
  have hbounded := h.bounded p m.sequence (by simp [hmarks])
  rw [hmarks] at hascending
  refine ⟨?_, hbounded⟩
  have hrest : (x.proceed p rest).lines.of p = rest := Both.of_put_self ..
  rw [hrest]
  exact hascending.of_cons

/-- A message that arrives is no repetition. -/
theorem Sound.checkReplay_arrival (h : Sound setup tables x) {m : Outbound} {rest : List Outbound}
    (hline : x.lines.of p = m :: rest) :
    Engine.checkReplay (x.trade p) (arrival setup p m) = .ok () := by
  have hascending := h.ascending p
  rw [marks, hline, List.map_cons] at hascending
  have hlt : (x.trade p).lastPeerSequence < m.sequence :=
    (List.pairwise_cons.1 hascending).1 _ List.mem_cons_self
  rw [arrival, Engine.checkReplay, Checks.ite_error_eq_ok_iff, UInt64.not_le]
  exact ⟨hlt, rfl⟩

/-! ## What a commit keeps -/

namespace Fed

variable {tr : Transition} {c : Commit}

theorem trade_other (h : Fed setup p now event x x' tr c) : x'.trade p.other = x.trade p.other :=
  congrArg Side.trade h.other

theorem deal (h : Fed setup p now event x x' tr c) : (x.trade p).SameDeal (x'.trade p) :=
  Engine.sameDeal_of_committed h.handled

theorem marks_self (h : Fed setup p now event x x' tr c) :
    x'.marks p =
      (Engine.consume (x.trade p) event).lastPeerSequence :: (x.lines.of p).map (·.sequence) := by
  obtain ⟨deadlines, hafter⟩ := h.committed.after
  rw [marks, h.line, hafter]

theorem marks_other (h : Fed setup p now event x x' tr c) :
    x'.marks p.other = x.marks p.other ++ c.sent.map (·.sequence) := by
  rw [marks, marks, h.trade_other, h.otherLine, List.map_append, List.cons_append]

/-- The messages of a commit carry the sequence that the trade has from then on. -/
theorem sequence_of_sent (h : Fed setup p now event x x' tr c) :
    ∀ n ∈ c.sent.map (·.sequence), n = (x'.trade p).sequence := by
  obtain ⟨u, -, hu, hsent⟩ := h.composed
  rw [hsent, ← hu]
  cases tr.send <;> simp [Engine.compose]

theorem pairwise_sent (h : Fed setup p now event x x' tr c) :
    (c.sent.map (·.sequence)).Pairwise (· < ·) := by
  obtain ⟨u, -, -, hsent⟩ := h.composed
  rw [hsent]
  cases tr.send <;> simp

/-- Everything that was on its way before came from an earlier commit. -/
theorem lt_sequence (h : Fed setup p now event x x' tr c) (hsound : Sound setup tables x) :
    ∀ n ∈ x.marks p.other, n < (x'.trade p).sequence := by
  obtain ⟨deadlines, hafter⟩ := h.committed.after
  have hsequence : (x'.trade p).sequence = (x.trade p).sequence + 1 := by rw [hafter]
  have hsucc := (hsound.paced p).toNat_succ
  intro n hn
  have hle := hsound.bounded p.other n hn
  rw [Party.other_other, UInt64.le_iff_toNat_le] at hle
  rw [UInt64.lt_iff_toNat_lt, hsequence, hsucc]
  omega

theorem sound (h : Fed setup p now event x x' tr c) (hsound : Sound setup tables x)
    (hascends : ∀ p, (tables.of p).Ascends) (htimely : x.Timely p event) :
    Sound setup tables x' := by
  have hdeal := h.deal
  have hother := h.trade_other
  constructor
  · refine p.forall_of ?_ ?_
    · rw [hdeal.protocol, hsound.table]
    · rw [hother, hsound.table]
  · refine p.forall_of ?_ ?_
    · rw [hdeal.counterparty, hsound.counterparty]
    · rw [hother, hsound.counterparty]
  · refine p.forall_of ?_ ?_
    · rw [hother, hdeal.id, hsound.id]
    · rw [hother, Party.other_other, hdeal.id, hsound.id p]
  · refine p.forall_of ?_ ?_
    · rw [hother, hdeal.termsFingerprint, hsound.fingerprint]
    · rw [hother, Party.other_other, hdeal.termsFingerprint, hsound.fingerprint p]
  · refine p.forall_of ?_ ?_
    · -- a commit ends the trade exactly if it leads to a terminal state
      obtain ⟨deadlines, hafter⟩ := h.committed.after
      rw [← hsound.table p, hafter]
      exact fun hended => hended
    · rw [hother]
      exact hsound.ended p.other
  · refine p.forall_of ?_ ?_
    · have hp : (x.trade p).protocol.Ascends := by
        rw [hsound.table p]
        exact hascends p
      exact (hsound.paced p).commit hp h.handled
    · rw [hother]
      exact hsound.paced p.other
  · refine p.forall_of ?_ ?_
    · rw [h.marks_self]
      exact htimely.ascending
    · rw [h.marks_other, List.pairwise_append]
      refine ⟨hsound.ascending p.other, h.pairwise_sent, fun n hn k hk => ?_⟩
      rw [h.sequence_of_sent k hk]
      exact h.lt_sequence hsound n hn
  · refine p.forall_of ?_ ?_
    · rw [h.marks_self, hother]
      intro n hn
      rcases List.mem_cons.1 hn with rfl | hn
      · exact htimely.bounded
      · exact hsound.bounded p n (List.mem_cons_of_mem _ hn)
    · rw [h.marks_other, Party.other_other]
      intro n hn
      rcases List.mem_append.1 hn with hn | hn
      · exact UInt64.le_of_lt (h.lt_sequence hsound n hn)
      · rw [h.sequence_of_sent n hn]
        exact UInt64.le_refl _

end Fed

theorem Sound.feed (h : Sound setup tables x) (hascends : ∀ p, (tables.of p).Ascends)
    (htimely : x.Timely p event) : Sound setup tables (x.feed setup p now event) := by
  rcases feed_cases setup p now event x with ⟨tr, c, hfed⟩ | ⟨-, heq⟩
  · exact hfed.sound h hascends htimely
  · rw [heq]
    exact h

theorem Sound.step (h : Sound setup tables x) (hascends : ∀ p, (tables.of p).Ascends)
    (hstep : Step setup permits x x') : Sound setup tables x' := by
  cases hstep with
  | command p now c _ => exact h.feed hascends (h.timely_command p c)
  | deliver p now m rest hline =>
    exact (h.proceed hline).feed hascends (h.timely_arrival hline)

theorem Sound.reachable (h : Sound setup tables x) (hascends : ∀ p, (tables.of p).Ascends)
    (hreach : Reachable setup permits x x') : Sound setup tables x' := by
  induction hreach with
  | refl => exact h
  | tail _ hstep ih => exact ih.step hascends hstep

/-! ## Playing an exchange -/

/-- What happens next: a command, or the arrival of the oldest message to a party. -/
inductive Move where
  | command (p : Party) (c : Command)
  | deliver (p : Party)

/-- Carries moves out one after the other. -/
def play (setup : Setup) (x : Exchange) : List Move → Exchange
  | [] => x
  | .command p c :: rest => play setup (x.feed setup p .epoch (.command c)) rest
  | .deliver p :: rest =>
    match x.lines.of p with
    | [] => play setup x rest
    | m :: line =>
      play setup ((x.proceed p line).feed setup p .epoch (arrival setup p m)) rest

theorem reachable_play {moves : List Move}
    (hpermits : ∀ p c, Move.command p c ∈ moves → permits p c) (x : Exchange) :
    Reachable setup permits x (x.play setup moves) := by
  induction moves generalizing x with
  | nil => exact .refl
  | cons move rest ih =>
    have hrest := ih fun p c hc => hpermits p c (List.mem_cons_of_mem _ hc)
    cases move with
    | command p c =>
      exact .head (.command p .epoch c (hpermits p c List.mem_cons_self)) (hrest _)
    | deliver p =>
      rw [play]
      split
      next => exact hrest x
      next m line hline => exact .head (.deliver p .epoch m line hline) (hrest _)

/-! ## Exchanges of new trades -/

/-- Two new trades about one deal make a sound exchange. -/
theorem sound_new {created created' : Instant} {id : String} {c c' : Combination} {terms : Terms}
    {table table' : Protocol} :
    Sound setup ⟨table, table'⟩
      (.new (.initial created id c terms setup.handles.seller table)
        (.initial created' id c' terms setup.handles.buyer table')) := by
  constructor <;> intro q <;> cases q <;>
    simp [new, trade, marks, Both.of, Party.other, Trade.initial, Trade.Paced]

end Exchange

end PeerTrade
