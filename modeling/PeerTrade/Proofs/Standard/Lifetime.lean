import PeerTrade.Proofs.Standard.Payment
import PeerTrade.Proofs.Standard.Progress

/-!
# How long trades live

Only the last commands are kept against repetitions, and a sequence has only so many bits. Under the
built-in tables neither is ever felt: the ranks of the states that a trade enters ascend, and every entry
starts below the last stages, so that a trade has seven commits at most (`Engine.Climbed`). All its
commands fit into the window, and none of them is acted upon twice
(`Engine.trades_are_shortLived`).
-/

namespace PeerTrade

open History Checks Standard

/-! ## The states that a trade enters -/

/-- The state that a trade starts in, and those that its commits lead to. -/
def History.visited (start : State) (h : History) : List State := start :: h.map (·.2.target)

namespace History

variable {start : State} {h : History}

theorem visited_concat (step : Event × Commit) :
    visited start (h ++ [step]) = visited start h ++ [step.2.target] := by
  rw [visited, List.map_append]
  rfl

theorem getLast?_visited : (visited start h).getLast? = some (h.reached start) := by
  rcases List.eq_nil_or_concat h with rfl | ⟨before, step, rfl⟩
  · rfl
  · rw [List.concat_eq_append, visited_concat, reached_concat, List.getLast?_concat]

end History

/-- No entry starts from a state of a certain rank or above. -/
def Protocol.StartsBelow (p : Protocol) (n : Nat) : Prop :=
  ∀ e ∈ p.table.entries, e.1.state.rank < n

instance (p : Protocol) (n : Nat) : Decidable (p.StartsBelow n) :=
  inferInstanceAs (Decidable (∀ e ∈ p.table.entries, _))

theorem Standard.startsBelow_of_isTable {c : Combination} {p : Protocol} (h : IsTable c p) :
    p.StartsBelow 7 := by
  cases h with
  | reputation role => cases role <;> decide
  | escrowSeller => decide
  | escrowBuyer => decide

namespace Engine

variable {e : Engine} {t t' : Trade} {now : Instant} {event : Event} {c : Commit} {h : History}
  {start : State} {n : Nat}

/-! ## Climbing -/

/-- The ranks of the states ascend, up to that of the present one. -/
structure Climbed (start : State) (n : Nat) (t : Trade) (h : History) : Prop where
  ascending : (h.visited start).Pairwise fun s s' => s.rank < s'.rank
  below : ∀ s ∈ h.visited start, s.rank ≤ t.state.rank
  counted : h.length ≤ t.state.rank
  few : h.length ≤ n

theorem climbed_nil (t : Trade) (n : Nat) : Climbed t.state n t [] where
  ascending := List.pairwise_singleton _ _
  below _ hs := Nat.le_of_eq (congrArg State.rank (List.mem_singleton.1 hs))
  counted := Nat.zero_le _
  few := Nat.zero_le _

theorem Climbed.commit (hascends : t.protocol.Ascends) (hstarts : t.protocol.StartsBelow n)
    (hclimbed : Climbed start n t h) (hcommit : e.handle now t event = (t', .committed c)) :
    Climbed start n t' (h ++ [(event, c)]) := by
  have hlt : t.state.rank < t'.state.rank := rank_lt_of_committed hascends hcommit
  obtain ⟨tr, hselect, rfl, rfl⟩ := exists_commit_of_handle hcommit
  have hc := committed_of_select now hselect
  have hlow : t.state.rank < n := hstarts _ (Dict.get?_eq_some_iff.1 hc.entry)
  have htarget : (e.commit now t event tr).2.target = (e.commit now t event tr).1.state := by
    obtain ⟨deadlines, hafter⟩ := hc.after
    rw [hafter, commit_snd]
  have hcounted := hclimbed.counted
  refine ⟨?_, ?_, ?_, ?_⟩
  · rw [visited_concat, htarget]
    -- whatever was visited before is no higher than the state that the commit leaves
    refine List.pairwise_append.2 ⟨hclimbed.ascending, List.pairwise_singleton _ _, ?_⟩
    intro s hs s' hs'
    rw [List.mem_singleton.1 hs']
    exact Nat.lt_of_le_of_lt (hclimbed.below s hs) hlt
  · intro s hs
    rw [visited_concat, htarget] at hs
    rcases List.mem_append.1 hs with hs | hs
    · exact Nat.le_of_lt (Nat.lt_of_le_of_lt (hclimbed.below s hs) hlt)
    · exact Nat.le_of_eq (congrArg State.rank (List.mem_singleton.1 hs))
  · rw [List.length_append, List.length_singleton]
    omega
  · rw [List.length_append, List.length_singleton]
    omega

theorem climbed_run (hascends : t.protocol.Ascends) (hstarts : t.protocol.StartsBelow n) (e : Engine)
    (stream : Stream) : Climbed t.state n (e.run t stream).1 (e.history t stream) :=
  run_induction_deal
    (fun _ _ _ _ _ _ hdeal hclimbed hcommit =>
      hclimbed.commit (by rwa [hdeal.protocol]) (by rwa [hdeal.protocol]) hcommit)
    (climbed_nil t n) stream

/-! ## Commands -/

/-- As long as there are no more commands than fit into the window, all of them are remembered. -/
theorem Remembers.consumed_eq (hr : Remembers t h) (hfew : h.length ≤ Trade.window) :
    t.consumed = commandIds h := by
  have hlength : (commandIds h).length ≤ h.length := List.length_filterMap_le ..
  rw [hr.consumed, recentCommandIds, Nat.sub_eq_zero_of_le (Nat.le_trans hlength hfew), List.drop_zero]

/-- A command that is remembered is refused, unless the trade has ended and refuses everything. -/
theorem handle_of_mem_consumed (e : Engine) (now : Instant) {cmd : Command}
    (hconsumed : cmd.id ∈ t.consumed) :
    ∃ r, e.handle now t (.command cmd) = (t, .rejected r) ∧
      r.reason = if t.finalized then .finalized else .duplicate := by
  cases hopen : t.finalized with
  | true => exact ⟨_, by rw [handle, select_of_finalized e _ hopen], rfl⟩
  | false =>
    have hreplay : checkReplay t (.command cmd) =
        .error ⟨.duplicate, "command " ++ cmd.id ++ " already consumed"⟩ :=
      if_pos (List.contains_iff_mem.2 hconsumed)
    exact ⟨_, by rw [handle, select_of_checkReplay e hopen hreplay], rfl⟩

/-- What the short life of a trade comes to. -/
structure ShortLived (t : Trade) (h : History) : Prop where
  /-- The trade has never been twice in one state. -/
  states : (h.visited t.protocol.initial).Nodup
  state : (h.visited t.protocol.initial).getLast? = some t.state
  commits : h.length ≤ 7
  sequence : t.sequence.toNat = h.length
  /-- Every command is remembered that was ever acted upon. -/
  remembered : t.consumed = commandIds h
  commands : (commandIds h).Nodup
  /-- No engine acts upon one of them again. -/
  refused : ∀ cmd : Command, cmd.id ∈ commandIds h → ∀ (e : Engine) (now : Instant),
    ∃ r, e.handle now t (.command cmd) = (t, .rejected r) ∧
      r.reason = if t.finalized then .finalized else .duplicate

/-- However long the stream is, and however often its commands come again, a trade under a built-in table
has at most seven commits, enters no state twice and acts upon no command twice. -/
theorem trades_are_shortLived {created : Instant} {id : String} {combination : Combination}
    {terms : Terms} {counterparty : Peer}
    (hcreate : Trade.create .standard created id combination terms counterparty = .ok t)
    (e : Engine) (stream : Stream) : ShortLived (e.run t stream).1 (e.history t stream) := by
  obtain ⟨hlookup, hinitial⟩ := Trade.lookup_of_create hcreate
  have htable := isTable_of_lookup hlookup
  have hprotocol : (e.run t stream).1.protocol = t.protocol := (sameDeal_run e t stream).protocol
  have htraced := traced_run hcreate (concludes_of_isTable htable).1 e stream
  have hclimbed := climbed_run (ascends_of_isTable htable) (startsBelow_of_isTable htable) e stream
  rw [hinitial, ← hprotocol] at hclimbed
  have hfew : (e.history t stream).length ≤ Trade.window := Nat.le_trans hclimbed.few (by decide)
  have hremembered := htraced.remembers.consumed_eq hfew
  refine ⟨?_, ?_, hclimbed.few, ?_, hremembered, ?_, ?_⟩
  · refine hclimbed.ascending.imp fun {s s'} hlt heq => ?_
    rw [heq] at hlt
    exact Nat.lt_irrefl _ hlt
  · rw [getLast?_visited, htraced.state]
  · exact (htraced.coherent (Nat.lt_of_le_of_lt hclimbed.few (by decide))).sequence
  · rw [← hremembered]
    exact htraced.consumed
  · intro cmd hcmd e' now
    exact handle_of_mem_consumed e' now (by rwa [hremembered])

/-- A buyer's side of a trade that goes all the way, with two commands that come again. -/
def longPurchase : Stream :=
  let message := fun (sequence : UInt64) (kind : MessageKind) =>
    Event.inbound ⟨"trade_1", sequence, ⟨"maker"⟩, kind, [1], []⟩
  [(.epoch, .command ⟨"take", .takeOffer, [], []⟩),
    (.epoch, message 1 .takeOfferResponse),
    (.epoch, .command ⟨"take", .confirmFiatSent, [], []⟩),
    (.epoch, message 2 .accountData),
    (.epoch, .command ⟨"paid", .confirmFiatSent, [], []⟩),
    (.epoch, message 3 .fiatReceiptConfirmed),
    (.epoch, .command ⟨"paid", .openDispute, [], []⟩),
    (.epoch, message 4 .btcSent),
    (.epoch, .command ⟨"received", .confirmBtcReceipt, [], []⟩)]

theorem longPurchase_is_shortLived :
    ∃ t, ∃ e : Engine,
      Trade.create .standard .epoch "trade_1" ⟨.buyerAsTaker, .reputationFiat⟩ Trade.soundTerms
        ⟨"maker"⟩ = .ok t ∧
      (e.run t longPurchase).1.state = .completed ∧ (e.history t longPurchase).length = 7 ∧
      ShortLived (e.run t longPurchase).1 (e.history t longPurchase) := by
  let e : Engine := { registry := .standard, verifier := { accepts := fun _ _ _ => true } }
  let t : Trade := .initial .epoch "trade_1" ⟨.buyerAsTaker, .reputationFiat⟩ Trade.soundTerms
    ⟨"maker"⟩ (Reputation.table .buyerAsTaker)
  have hcreate : Trade.create .standard .epoch "trade_1" ⟨.buyerAsTaker, .reputationFiat⟩
      Trade.soundTerms ⟨"maker"⟩ = .ok t :=
    Trade.create_soundTerms rfl (Registry.lookup_reputationFiat _)
  exact ⟨t, e, hcreate, by decide, by decide, trades_are_shortLived hcreate e longPurchase⟩

end Engine

end PeerTrade
