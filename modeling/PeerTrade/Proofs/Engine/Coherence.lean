import PeerTrade.Proofs.Engine.Consumption
import PeerTrade.Proofs.Engine.Milestones

/-!
# What always holds of a trade

Under every table, and after any events, what a trade says of itself fits its history
(`Engine.Coherent`): its sequence counts the commits, each of which goes on from the state that the one
before it led to; it has ended exactly if its table offers no way out of its state; and its deadlines,
the commands that it remembers and the greatest sequence of a message are those of the history.
Nothing about the table is needed but a way out of the state in which trades start.
-/

namespace PeerTrade

/-! ## Where a history leads to -/

namespace History

/-- The state that the commits of a history lead to. -/
def reached (start : State) (h : History) : State := (h.getLast?.map (·.2.target)).getD start

/-- A commit goes on along an entry of the table from where the history in front of it led to. -/
structure Continues (p : Protocol) (before : History) (event : Event) (c : Commit) : Prop where
  source : c.source = before.reached p.initial
  entry : ∃ tr, p.lookup c.source event.kind = some tr ∧ tr.target = c.target

theorem reached_concat (start : State) (h : History) (step : Event × Commit) :
    reached start (h ++ [step]) = step.2.target := by
  rw [reached, List.getLast?_concat]
  rfl

/-- A history leads to the initial state of the table, or to the target of one of its entries. -/
theorem Each.reached_eq {p : Protocol} {h : History} (hh : Each (Continues p) h) :
    h.reached p.initial = p.initial ∨
      ∃ entry ∈ p.table.entries, entry.2.target = h.reached p.initial := by
  rcases List.eq_nil_or_concat h with rfl | ⟨before, step, rfl⟩
  · exact .inl rfl
  · rw [List.concat_eq_append] at hh ⊢
    obtain ⟨tr, hentry, htarget⟩ := hh.of_concat.2.entry
    rw [reached_concat]
    exact .inr ⟨_, Dict.get?_eq_some_iff.1 hentry, htarget⟩

end History

open History Checks

namespace Engine

variable {e : Engine} {t t' : Trade} {now : Instant} {event : Event} {c : Commit} {h : History}

/-! ## Commits -/

/-- What a trade says of itself, as its history has it. -/
structure Traced (t : Trade) (h : History) : Prop extends Recorded t h where
  counted : Each (fun before _ c => c.sequence = .ofNat (before.length + 1)) h
  continues : Each (Continues t.protocol) h
  state : t.state = h.reached t.protocol.initial
  finalized : t.finalized = t.protocol.isTerminal t.state
  /-- Only an open trade has deadlines, each named after one of the commits. -/
  deadlines : ∀ k id, t.liveId? k = some id →
    t.finalized = false ∧ ∃ n, 1 ≤ n ∧ n ≤ h.length ∧ id = ⟨k, .ofNat n⟩
  consumed : t.consumed.Nodup
  lastPeerSequence : t.lastPeerSequence = (messageSequences h).foldl max 0

theorem traced_initial (id : String) (combination : Combination) (terms : Terms)
    (counterparty : Peer) {protocol : Protocol}
    (hopen : protocol.isTerminal protocol.initial = false) :
    Traced (.initial now id combination terms counterparty protocol) [] where
  toRecorded := recorded_initial ..
  counted := each_nil _
  continues := each_nil _
  state := rfl
  finalized := hopen.symm
  deadlines := nofun
  consumed := .nil
  lastPeerSequence := rfl

theorem nodup_consume (hfresh : checkReplay t event = .ok ()) (hnodup : t.consumed.Nodup) :
    (consume t event).consumed.Nodup := by
  cases event with
  | inbound m => exact hnodup
  | timeout id => exact hnodup
  | command cmd =>
    -- a command that is remembered would have been refused
    rw [checkReplay, ite_error_eq_ok_iff, and_iff_left rfl, Trade.hasConsumed,
      List.contains_iff_mem] at hfresh
    have hconcat : (t.consumed ++ [cmd.id]).Nodup :=
      List.nodup_append.2 ⟨hnodup, List.pairwise_singleton _ _, fun id hid id' hid' heq => by
        rw [heq, List.mem_singleton.1 hid'] at hid
        exact hfresh hid⟩
    exact hconcat.sublist (List.drop_sublist _ _)

theorem lastPeerSequence_consume (hfresh : checkReplay t event = .ok ()) (c : Commit)
    (hlast : t.lastPeerSequence = (messageSequences h).foldl max 0) :
    (consume t event).lastPeerSequence = (messageSequences (h ++ [(event, c)])).foldl max 0 := by
  rw [messageSequences_append, List.foldl_append, ← hlast]
  cases event with
  | command cmd => rfl
  | timeout id => rfl
  | inbound m =>
    -- the message is above all others, or it would have been refused
    rw [checkReplay, ite_error_eq_ok_iff, and_iff_left rfl, UInt64.not_le] at hfresh
    exact (if_pos (UInt64.le_of_lt hfresh)).symm

theorem Traced.commit (ht : Traced t h) (hcommit : e.handle now t event = (t', .committed c)) :
    Traced t' (h ++ [(event, c)]) := by
  obtain ⟨tr, hselect, rfl, rfl⟩ := exists_commit_of_handle hcommit
  have hc := committed_of_select now hselect
  obtain ⟨deadlines, hafter⟩ := hc.after
  have hnumber : t.sequence + 1 = UInt64.ofNat (h.length + 1) := by
    rw [ht.sequence, UInt64.ofNat_add]
    rfl
  have hlength : (h ++ [(event, (e.commit now t event tr).2)]).length = h.length + 1 := by simp
  have hsource : (e.commit now t event tr).2.source = h.reached t.protocol.initial := by
    rw [commit_snd, ht.state]
  refine ⟨ht.toRecorded.commit hcommit, ht.counted.concat (hc.sequence.trans hnumber), ?_, ?_, ?_,
    fun k id hlive => ?_, ?_, ?_⟩
  · rw [(sameDeal_of_committed hcommit).protocol]
    refine ht.continues.concat ⟨hsource, tr, ?_, by rw [commit_snd]⟩
    rw [hsource, ← ht.state]
    exact hc.entry
  · rw [reached_concat, hafter, commit_snd]
  · rw [hafter]
  · -- a deadline is armed by this commit, or was armed by an earlier one
    obtain ⟨hopen, hcause⟩ := of_liveId?_commit hlive
    refine ⟨by rw [hafter]; exact hopen, ?_⟩
    rcases hcause with ⟨-, rfl⟩ | ⟨hbefore, -⟩
    · exact ⟨h.length + 1, by omega, by omega, by rw [hnumber]⟩
    · obtain ⟨-, n, hpos, hle, hid⟩ := ht.deadlines k id hbefore
      exact ⟨n, hpos, by omega, hid⟩
  · rw [hafter]
    exact nodup_consume hc.replay ht.consumed
  · rw [hafter]
    exact lastPeerSequence_consume hc.replay _ ht.lastPeerSequence

/-! ## Runs -/

/-- A trade that has ended stays as it is, and refuses everything for that reason. -/
theorem run_of_finalized (e : Engine) (hfinalized : t.finalized = true) (stream : Stream) :
    (e.run t stream).1 = t ∧
      ∀ o ∈ (e.run t stream).2, ∃ r, o = .rejected r ∧ r.reason = .finalized := by
  induction stream with
  | nil => exact ⟨rfl, nofun⟩
  | cons arrival rest ih =>
    obtain ⟨now, event⟩ := arrival
    rw [run_cons, handle, select_of_finalized e event hfinalized]
    exact ⟨ih.1, List.forall_mem_cons.2 ⟨⟨_, rfl, rfl⟩, ih.2⟩⟩

/-- The parts of a trade fit each other, its table and its history. -/
structure Coherent (t : Trade) (h : History) : Prop where
  /-- The sequence counts the commits. -/
  sequence : t.sequence.toNat = h.length
  numbered : Each (fun before _ c => c.sequence.toNat = before.length + 1) h
  /-- Each commit goes on from where the one before it led to. -/
  continues : Each (Continues t.protocol) h
  state : t.state = h.reached t.protocol.initial
  entered : t.state = t.protocol.initial ∨
    ∃ entry ∈ t.protocol.table.entries, entry.2.target = t.state
  finalized : t.finalized = true ↔ t.protocol.isTerminal t.state = true
  /-- No deadline is left when the trade has ended, and whatever comes is refused. -/
  ended : t.finalized = true → t.armed = [] ∧ ∀ (e : Engine) (stream : Stream),
    (e.run t stream).1 = t ∧
      ∀ o ∈ (e.run t stream).2, ∃ r, o = .rejected r ∧ r.reason = .finalized
  /-- Every deadline stands under its kind, and is named after a commit. -/
  deadlines : ∀ k d, t.deadline? k = some d →
    d.id.kind = k ∧ 1 ≤ d.id.armedAt ∧ d.id.armedAt ≤ t.sequence
  /-- The last commands are remembered, as many as fit in the window, and no id twice. -/
  remembered : t.consumed <:+ commandIds h ∧
    t.consumed.length = min Trade.window (commandIds h).length ∧ t.consumed.Nodup
  lastPeerSequence : t.lastPeerSequence = (messageSequences h).foldl max 0

theorem Traced.armed_eq_nil (ht : Traced t h) (hfinalized : t.finalized = true) : t.armed = [] := by
  refine Trade.armed_eq_nil fun k => Option.eq_none_iff_forall_ne_some.2 fun id hlive => ?_
  -- an armed deadline would show that the trade is open
  have hopen := (ht.deadlines k id hlive).1
  rw [hfinalized] at hopen
  cases hopen

theorem Traced.coherent (ht : Traced t h) (hlength : h.length < 2 ^ 64) : Coherent t h where
  sequence := by rw [ht.sequence, UInt64.toNat_ofNat', Nat.mod_eq_of_lt hlength]
  numbered before event c after heq := by
    have hshort : before.length + 1 ≤ h.length := by
      rw [heq, List.length_append, List.length_cons]
      omega
    show c.sequence.toNat = before.length + 1
    rw [ht.counted before event c after heq, UInt64.toNat_ofNat', Nat.mod_eq_of_lt (by omega)]
  continues := ht.continues
  state := ht.state
  entered := by
    rw [ht.state]
    exact ht.continues.reached_eq
  finalized := by rw [ht.finalized]
  ended hfinalized := ⟨ht.armed_eq_nil hfinalized, fun e => run_of_finalized e hfinalized⟩
  deadlines k d hdeadline := by
    have hlive : t.liveId? k = some d.id := by rw [Trade.liveId?, hdeadline]; rfl
    obtain ⟨-, n, hpos, hle, hid⟩ := ht.deadlines k d.id hlive
    rw [hid, ht.sequence, UInt64.le_iff_toNat_le, UInt64.le_iff_toNat_le, UInt64.toNat_ofNat',
      UInt64.toNat_ofNat', Nat.mod_eq_of_lt (by omega), Nat.mod_eq_of_lt hlength]
    exact ⟨rfl, hpos, hle⟩
  remembered := by
    refine ⟨?_, ?_, ht.consumed⟩
    · rw [ht.remembers.consumed]
      exact List.drop_suffix _ _
    · rw [ht.remembers.consumed, recentCommandIds, List.length_drop]
      omega
  lastPeerSequence := ht.lastPeerSequence

theorem traced_run {registry : Registry} {created : Instant} {id : String}
    {combination : Combination} {terms : Terms} {counterparty : Peer}
    (hcreate : Trade.create registry created id combination terms counterparty = .ok t)
    (hopen : t.protocol.isTerminal t.protocol.initial = false) (e : Engine) (stream : Stream) :
    Traced (e.run t stream).1 (e.history t stream) := by
  obtain ⟨-, -, protocol, -, rfl⟩ := Trade.create_eq_ok_iff.1 hcreate
  exact run_induction (h := []) (fun _ _ _ _ _ _ ht hcommit => ht.commit hcommit)
    (traced_initial id combination terms counterparty hopen) stream

/-- Whatever happens to a trade, its parts fit each other, its table and its history, provided that
trades can leave the state they start in. -/
theorem trades_are_coherent {registry : Registry} {created : Instant} {id : String}
    {combination : Combination} {terms : Terms} {counterparty : Peer}
    (hcreate : Trade.create registry created id combination terms counterparty = .ok t)
    (hopen : t.protocol.isTerminal t.protocol.initial = false) (e : Engine) (stream : Stream)
    (hlength : (e.history t stream).length < 2 ^ 64) :
    (e.run t stream).1.protocol = t.protocol ∧
      Coherent (e.run t stream).1 (e.history t stream) := by
  have htraced := traced_run hcreate hopen e stream
  exact ⟨(sameDeal_run e t stream).protocol, htraced.coherent hlength⟩

/-- A deadline can be armed anew as often as the offer is taken, until account data arrive; then the
trade fails when it expires. -/
def extendable : Protocol := Standard.tableOf .buyerAsTaker .reputationFiat [
  { states := [.init]
    event := .command .takeOffer
    transition := { target := .init, arm := [.deposit] } },
  { states := [.init]
    event := .message .accountData
    transition := { target := .accountDataReceived, arm := [.fiatPayment] } },
  { states := [.accountDataReceived]
    event := .timeout .deposit
    transition := { target := .failed } }]

/-- Two commands, a repetition of one of them, an expiry that is out of date, a message, the expiry
that ends the trade, and a command that comes too late. -/
def failure : Stream := [
  (.epoch, .command ⟨"first", .takeOffer, [], []⟩),
  (.epoch, .command ⟨"second", .takeOffer, [], []⟩),
  (.epoch, .command ⟨"first", .takeOffer, [], []⟩),
  (.epoch, .timeout ⟨.deposit, 1⟩),
  (.epoch, .inbound ⟨"trade_1", 9, ⟨"maker"⟩, .accountData, [], []⟩),
  (.epoch, .timeout ⟨.deposit, 2⟩),
  (.epoch, .command ⟨"third", .takeOffer, [], []⟩)]

theorem failure_is_coherent :
    ∃ registry t, ∃ e : Engine,
      Trade.create registry .epoch "trade_1" extendable.combination Trade.soundTerms ⟨"maker"⟩ =
        .ok t ∧
      t.protocol.isTerminal t.protocol.initial = false ∧
      -- two deadlines are armed in front of the expiry, and none behind it
      (e.run t (failure.take 5)).1.armed = [⟨.fiatPayment, 3⟩, ⟨.deposit, 2⟩] ∧
      Coherent (e.run t (failure.take 5)).1 (e.history t (failure.take 5)) ∧
      (e.run t failure).1.finalized = true ∧ (e.history t failure).length = 4 ∧
      Coherent (e.run t failure).1 (e.history t failure) := by
  let registry : Registry := { tables := Dict.empty.insert extendable.combination extendable }
  let e : Engine := { registry, verifier := { accepts := fun _ _ _ => false } }
  let t : Trade := .initial .epoch "trade_1" extendable.combination Trade.soundTerms ⟨"maker"⟩
    extendable
  have hcreate : Trade.create registry .epoch "trade_1" extendable.combination Trade.soundTerms
      ⟨"maker"⟩ = .ok t := Trade.create_soundTerms rfl rfl
  have hopen : t.protocol.isTerminal t.protocol.initial = false := by decide
  have hpart : (e.history t (failure.take 5)).length = 3 := by decide
  have hwhole : (e.history t failure).length = 4 := by decide
  exact ⟨registry, t, e, hcreate, hopen, by decide,
    (trades_are_coherent hcreate hopen e _ (by rw [hpart]; decide)).2, by decide, hwhole,
    (trades_are_coherent hcreate hopen e _ (by rw [hwhole]; decide)).2⟩

end Engine

end PeerTrade
