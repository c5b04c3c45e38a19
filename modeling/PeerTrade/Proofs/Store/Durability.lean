import PeerTrade.Proofs.Store.Invariants
import PeerTrade.Proofs.Trade.Restart

/-!
# Which answers mean that a snapshot is durable

A request is covered once the backend has accepted a write for its trade that carries at least its
sequence. An answer without error that the writer gives always says so. One that is given at once,
to a request that was superseded, says so if the newest snapshot's write has succeeded; but it is
also given while that write is under way, and after it has failed.
-/

namespace PeerTrade.Store

variable {s s' : Store} {b b' : Backend} {action : Action}

/-! ## Coverage -/

/-- The backend has accepted a write for a trade that carries at least some sequence. -/
def Covers (s : Store) (id : String) (sequence : UInt64) : Prop :=
  ∃ a ∈ s.attempts, a.tradeId = id ∧ a.succeeded = true ∧ sequence ≤ a.sequence

/-- The newest snapshot of a trade has left the line, but has not been accepted: it is being
written, its write has failed, or the writer broke down. -/
def Unsettled (s : Store) (id : String) : Prop :=
  (∃ p held, s.writer = .writing id p held) ∨
    (∃ a, s.lastAttempt? id = some a ∧ a.succeeded = false) ∨ s.writer = .dead

/-- The last write for a trade that the backend has accepted. -/
def lastAccepted? (s : Store) (id : String) : Option Attempt :=
  (s.attempts.filter fun a => a.tradeId = id && a.succeeded).getLast?

/-- A request that is answered at once although the newest snapshot of its trade is unsettled, and
the last one that was accepted, if there is one, is older than the request. -/
def Premature (s : Store) (id : String) (sequence : UInt64) : Prop :=
  s.Superseded id sequence ∧ s.pending.get? id = none ∧ s.Unsettled id ∧
    ∀ a, s.lastAccepted? id = some a → a.sequence < sequence

/-- Writes come in the order of their sequences, so the last accepted one tells what is covered. -/
theorem Ascending.covers_iff (h : Ascending s) {id : String} {sequence : UInt64} :
    s.Covers id sequence ↔ ∃ a, s.lastAccepted? id = some a ∧ sequence ≤ a.sequence := by
  constructor
  · rintro ⟨a, ha, hid, hsucceeded, hle⟩
    have hmem : a ∈ s.attempts.filter fun a => a.tradeId = id && a.succeeded :=
      List.mem_filter.2 ⟨ha, by simp [hid, hsucceeded]⟩
    cases hlast : s.lastAccepted? id with
    | none =>
      rw [List.getLast?_eq_none_iff.1 hlast] at hmem
      cases hmem
    | some last =>
      obtain ⟨front, hfront⟩ := List.getLast?_eq_some_iff.1 hlast
      have hpairs := h.attempts.filter fun a => a.tradeId = id && a.succeeded
      have hlastMem : last ∈ s.attempts.filter fun a => a.tradeId = id && a.succeeded :=
        List.mem_of_getLast? hlast
      have hlastId : last.tradeId = id := by
        have hboth := (List.mem_filter.1 hlastMem).2
        simp only [Bool.and_eq_true, decide_eq_true_eq] at hboth
        exact hboth.1
      refine ⟨last, rfl, UInt64.le_trans hle ?_⟩
      rw [hfront] at hmem hpairs
      rcases List.mem_append.1 hmem with hmem | hmem
      · obtain ⟨-, -, hcross⟩ := List.pairwise_append.1 hpairs
        exact hcross a hmem last List.mem_cons_self (hid.trans hlastId.symm)
      · rw [List.mem_singleton.1 hmem]
        exact UInt64.le_refl _
  · rintro ⟨a, hlast, hle⟩
    obtain ⟨hmem, hboth⟩ := List.mem_filter.1 (List.mem_of_getLast? hlast)
    simp only [Bool.and_eq_true, decide_eq_true_eq] at hboth
    exact ⟨a, hmem, hboth.1, hboth.2, hle⟩

/-! ## Answers -/

theorem covers_of_attempts_eq (hattempts : s'.attempts = s.attempts) (id : String)
    (sequence : UInt64) : s'.Covers id sequence ↔ s.Covers id sequence := by
  rw [Covers, hattempts]
  rfl

/-- The newest snapshot has left the line. Unless it is unsettled it has been written, and that
write covers everything older. -/
theorem Sound.covers_of_superseded (h : Sound s) {id : String} {sequence : UInt64}
    (hsuperseded : s.Superseded id sequence) (hnone : s.pending.get? id = none)
    (hsettled : ¬s.Unsettled id) : s.Covers id sequence := by
  obtain ⟨greatest, hgreatest, hlt⟩ := hsuperseded
  have hidle : ∀ p held, s.writer ≠ .writing id p held := fun p held hwriter =>
    hsettled (.inl ⟨p, held, hwriter⟩)
  have hlive : s.writer ≠ .dead := fun hdead => hsettled (.inr (.inr hdead))
  -- the last write of the trade carried the greatest sequence, and did not fail
  obtain ⟨a, hlast, rfl⟩ := h.settled id greatest hnone hgreatest hidle hlive
  obtain ⟨hmem, hid⟩ := List.mem_filter.1 (List.mem_of_getLast? hlast)
  refine ⟨a, hmem, by simpa using hid, ?_, UInt64.le_of_lt hlt⟩
  cases hsucceeded : a.succeeded with
  | true => rfl
  | false => exact absurd (.inr (.inl ⟨a, hlast, hsucceeded⟩)) hsettled

theorem mem_replies {tickets : List Ticket} {result : Ticket → PersistResult} {a : Answer}
    (h : a ∈ tickets.map fun t => (⟨t, result t⟩ : Answer)) :
    a.ticket ∈ tickets ∧ a.result = result a.ticket := by
  obtain ⟨t, ht, rfl⟩ := List.mem_map.1 h
  exact ⟨ht, rfl⟩

/-- The writer gives answers without error for a write that covers them. -/
theorem exists_given_of_finish (h : Sound s) {id : String} {p : Pending} {held : Bool}
    (hwriter : s.writer = .writing id p held) (result : WriteResult) :
    ∃ given, (s.finish id p result).answers = s.answers ++ given ∧
      ∀ a ∈ given, a.result = .ok () →
        (s.finish id p result).Covers a.ticket.tradeId a.ticket.sequence := by
  obtain ⟨hserves, -⟩ := h.writing id p held hwriter
  cases result with
  | written =>
    -- all who wait for the write asked for its sequence or an earlier one
    refine ⟨_, rfl, fun a ha _ => ?_⟩
    obtain ⟨hid, hsequence⟩ := hserves.waiters _ (mem_replies ha).1
    exact ⟨_, List.mem_append_right _ List.mem_cons_self, hid.symm, rfl, hsequence⟩
  | refused cause =>
    refine ⟨_, rfl, fun a ha hok => ?_⟩
    rw [(mem_replies ha).2] at hok
    cases hok
  | broken =>
    refine ⟨_, rfl, fun a ha hok => ?_⟩
    rw [(mem_replies ha).2] at hok
    cases hok

/-- A request is answered without error at once only if it is superseded and nothing is pending. -/
theorem exists_given_of_schedule (s : Store) (t : Trade) :
    ∃ given, (s.schedule t).1.answers = s.answers ++ given ∧ ∀ a ∈ given, a.result = .ok () →
      s.Superseded a.ticket.tradeId a.ticket.sequence ∧
        s.pending.get? a.ticket.tradeId = none := by
  rcases s.schedule_cases t with ⟨failure, heq⟩ | ⟨record, -, heq⟩
  · rw [heq]
    refine ⟨_, rfl, fun a ha hok => ?_⟩
    rw [(mem_replies ha).2] at hok
    cases hok
  · rw [heq]
    rcases enqueue_cases { s with issued := s.issued + 1 } ⟨s.issued, t.id, t.sequence⟩ record
      with ⟨-, p, -, heq⟩ | ⟨hsuperseded, hnone, heq⟩ | ⟨-, p, -, heq⟩ | ⟨-, -, heq⟩
    · exact ⟨[], by rw [heq, List.append_nil], fun a ha => absurd ha List.not_mem_nil⟩
    · rw [heq]
      refine ⟨_, rfl, fun a ha _ => ?_⟩
      rw [List.mem_singleton.1 (mem_replies ha).1]
      exact ⟨hsuperseded, hnone⟩
    · exact ⟨[], by rw [heq, List.append_nil], fun a ha => absurd ha List.not_mem_nil⟩
    · exact ⟨[], by rw [heq, List.append_nil], fun a ha => absurd ha List.not_mem_nil⟩

/-- A superseded request is answered without error whenever nothing is pending, whatever has become
of the newer snapshot. -/
theorem schedule_of_superseded {t : Trade} (hopen : s.closed = false) (ht : t.Storable)
    (hsuperseded : s.Superseded t.id t.sequence) (hnone : s.pending.get? t.id = none) :
    (s.schedule t).1.answers = s.answers ++ [⟨⟨s.issued, t.id, t.sequence⟩, .ok ()⟩] := by
  have hencode := Snapshot.encode_eq_ok ht.toSnapshot
  have hstale := (any_lt_iff_superseded ..).2 hsuperseded
  simp [schedule, handIn, hencode, hopen, putInLine, hstale, hnone, reply]

/-- Where an answer without error comes from: the writer gives it for a write that covers the
request, or it is given at once to a superseded request. -/
theorem exists_given_of_act (h : Sound s) (hact : s.act b action = some (s', b')) :
    ∃ given, s'.answers = s.answers ++ given ∧ ∀ a ∈ given, a.result = .ok () →
      (action = .write ∧ s'.Covers a.ticket.tradeId a.ticket.sequence) ∨
      ((∃ t, action = .schedule t) ∧ s'.attempts = s.attempts ∧
        s.Superseded a.ticket.tradeId a.ticket.sequence ∧
        s.pending.get? a.ticket.tradeId = none) := by
  cases action with
  | schedule t =>
    cases hact
    obtain ⟨given, hanswers, hgiven⟩ := s.exists_given_of_schedule t
    exact ⟨given, hanswers, fun a ha hok =>
      .inr ⟨⟨t, rfl⟩, (s.schedule_same t).1, hgiven a ha hok⟩⟩
  | write =>
    rcases step_cases hact with ⟨-, rfl, -⟩ | ⟨-, rfl, -⟩ | ⟨id, p, held, n, hwriter, -, rfl⟩
    · refine ⟨[], ?_, fun a ha => absurd ha List.not_mem_nil⟩
      rw [(s.takeNext_same b).1, List.append_nil]
    · exact ⟨[], (List.append_nil _).symm, fun a ha => absurd ha List.not_mem_nil⟩
    · obtain ⟨given, hanswers, hgiven⟩ := exists_given_of_finish h hwriter
        ({ b with admitted := n }.write id p.record).2
      exact ⟨given, hanswers, fun a ha hok => .inl ⟨rfl, hgiven a ha hok⟩⟩
  | flush =>
    cases hact
    refine ⟨[], ?_, fun a ha => absurd ha List.not_mem_nil⟩
    unfold flush
    split <;> exact (List.append_nil _).symm
  | close =>
    cases hact
    exact ⟨[], (List.append_nil _).symm, fun a ha => absurd ha List.not_mem_nil⟩
  | behave b' =>
    cases hact
    exact ⟨[], (List.append_nil _).symm, fun a ha => absurd ha List.not_mem_nil⟩

theorem write_of_written {id : String} {record : Bytes} (h : (b.write id record).2 = .written) :
    (b.write id record).1.records.get? id = some record := by
  unfold Backend.write at h ⊢
  split
  next hbreaks =>
    rw [if_pos hbreaks] at h
    cases h
  next hbreaks =>
    rw [if_neg hbreaks] at h
    split
    next text hrefuses =>
      rw [hrefuses] at h
      cases h
    next => exact Dict.get?_insert_self _ _ _

/-- A write that is noted as succeeded has put the record of its trade, at its sequence, into the
backend. -/
theorem stores_of_succeeded (h : Sound s) (hact : s.act b action = some (s', b')) {a : Attempt}
    (ha : a ∈ s'.attempts) (hsucceeded : a.succeeded = true) :
    a ∈ s.attempts ∨
      ∃ record, b'.records.get? a.tradeId = some record ∧ Stores record a.tradeId a.sequence := by
  cases action with
  | schedule t =>
    cases hact
    rw [(s.schedule_same t).1] at ha
    exact .inl ha
  | flush =>
    cases hact
    unfold flush at ha
    split at ha <;> exact .inl ha
  | close =>
    cases hact
    exact .inl ha
  | behave b' =>
    cases hact
    exact .inl ha
  | write =>
    rcases step_cases hact with ⟨-, rfl, -⟩ | ⟨-, rfl, -⟩ | ⟨id, p, held, n, hwriter, rfl, rfl⟩
    · rw [(s.takeNext_same b).2.1] at ha
      exact .inl ha
    · exact .inl ha
    · -- what is written is the record that was handed in for this trade and sequence
      obtain ⟨hserves, -⟩ := h.writing id p held hwriter
      cases hresult : ({ b with admitted := n }.write id p.record).2 with
      | written =>
        rw [hresult] at ha
        rcases List.mem_append.1 ha with ha | ha
        · exact .inl ha
        · rw [List.mem_singleton.1 ha]
          exact .inr ⟨p.record, write_of_written hresult, hserves.record⟩
      | refused cause =>
        rw [hresult] at ha
        rcases List.mem_append.1 ha with ha | ha
        · exact .inl ha
        · rw [List.mem_singleton.1 ha] at hsucceeded
          cases hsucceeded
      | broken =>
        rw [hresult] at ha
        exact .inl ha

/-- An answer without error means that the backend has accepted a write that covers the request,
except where it is given prematurely. A write that counts has put a record of its trade, at its
sequence, into the backend. -/
theorem ok_means_covered_unless_premature (hs : Reachable s b)
    (hact : s.act b action = some (s', b')) :
    (∃ given, s'.answers = s.answers ++ given ∧ ∀ a ∈ given, a.result = .ok () →
      (s'.Covers a.ticket.tradeId a.ticket.sequence ↔
        ¬((∃ t, action = .schedule t) ∧
          s.Premature a.ticket.tradeId a.ticket.sequence))) ∧
    ∀ a ∈ s'.attempts, a.succeeded = true → a ∈ s.attempts ∨
      ∃ record, b'.records.get? a.tradeId = some record ∧ Stores record a.tradeId a.sequence := by
  obtain ⟨given, hanswers, hgiven⟩ := exists_given_of_act hs.sound hact
  refine ⟨⟨given, hanswers, fun a ha hok => ?_⟩,
    fun a ha hsucceeded => stores_of_succeeded hs.sound hact ha hsucceeded⟩
  rcases hgiven a ha hok with ⟨rfl, hcovers⟩ | ⟨hscheduled, hattempts, hsuperseded, hnone⟩
  · -- the writer never answers prematurely
    refine ⟨fun _ => ?_, fun _ => hcovers⟩
    rintro ⟨⟨t, hwrite⟩, -⟩
    cases hwrite
  · rw [covers_of_attempts_eq hattempts]
    constructor
    · rintro hcovers ⟨-, -, -, -, hold⟩
      obtain ⟨last, hlast, hle⟩ := hs.ascending.covers_iff.1 hcovers
      exact UInt64.not_lt.2 hle (hold last hlast)
    · intro htimely
      -- a request that nothing covers is premature
      by_contra hopen
      have hunsettled : s.Unsettled a.ticket.tradeId := by
        by_contra hsettled
        exact hopen (hs.sound.covers_of_superseded hsuperseded hnone hsettled)
      have hold : ∀ last, s.lastAccepted? a.ticket.tradeId = some last →
          last.sequence < a.ticket.sequence := by
        intro last hlast
        rw [← UInt64.not_le]
        exact fun hle => hopen (hs.ascending.covers_iff.2 ⟨last, hlast, hle⟩)
      exact htimely ⟨hscheduled, hsuperseded, hnone, hunsettled, hold⟩

/-! ## Answers to a trade and to an older state of it -/

/-- A trade after some number of commits. -/
def tradeAt (sequence : UInt64) : Trade :=
  { Trade.initial .epoch "trade_1" ⟨.buyerAsTaker, .reputationFiat⟩ Trade.soundTerms ⟨"maker"⟩
      (Standard.Reputation.table .buyerAsTaker) with sequence }

/-- The writer answers a request once the backend has accepted its snapshot. -/
theorem written_answer_is_covered :
    ∃ s b s' b' a, Reachable s b ∧ s.act b .write = some (s', b') ∧
      s'.answers = s.answers ++ [a] ∧ a.result = .ok () ∧
      s'.Covers a.ticket.tradeId a.ticket.sequence := by
  let s : Store := (({} : Store).schedule (tradeAt 1)).1.takeNext {}
  let a : Answer := ⟨⟨0, "trade_1", 1⟩, .ok ()⟩
  have hs : Reachable s {} :=
    .act (.act (a := .schedule (tradeAt 1)) (.start {}) rfl) (a := .write) rfl
  have hact : ∃ s' b', s.act {} .write = some (s', b') ∧ s'.answers = s.answers ++ [a] :=
    ⟨_, _, rfl, rfl⟩
  obtain ⟨s', b', hact, hanswers⟩ := hact
  obtain ⟨⟨given, hgiven, hall⟩, -⟩ := ok_means_covered_unless_premature hs hact
  rw [hanswers] at hgiven
  have ha : a ∈ given := by
    rw [← List.append_cancel_left hgiven]
    exact List.mem_cons_self
  refine ⟨s, {}, s', b', a, hs, hact, hanswers, rfl, (hall a ha rfl).2 ?_⟩
  rintro ⟨⟨t, hwrite⟩, -⟩
  cases hwrite

theorem storable_tradeAt (sequence : UInt64) : (tradeAt sequence).Storable := by
  refine ⟨?_, ?_, ?_, ?_, ?_⟩
  · show Instant.epoch.IsStorable
    decide
  · show Instant.epoch.IsStorable
    decide
  · intro d hd
    cases hd
  · show ∀ x ∈ ["trade_1", "maker", "BTC", "EUR", "EUR"], Fits x
    decide
  · show 0 < 2 ^ 64
    decide

/-- A superseded request is answered without error while the newer snapshot is still being
written, and the backend has accepted nothing at all. -/
theorem superseded_answered_while_writing :
    ∃ s b s' b' a, Reachable s b ∧ s.act b (.schedule (tradeAt 0)) = some (s', b') ∧
      s'.answers = s.answers ++ [a] ∧ a.result = .ok () ∧
      ¬s'.Covers a.ticket.tradeId a.ticket.sequence := by
  let s : Store := (({} : Store).schedule (tradeAt 1)).1.takeNext {}
  have hs : Reachable s {} :=
    .act (.act (a := .schedule (tradeAt 1)) (.start {}) rfl) (a := .write) rfl
  have hsuperseded : s.Superseded (tradeAt 0).id (tradeAt 0).sequence := ⟨1, by rfl, by decide⟩
  have hanswers := schedule_of_superseded (s := s) rfl (storable_tradeAt 0) hsuperseded (by rfl)
  refine ⟨s, {}, _, _, _, hs, rfl, hanswers, rfl, ?_⟩
  rintro ⟨attempt, hattempt, -⟩
  rw [(s.schedule_same _).1] at hattempt
  cases hattempt

/-- It is answered so even after the write of the newer snapshot has failed. -/
theorem superseded_answered_after_failure :
    ∃ s b s' b' a, Reachable s b ∧ s.act b (.schedule (tradeAt 0)) = some (s', b') ∧
      s'.answers = s.answers ++ [a] ∧ a.result = .ok () ∧
      ¬s'.Covers a.ticket.tradeId a.ticket.sequence := by
  let b : Backend := { refusesWrites := some "full" }
  let s : Store := ((((({} : Store).schedule (tradeAt 1)).1.takeNext b).step b).getD ({}, b)).1
  have hs : Reachable s b :=
    .act (.act (.act (a := .schedule (tradeAt 1)) (.start b) rfl) (a := .write) rfl)
      (a := .write) rfl
  have hsuperseded : s.Superseded (tradeAt 0).id (tradeAt 0).sequence := ⟨1, by rfl, by decide⟩
  have hanswers := schedule_of_superseded (s := s) rfl (storable_tradeAt 0) hsuperseded (by rfl)
  refine ⟨s, b, _, _, _, hs, rfl, hanswers, rfl, ?_⟩
  rintro ⟨attempt, hattempt, -, hsucceeded, -⟩
  rw [(s.schedule_same _).1] at hattempt
  have hfailed : attempt = ⟨"trade_1", 1, false⟩ := List.mem_singleton.1 hattempt
  rw [hfailed] at hsucceeded
  cases hsucceeded

end PeerTrade.Store
