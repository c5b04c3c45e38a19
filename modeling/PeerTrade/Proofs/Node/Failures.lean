import PeerTrade.Proofs.Engine.Overshoot
import PeerTrade.Proofs.Node.News
import PeerTrade.Proofs.Node.Notices
import PeerTrade.Proofs.Node.Retries

/-!
# Failed writes

As long as the snapshots of a worker can be encoded, there is one notice for each write of them that
has failed, however many requests it has covered, and no sequence is written more often than the
limit on retries allows (`Node.Watched.failed_writes_are_told_once`).

What a worker remembers of failures is not enough for it otherwise. A snapshot that cannot be
encoded is never written, but its failure is acted upon like any other. If it comes between the
reports of two requests that were covered by one write, the second of them is taken for the failure
of another write (`Node.Watched.told_twice_and_tried_thrice`).
-/

namespace PeerTrade

open Deed (notices notices_append)

/-! ## What is told of failures -/

/-- The failure that a notice may be about. -/
def Happening.failure? : Happening → Option PersistFailure
  | persistenceFailed f => some f
  | stateChanged .. | finalized _ | rejected _ | deliveryFailed _ | deadlineExpired _ => none

/-- The failures that some notices are about. -/
def failures (log : List Notice) : List PersistFailure := log.filterMap (·.happening.failure?)

/-- The failure that a worker is about to make known. -/
def Chore.failure? : Chore → Option PersistFailure
  | post happening => happening.failure?
  | persist _ | startTimer .. | stopTimer _ | send _ | answer .. => none

/-- The failures that were reported by some mail. -/
def reports (read : List (Instant × Mail)) : List (UInt64 × UInt32) :=
  read.filterMap (·.2.report?)

variable {engine : Engine} {start s s' : Standing} {read : List (Instant × Mail)}
  {entry : Instant × Mail} {told chapter : List Deed} {t : Trade} {chores : List Chore}

theorem failures_append (log more : List Notice) :
    failures (log ++ more) = failures log ++ failures more :=
  List.filterMap_append

theorem failures_of_asides {asides : List Notice}
    (hasides : ∀ n ∈ asides, n.tradeId = t.id ∧ n.happening.isAside = true) :
    failures asides = [] := by
  refine List.filterMap_eq_nil_iff.2 fun n hn => ?_
  have haside := (hasides n hn).2
  cases hhappening : n.happening <;> rw [hhappening] at haside <;> first | rfl | cases haside

theorem Unfolds.failures_eq (h : Unfolds t chores told) :
    failures (notices told) = chores.filterMap Chore.failure? := by
  induction h with
  | nil => rfl
  | @post happening chores told _ ih =>
    show failures (t.notice happening :: notices told) =
      List.filterMap Chore.failure? (.post happening :: chores)
    rw [failures, List.filterMap_cons, List.filterMap_cons, ← ih]
    rfl
  | send hsends _ ih => cases hsends <;> exact ih
  | @silent chore chores told hsilent _ ih =>
    cases chore with
    | persist | startTimer | stopTimer | answer => exact ih
    | post | send => cases hsilent

/-- A reported failure is made known if it is news. -/
theorem Chapter.failures_eq (h : Chapter engine s entry s' chapter) :
    (failures (notices chapter)).map (·.sequence) =
        (Ledger.news s.lastFailure (reports [entry])).map (·.1) ∧
      s'.lastFailure = Ledger.memory s.lastFailure (reports [entry]) := by
  cases h with
  | rejected | inspected => exact ⟨rfl, rfl⟩
  | @committed date event caller t c deliveries hhandle hsends =>
    -- a message that was not delivered is a failure of another kind
    obtain ⟨asides, hnotices, hasides⟩ := notices_of_committed event hsends
    rw [hnotices, failures_append, failures_of_asides hasides]
    cases c.finalized <;> exact ⟨rfl, rfl⟩
  | @repeated date f attempt last hlast hle =>
    have hknows : Ledger.knows s.lastFailure (f.sequence, attempt) = true := by
      simp [Ledger.knows, hlast, hle]
    show [] = (Ledger.news _ [(f.sequence, attempt)]).map _ ∧
      s.lastFailure = Ledger.memory _ [(f.sequence, attempt)]
    rw [Ledger.news, Ledger.memory, List.foldl_cons, if_pos hknows, if_pos hknows]
    exact ⟨rfl, rfl⟩
  | @failed date f attempt hnews =>
    have hnot : ¬Ledger.knows s.lastFailure (f.sequence, attempt) = true := by
      intro hknows
      rw [Ledger.knows, Option.any_eq_true] at hknows
      obtain ⟨⟨sequence, last⟩, hlast, hheard⟩ := hknows
      obtain ⟨rfl, hle⟩ : sequence = f.sequence ∧ attempt ≤ last := by simpa using hheard
      exact UInt32.not_le.2 (hnews last hlast) hle
    show [f.sequence] = (Ledger.news _ [(f.sequence, attempt)]).map _ ∧
      some (f.sequence, attempt) = Ledger.memory _ [(f.sequence, attempt)]
    rw [Ledger.news, Ledger.memory, List.foldl_cons, if_neg hnot, if_neg hnot]
    exact ⟨rfl, rfl⟩

/-- Of the failures that were reported those are made known that are news, in order. -/
theorem Story.failures_eq (h : Story engine start read s told) :
    (failures (notices told)).map (·.sequence) =
        (Ledger.news start.lastFailure (reports read)).map (·.1) ∧
      s.lastFailure = Ledger.memory start.lastFailure (reports read) := by
  induction h with
  | begins => exact ⟨rfl, rfl⟩
  | @goesOn read entry s s' told chapter _ hchapter ih =>
    obtain ⟨htold, hlast⟩ := hchapter.failures_eq
    have hreports : reports (read ++ [entry]) = reports read ++ reports [entry] :=
      List.filterMap_append
    rw [notices_append, failures_append, List.map_append, hreports, Ledger.news_append,
      Ledger.memory_append, List.map_append, ih.1, ← ih.2]
    exact ⟨congrArg _ htold, hlast⟩

/-- The sequences at which a trade could not be written, in order. -/
def Store.refused (s : Store) (id : String) : List UInt64 :=
  (s.attempts.filter fun a => a.tradeId = id ∧ a.succeeded = false).map (·.sequence)

/-- How often a trade has been written at some sequence, with success or without. The write that is
under way counts. -/
def Store.tried (s : Store) (id : String) (sequence : UInt64) : Nat :=
  s.attempts.countP (fun a => a.tradeId = id ∧ a.sequence = sequence) +
    if (s.written? id).any (·.sequence = sequence) then 1 else 0

namespace Node

open Store (tradeAt storable_tradeAt)

variable {n n' : Node} {k : Nat} {w w' : Worker} {a : Action} {handed : List UInt64}

/-- The failures that a worker has not read yet, in the order in which it will. -/
def unread (n : Node) (k : Nat) (w : Worker) : List (UInt64 × UInt32) :=
  w.mailbox.queue.filterMap Mail.report? ++ (n.requests k).filterMap n.store.failure?

/-- Those of them that it will act upon. -/
def news (n : Node) (k : Nat) (w : Worker) : List (UInt64 × UInt32) :=
  Ledger.news w.lastFailure (n.unread k w)

theorem refused_ledger (n : Node) (k : Nat) (w : Worker) (handed : List UInt64) :
    (n.ledger k w handed).refused = n.store.refused w.trade.id := by
  show (((n.store.attempts.filter _).map _).filter _).map _ = _
  rw [List.filter_map, List.filter_filter, List.map_map, Store.refused]
  congr 1
  refine List.filter_congr fun a _ => ?_
  simp [Bool.and_comm]

theorem tried_ledger (n : Node) (k : Nat) (w : Worker) (handed : List UInt64)
    (sequence : UInt64) : (n.ledger k w handed).tried sequence =
      n.store.attempts.countP fun a => a.tradeId = w.trade.id ∧ a.sequence = sequence := by
  show ((n.store.attempts.filter _).map _).countP _ = _
  rw [List.countP_map, List.countP_filter]
  refine List.countP_congr fun a _ => ?_
  simp [And.comm]

/-- No sequence is written too often, the write that is under way included. -/
theorem tried_le_of_account {limit : UInt32} {told : List UInt64}
    (h : (n.ledger k w handed).Account limit told) (sequence : UInt64) :
    n.store.tried w.trade.id sequence ≤ limit.toNat + 1 := by
  have hbound := h.bounded sequence
  rw [tried_ledger] at hbound
  rw [Store.tried]
  cases hwritten : n.store.written? w.trade.id with
  | none => exact hbound
  | some p =>
    by_cases hsequence : p.sequence = sequence
    · -- the write under way is at the attempt that follows those that have ended
      have hwriting : (n.ledger k w handed).writing =
          some (p.sequence, p.waiters.map n.attemptOf) := by simp [ledger, hwritten]
      obtain ⟨a, hbatch⟩ := h.writing _ hwriting
      have hused := hbatch.used
      have hlimited := UInt32.le_iff_toNat_le.1 hbatch.limited
      change (n.ledger k w handed).tried p.sequence ≤ a.toNat at hused
      rw [tried_ledger, hsequence] at hused
      simp only [Option.any_some, hsequence, decide_true, if_true]
      omega
    · simpa [hsequence] using hbound

namespace Watched

variable {x x' : Watched} {actions : List Action} {name : String} {engine : Engine}
  {settings : WorkerSettings} {backend : Backend} {identity : Peer}

/-- The sequences of the failed writes that a worker has acted upon. -/
def actedUpon (x : Watched) (k : Nat) : List UInt64 :=
  (Ledger.news none (reports (x.journal k).read)).map (·.1)

/-- What a worker has told, and is about to tell, are the failures that it has acted upon. -/
theorem told_of_run (h : (Watched.new name engine settings backend identity).Run actions x)
    (hk : x.node.workers.get? k = some w) :
    (failures (notices ((Watched.new name engine settings backend identity).toldBy actions k)) ++
        w.chores.filterMap Chore.failure?).map (·.sequence) = x.actedUpon k ∧
      w.lastFailure = Ledger.memory none (reports (x.journal k).read) := by
  have hlinear := linear_new name engine settings backend identity
  obtain ⟨t₀, horigin, -⟩ := ((hlinear.run h).straight k w hk).follows.trade
  obtain ⟨rest, hrest⟩ := Unfolds.exists_told w.trade w.chores
  have hstory := tells_of_run h hlinear (fun _ => rfl) hk t₀ horigin rest hrest
  rw [← hrest.failures_eq, ← failures_append, ← notices_append]
  exact hstory.failures_eq

theorem Reachable.lastFailure (h : x.Reachable) (hk : x.node.workers.get? k = some w) :
    w.lastFailure = Ledger.memory none (reports (x.journal k).read) := by
  obtain ⟨name, engine, settings, backend, identity, earlier, hrun⟩ := h
  exact (told_of_run hrun hk).2

/-- Whether a worker acts upon a failure shows in what it remembers. -/
theorem actedUpon_of_act (hreach : x.Reachable) (hact : x.act a = some x')
    (hk : x.node.workers.get? k = some w) (hk' : x'.node.workers.get? k = some w') :
    x'.actedUpon k =
      x.actedUpon k ++ (Ledger.acted w.lastFailure w'.lastFailure).map (·.1) := by
  obtain ⟨-, hread⟩ := journal_of_act hreach.linear hact hk
  have hreports : reports (x'.journal k).read = reports (x.journal k).read ++
      ((x.node.heard k a).bind (·.2.report?)).toList := by
    rw [hread, reports, List.filterMap_append]
    cases x.node.heard k a with
    | none => rfl
    | some entry => cases hentry : entry.2.report? <;> simp [reports, hentry]
  have hlast := hreach.lastFailure hk
  have hlast' := (hreach.act hact).lastFailure hk'
  rw [hreports, Ledger.memory_append, ← hlast] at hlast'
  rw [actedUpon, hreports, Ledger.news_append, ← hlast, Ledger.news_toList, ← hlast',
    List.map_append]
  rfl

/-- Each failed write of an undisturbed worker has been acted upon in its turn, or will be. -/
theorem OrderlyRun.account
    (h : (Watched.new name engine settings backend identity).OrderlyRun k actions x)
    (hx : x.Undisturbed k w) :
    (x.ledger k w).Account settings.persistRetryLimit (x.actedUpon k) := by
  induction h generalizing w with
  | nil => cases hx.worker
  | @concat actions x₁ x₂ a hrun hact horder ih =>
    have hreach : x₁.Reachable := ⟨_, _, _, _, _, _, hrun.run⟩
    -- the worker was there before the last action, or begins with it
    cases hk : x₁.node.workers.get? k with
    | some w₁ =>
      have hx₁ := (hx.of_act hreach hact hk).1
      have hbooks := hrun.books hx₁
      obtain ⟨-, -, hstep⟩ := hx.step hreach hact horder hk hbooks.reporting
      rw [hbooks.settings] at hstep
      rw [actedUpon_of_act hreach hact hk hx.worker]
      exact (ih hx₁).step hbooks.ledger hstep
    | none =>
      obtain ⟨hunheard, -⟩ := hrun.unheard_of_act hact hx hk
      obtain ⟨-, -, hledger⟩ := begins_cases hx hreach hact hk hunheard
      have hnothing : x₂.actedUpon k = [] := by
        rw [actedUpon, read_of_begins hact hk hx.worker]
        rfl
      rw [hnothing]
      rcases hledger with ⟨-, hledger⟩ | ⟨-, hledger⟩
      · rw [hledger]
        exact Ledger.account_new _ _ (.inl rfl)
      · rw [hledger]
        exact (Ledger.account_new _ _ (.inr rfl)).handIn (.inl (Ledger.unhanded_new _ _ (.inr rfl)))
          rfl

/-! ## The result -/

/-- As long as a worker is undisturbed, each failed write of its trade is made known by one notice,
in order: those that it has told, those that it is about to tell, and those that it will when it has
read what has been reported to it. The failure of a write of an older snapshot does not have it hand
anything in, and no sequence is written more often than the limit on retries allows. -/
theorem failed_writes_are_told_once
    (h : (Watched.new name engine settings backend identity).OrderlyRun k actions x)
    (hx : x.Undisturbed k w) :
    let told := notices ((Watched.new name engine settings backend identity).toldBy actions k)
    (failures told ++ w.chores.filterMap Chore.failure?).map (·.sequence) ++
        (x.node.news k w).map (·.1) = x.node.store.refused w.trade.id ∧
      (∀ f attempt rest now, w.chores = [] → w.mailbox.queue = .persistFailed f attempt :: rest →
        f.sequence < w.trade.sequence →
        ∃ n' w', x.node.act (.step now (.worker k)) = some n' ∧ n'.workers.get? k = some w' ∧
          w'.trade = w.trade ∧ ∀ b, .persist b ∉ w'.chores) ∧
      ∀ sequence, x.node.store.tried w.trade.id sequence ≤
        settings.persistRetryLimit.toNat + 1 := by
  intro told
  have haccount := h.account hx
  refine ⟨?_, fun f attempt rest now hchores hqueue holder => ?_, tried_le_of_account haccount⟩
  · rw [(told_of_run h.run hx.worker).1, ← refused_ledger x.node k w (sequencesOf k x.handed)]
    exact haccount.told
  · exact exists_read_of_older hx.worker hx.running hchores hqueue holder now

/-- A snapshot is refused, and so is the next one, which has taken the place of the retry. -/
def refusedTwice : List Action := cancelledMeanwhile ++ atOnce (.worker 0) :: secondFailure

/-- Three requests are refused in two writes, and there are two notices. -/
theorem merged_requests_are_told_once :
    ∃ x w, refusing.OrderlyRun 0 refusedTwice x ∧ x.Undisturbed 0 w ∧
      x.handed = [(0, tradeAt 0), (0, tradeAt 0), (0, cancelledAt 0)] ∧
      x.node.store.refused w.trade.id = [0, 1] ∧
      (failures (notices (refusing.toldBy refusedTwice 0))).map (·.sequence) = [0, 1] ∧
      x.node.store.tried w.trade.id 1 ≤ 2 := by
  obtain ⟨x, w, hplay, hk, hstarted, horigin, hread, hengine, hhanded, hrunning, hkept, hopen,
      hwriter, hchores, hnews, hrefused⟩ :
      ∃ x w, refusing.playOrderly 0 refusedTwice = some x ∧ x.node.workers.get? 0 = some w ∧
        x.node.started = 1 ∧ (x.journal 0).origin = some (tradeAt 0) ∧
        Mail.stream (x.journal 0).read = [(.epoch, cancellation)] ∧
        x.node.engine = lenient false ∧
        x.handed = [(0, tradeAt 0), (0, tradeAt 0), (0, cancelledAt 0)] ∧
        w.phase = .running ∧ w.mailbox.kept = true ∧ x.node.store.closed = false ∧
        x.node.store.writer = .ready ∧ w.chores = [] ∧ x.node.news 0 w = [] ∧
        x.node.store.refused w.trade.id = [0, 1] :=
    ⟨_, _, rfl, rfl, rfl, rfl, rfl, rfl, rfl, rfl, rfl, rfl, rfl, rfl, rfl, rfl⟩
  have hrun := Watched.orderly_of_play hplay
  have hx : x.Undisturbed 0 w := undisturbed_of_single ⟨_, _, _, _, _, _, hrun.run⟩ hstarted hk
    hrunning hkept horigin (by rw [hread, hengine]; decide)
    (by simp [hhanded, storable_tradeAt, storable_cancelledAt]) hopen (by simp [hwriter])
  obtain ⟨htold, -, htried⟩ := failed_writes_are_told_once hrun hx
  rw [hchores, hnews, List.filterMap_nil, List.map_nil, List.append_nil, List.append_nil,
    hrefused] at htold
  exact ⟨x, w, hrun, hx, hhanded, hrefused, htold, htried 1⟩

/-- A node at which an offer may remain open for so long that the date cannot be encoded. -/
def patient : Watched :=
  .new "a" (Engine.offering { takeOfferResponse := 10000000000 }) { persistRetryLimit := 1 }
    { refusesWrites := some "full" } ⟨"local"⟩

/-- An offer is taken and the trade is cancelled before the writer comes to it. The snapshot of the
cancelled trade is merged with that of the open offer, and refused. -/
def takenAndCancelled : List Action :=
  [.launch ⟨.epoch, 0, .farFuture⟩ (Engine.offered .epoch), .call 0 (.dispatch Engine.taking),
    .call 0 (.dispatch cancellation)] ++
    List.replicate 11 (atOnce (.worker 0)) ++ List.replicate 2 (atOnce .writer)

/-- The worker reads all reports before the writer goes on. -/
def readAtOnce : List Action :=
  [atOnce (.reporter 0), atOnce (.reporter 1), atOnce (.reporter 2)] ++
    List.replicate 8 (atOnce (.worker 0))

/-- The worker hands its snapshot in again before it reads the other reports. -/
def readInTurn : List Action :=
  atOnce (.reporter 0) :: List.replicate 3 (atOnce (.worker 0)) ++
    List.replicate 2 (atOnce .writer) ++
    [atOnce (.reporter 1), atOnce (.reporter 2), atOnce (.reporter 3)] ++
    List.replicate 7 (atOnce (.worker 0)) ++ List.replicate 2 (atOnce .writer)

/-- The snapshot between could not be encoded. Its failure hides that of the write, so that there
are two notices of the one failed write, and the snapshot is written three times although it is to be
handed in again once. -/
theorem told_twice_and_tried_thrice :
    (∃ x w, patient.OrderlyRun 0 (takenAndCancelled ++ readAtOnce) x ∧
      x.node.workers.get? 0 = some w ∧ w.phase = .running ∧ w.mailbox.kept = true ∧
      x.node.store.closed = false ∧ x.node.store.refused w.trade.id = [2] ∧
      (failures (notices (patient.toldBy (takenAndCancelled ++ readAtOnce) 0))).map
        (·.sequence) = [2, 1, 2]) ∧
    ∃ x w, patient.OrderlyRun 0 (takenAndCancelled ++ readInTurn) x ∧
      x.node.workers.get? 0 = some w ∧ w.phase = .running ∧ w.mailbox.kept = true ∧
      x.node.store.closed = false ∧ x.node.settings.persistRetryLimit = 1 ∧
      x.node.store.tried w.trade.id 2 = 3 := by
  constructor
  · obtain ⟨x, w, hplay, hk, hrunning, hkept, hopen, hrefused⟩ :
        ∃ x w, patient.playOrderly 0 (takenAndCancelled ++ readAtOnce) = some x ∧
          x.node.workers.get? 0 = some w ∧ w.phase = .running ∧ w.mailbox.kept = true ∧
          x.node.store.closed = false ∧ x.node.store.refused w.trade.id = [2] :=
      ⟨_, _, rfl, rfl, rfl, rfl, rfl, rfl⟩
    exact ⟨x, w, orderly_of_play hplay, hk, hrunning, hkept, hopen, hrefused, by decide +kernel⟩
  · obtain ⟨x, w, hplay, hx⟩ :
        ∃ x w, patient.playOrderly 0 (takenAndCancelled ++ readInTurn) = some x ∧
          x.node.workers.get? 0 = some w ∧ w.phase = .running ∧ w.mailbox.kept = true ∧
          x.node.store.closed = false ∧ x.node.settings.persistRetryLimit = 1 ∧
          x.node.store.tried w.trade.id 2 = 3 :=
      ⟨_, _, rfl, rfl, rfl, rfl, rfl, rfl, rfl⟩
    exact ⟨x, w, orderly_of_play hplay, hx⟩

end Watched

end Node

end PeerTrade
