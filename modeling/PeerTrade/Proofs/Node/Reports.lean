import PeerTrade.Proofs.Node.Handover
import PeerTrade.Proofs.Node.Ledger
import PeerTrade.Proofs.Node.Ticks
import PeerTrade.Proofs.Store.Requests

/-!
# Reports about snapshots

A worker leaves a reporter behind for every snapshot that it hands in, which waits for the answer and
brings a failure to the worker's mailbox. What concerns the snapshots of one worker is read off the
node as a ledger (`Node.ledger`); the tickets of its reporters stand in the order in which they will
be answered (`Node.Reporting`). Whatever else happens at the node leaves both alone (`Node.Aside`).
-/

namespace PeerTrade

/-- The attempt at which a chore hands the snapshot in. -/
def Chore.attempt? : Chore → Option UInt32
  | persist attempt => some attempt
  | _ => none

/-- The failure that some mail reports. -/
def Mail.report? : Mail → Option (UInt64 × UInt32)
  | persistFailed f attempt => some (f.sequence, attempt)
  | _ => none

/-- The failure that is to be reported for a request that was made at some attempt. -/
def Store.failure? (s : Store) (q : Ticket × UInt32) : Option (UInt64 × UInt32) :=
  match s.answer? q.1 with
  | some (.error f) => some (f.sequence, q.2)
  | _ => none

/-- A worker for whose snapshots nothing has changed; mail about other things may have arrived. -/
structure Worker.Like (w w' : Worker) : Prop where
  trade : w'.trade = w.trade
  due : w'.chores.filterMap Chore.attempt? = w.chores.filterMap Chore.attempt?
  last : w'.lastFailure = w.lastFailure
  reports : w'.mailbox.queue.filterMap Mail.report? = w.mailbox.queue.filterMap Mail.report?
  line : ∀ e ∈ w'.mailbox.line, e ∈ w.mailbox.line ∨
    ((∀ j, e.1 ≠ .reporter j) ∧ e.2.report? = none)

theorem Worker.Like.refl (w : Worker) : w.Like w := ⟨rfl, rfl, rfl, rfl, fun _ he => .inl he⟩

theorem Worker.Like.trans {w w' w'' : Worker} (h : w.Like w') (h' : w'.Like w'') : w.Like w'' where
  trade := h'.trade.trans h.trade
  due := h'.due.trans h.due
  last := h'.last.trans h.last
  reports := h'.reports.trans h.reports
  line e he := (h'.line e he).elim (h.line e) .inr

theorem Worker.like_timers (w : Worker) (timers : Dict DeadlineKind Nat) :
    w.Like { w with timers } := ⟨rfl, rfl, rfl, rfl, fun _ he => .inl he⟩

namespace Node

variable {n n' m : Node} {k k' j : Nat} {w w' w₀ : Worker} {id : String} {t : Ticket}

/-! ## Requests -/

/-- The request of a worker that a reporter waits for. -/
def request? (n : Node) (k j : Nat) : Option (Ticket × UInt32) :=
  (n.reporters.get? j).bind fun r => if r.worker = k then some (r.ticket, r.attempt) else none

/-- The requests of a worker that somebody waits for, in the order in which they were made, with
their attempts. -/
def requests (n : Node) (k : Nat) : List (Ticket × UInt32) :=
  (List.range n.store.issued).filterMap (n.request? k)

/-- The attempt at which a request was made. -/
def attemptOf (n : Node) (t : Ticket) : UInt32 :=
  ((n.reporters.get? t.number).map (·.attempt)).getD 0

/-- Each reporter has the number of the ticket that it waits for, and that has been given out. -/
def Numbered (n : Node) : Prop :=
  ∀ j r, n.reporters.get? j = some r → r.ticket.number = j ∧ j < n.store.issued

/-- How the snapshots of a worker fare. -/
def ledger (n : Node) (k : Nat) (w : Worker) (handed : List UInt64) : Ledger where
  current := w.trade.sequence
  due := w.chores.filterMap Chore.attempt?
  last := w.lastFailure
  pending := (n.store.pending.get? w.trade.id).map fun p =>
    (p.sequence, p.waiters.map n.attemptOf)
  writing := (n.store.written? w.trade.id).map fun p => (p.sequence, p.waiters.map n.attemptOf)
  unread := w.mailbox.queue.filterMap Mail.report? ++ (n.requests k).filterMap n.store.failure?
  finished := (n.store.attempts.filter (·.tradeId = w.trade.id)).map fun a =>
    (a.sequence, a.succeeded)
  handed

/-- What stands in line for a mailbox is a failure that its reporter has been told, or no report. -/
def Lined (n : Node) : Actor × Mail → Prop
  | (.reporter j, mail) => j < n.store.issued ∧ ∀ r, n.reporters.get? j = some r →
      ∃ f, n.store.answer? r.ticket = some (.error f) ∧ mail = .persistFailed f r.attempt
  | (_, mail) => mail.report? = none

/-- The reporters of a worker wait for tickets in order: those that have been answered come first,
then those that are answered by the write under way, and then those that wait for what is pending. -/
structure Reporting (n : Node) (k : Nat) (w : Worker) : Prop where
  numbered : n.Numbered
  aligned : ∃ done, (n.requests k).map (·.1) = done ++
      (Store.waiters (n.store.written? w.trade.id) ++
        Store.waiters (n.store.pending.get? w.trade.id)) ∧
    ∀ t ∈ done, n.store.Answered t.number
  lined : ∀ e ∈ w.mailbox.line, n.Lined e
  newest : ∀ greatest, n.store.highest.get? w.trade.id = some greatest →
    greatest ≤ w.trade.sequence

theorem request?_eq_some {q : Ticket × UInt32} (h : n.request? k j = some q) :
    ∃ r, n.reporters.get? j = some r ∧ r.worker = k ∧ q = (r.ticket, r.attempt) := by
  obtain ⟨r, hr, h⟩ := Option.bind_eq_some_iff.1 h
  split at h
  next hworker =>
    cases h
    exact ⟨r, hr, hworker, rfl⟩
  next => cases h

theorem Numbered.attemptOf_eq (h : n.Numbered) {q : Ticket × UInt32} (hq : q ∈ n.requests k) :
    n.attemptOf q.1 = q.2 := by
  obtain ⟨j, -, hj⟩ := List.mem_filterMap.1 hq
  obtain ⟨r, hr, -, rfl⟩ := request?_eq_some hj
  rw [attemptOf, (h j r hr).1, hr]
  rfl

theorem Numbered.of_same (h : n.Numbered) (hreporters : n'.reporters = n.reporters)
    (hissued : n'.store.issued = n.store.issued) : n'.Numbered := by
  rwa [Numbered, hreporters, hissued]

theorem requests_of_same (hreporters : n'.reporters = n.reporters)
    (hissued : n'.store.issued = n.store.issued) : n'.requests k = n.requests k := by
  rw [requests, requests, hissued]
  congr 1
  funext j
  rw [request?, request?, hreporters]

theorem attemptOf_of_same (hreporters : n'.reporters = n.reporters) :
    n'.attemptOf = n.attemptOf := by
  funext t
  rw [attemptOf, attemptOf, hreporters]

/-- The requests of a worker whose numbers are known. -/
theorem requests_eq (hissued : n.store.issued ≤ n'.store.issued)
    (hsame : ∀ j < n.store.issued, n'.request? k j = n.request? k j)
    (hmore : ∀ j, n.store.issued ≤ j → j < n'.store.issued → n'.request? k j = none) :
    n'.requests k = n.requests k := by
  obtain ⟨more, hmore'⟩ := Nat.exists_eq_add_of_le hissued
  have hnew : ((List.range more).map (n.store.issued + ·)).filterMap (n'.request? k) = [] := by
    rw [List.filterMap_eq_nil_iff]
    intro j hj
    obtain ⟨i, hi, rfl⟩ := List.mem_map.1 hj
    have hlt := List.mem_range.1 hi
    exact hmore _ (Nat.le_add_right _ _) (by omega)
  rw [requests, requests, hmore', List.range_add, List.filterMap_append, hnew, List.append_nil]
  apply List.filterMap_congr
  exact fun j hj => hsame j (List.mem_range.1 hj)

/-! ## What has nothing to do with the snapshots of a worker -/

/-- The snapshots of a worker fare as before, and so do its reporters. -/
structure Aside (n n' : Node) (k : Nat) (id : String) : Prop where
  settings : n'.settings = n.settings
  store : n.store.Beside n'.store id
  requests : n'.requests k = n.requests k
  reporters : ∀ j r', n'.reporters.get? j = some r' →
    (r'.ticket.number = j ∧ n.store.issued ≤ j ∧ j < n'.store.issued) ∨
      ∃ r, n.reporters.get? j = some r ∧ r'.ticket = r.ticket ∧ r'.attempt = r.attempt
  worker : ∀ w, n.workers.get? k = some w → ∃ w', n'.workers.get? k = some w' ∧ w.Like w'

theorem Aside.trans (h : n.Aside m k id) (h' : m.Aside n' k id) : n.Aside n' k id where
  settings := h'.settings.trans h.settings
  store := h.store.trans h'.store
  requests := h'.requests.trans h.requests
  reporters j r'' hr'' := by
    rcases h'.reporters j r'' hr'' with ⟨hnumber, hle, hlt⟩ | ⟨r', hr', hticket, hattempt⟩
    · exact .inl ⟨hnumber, Nat.le_trans h.store.issued hle, hlt⟩
    · rcases h.reporters j r' hr' with ⟨hnumber, hle, hlt⟩ | ⟨r, hr, hticket', hattempt'⟩
      · exact .inl ⟨hticket ▸ hnumber, hle, Nat.lt_of_lt_of_le hlt h'.store.issued⟩
      · exact .inr ⟨r, hr, hticket.trans hticket', hattempt.trans hattempt'⟩
  worker w hk := by
    obtain ⟨w', hk', hw⟩ := h.worker w hk
    obtain ⟨w'', hk'', hw'⟩ := h'.worker w' hk'
    exact ⟨w'', hk'', hw.trans hw'⟩

theorem Aside.numbered (h : n.Aside n' k id) (hnumbered : n.Numbered) : n'.Numbered := by
  intro j r' hr'
  rcases h.reporters j r' hr' with ⟨hnumber, -, hlt⟩ | ⟨r, hr, hticket, -⟩
  · exact ⟨hnumber, hlt⟩
  · obtain ⟨hnumber, hlt⟩ := hnumbered j r hr
    exact ⟨hticket ▸ hnumber, Nat.lt_of_lt_of_le hlt h.store.issued⟩

theorem Aside.lined (h : n.Aside n' k id) {e : Actor × Mail} (he : n.Lined e) : n'.Lined e := by
  obtain ⟨sender, mail⟩ := e
  cases sender with
  | reporter j =>
    obtain ⟨hlt, hall⟩ := he
    refine ⟨Nat.lt_of_lt_of_le hlt h.store.issued, fun r' hr' => ?_⟩
    rcases h.reporters j r' hr' with ⟨-, hle, -⟩ | ⟨r, hr, hticket, hattempt⟩
    · exact absurd hlt (Nat.not_lt.2 hle)
    · obtain ⟨f, hanswer, hmail⟩ := hall r hr
      obtain ⟨given, hgiven⟩ := h.store.answers
      refine ⟨f, ?_, by rw [hmail, hattempt]⟩
      rw [hticket, Store.answer?_append (Store.answered_of_answer? hanswer) hgiven, hanswer]
  | writer | worker | timer | carrier | caller => exact he

/-- Nobody but a reporter brings reports. -/
theorem lined_iff {e : Actor × Mail} (hsender : ∀ j, e.1 ≠ .reporter j) :
    n.Lined e ↔ e.2.report? = none := by
  obtain ⟨sender, mail⟩ := e
  cases sender with
  | reporter j => exact absurd rfl (hsender j)
  | writer | worker | timer | carrier | caller => exact Iff.rfl

/-- Who waits has not been answered, so that there is no failure to report. -/
theorem failure?_of_awaits {s : Store} (hapart : s.Apart) {q : Ticket × UInt32}
    (h : s.Awaits q.1) : s.failure? q = none := by
  have hnone := Store.answer?_eq_none_iff.2 (hapart.waiting q.1 h).2
  simp [Store.failure?, hnone]

theorem awaits_of_mem_waiters {s : Store} (h : t ∈ Store.waiters (s.written? id) ++
    Store.waiters (s.pending.get? id)) : s.Awaits t := by
  rcases List.mem_append.1 h with h | h
  · cases hwritten : s.written? id with
    | none => simp [Store.waiters, hwritten] at h
    | some p =>
      obtain ⟨held, hwriter⟩ := Store.written?_eq_some hwritten
      exact .inr ⟨id, p, held, hwriter, by simpa [Store.waiters, hwritten] using h⟩
  · cases hpending : s.pending.get? id with
    | none => simp [Store.waiters, hpending] at h
    | some p => exact .inl ⟨id, p, hpending, by simpa [Store.waiters, hpending] using h⟩

theorem Reporting.mem_requests (h : n.Reporting k w) {p : Pending}
    (hp : n.store.written? w.trade.id = some p ∨ n.store.pending.get? w.trade.id = some p)
    (ht : t ∈ p.waiters) : ∃ q ∈ n.requests k, q.1 = t := by
  obtain ⟨done, haligned, -⟩ := h.aligned
  apply List.mem_map.1
  rw [haligned]
  rcases hp with hp | hp
  · simp [hp, Store.waiters, ht]
  · simp [hp, Store.waiters, ht]

/-- Nobody has yet to report a failure whose snapshot waits to be written. -/
theorem Reporting.failures_of_aside (h : n.Reporting k w) (haside : n.Aside n' k w.trade.id)
    (hapart : n'.store.Apart) {q : Ticket × UInt32} (hq : q ∈ n.requests k) :
    n'.store.failure? q = n.store.failure? q := by
  obtain ⟨done, haligned, hdone⟩ := h.aligned
  obtain ⟨given, hgiven⟩ := haside.store.answers
  have hmem : q.1 ∈ (n.requests k).map (·.1) := List.mem_map_of_mem hq
  rw [haligned] at hmem
  -- an answer is final, and who has none yet waits for this trade as before
  by_cases hanswered : n.store.Answered q.1.number
  · rw [Store.failure?, Store.failure?, Store.answer?_append hanswered hgiven]
  · rcases List.mem_append.1 hmem with hmem | hmem
    · exact absurd (hdone _ hmem) hanswered
    · rw [← haside.store.written, ← haside.store.pending] at hmem
      rw [failure?_of_awaits hapart (awaits_of_mem_waiters hmem)]
      simp [Store.failure?, Store.answer?_eq_none_iff.2 hanswered]

/-- What has nothing to do with the snapshots of a worker changes nothing in its ledger. -/
theorem Reporting.aside (h : n.Reporting k w) (hk : n.workers.get? k = some w)
    (haside : n.Aside n' k w.trade.id) (hapart : n'.store.Apart)
    (hk' : n'.workers.get? k = some w') (handed : List UInt64) :
    n'.Reporting k w' ∧ n'.ledger k w' handed = n.ledger k w handed := by
  obtain ⟨w₁, hk₁, hlike⟩ := haside.worker w hk
  cases hk'.symm.trans hk₁
  have hnumbered := haside.numbered h.numbered
  -- whoever waits for the snapshot of this trade is a request of this worker
  have hattempt {p : Pending}
      (hp : n.store.written? w.trade.id = some p ∨ n.store.pending.get? w.trade.id = some p) :
      p.waiters.map n'.attemptOf = p.waiters.map n.attemptOf := by
    apply List.map_congr_left
    intro t ht
    obtain ⟨q, hq, rfl⟩ := h.mem_requests hp ht
    rw [h.numbered.attemptOf_eq hq, hnumbered.attemptOf_eq (haside.requests ▸ hq)]
  refine ⟨⟨hnumbered, ?_, fun e he => ?_, ?_⟩, ?_⟩
  · obtain ⟨done, haligned, hdone⟩ := h.aligned
    obtain ⟨given, hgiven⟩ := haside.store.answers
    refine ⟨done, ?_, fun t ht => (hdone t ht).mono _ hgiven⟩
    rw [haside.requests, hlike.trade, haside.store.written, haside.store.pending, haligned]
  · rcases hlike.line e he with hold | ⟨hsender, hmail⟩
    · exact haside.lined (h.lined e hold)
    · exact (lined_iff hsender).2 hmail
  · rw [hlike.trade, haside.store.highest]
    exact h.newest
  · have hfailures : (n.requests k).filterMap n'.store.failure? =
        (n.requests k).filterMap n.store.failure? :=
      List.filterMap_congr fun q hq => h.failures_of_aside haside hapart hq
    simp only [ledger, hlike.trade, hlike.due, hlike.last, hlike.reports, haside.requests,
      haside.store.pending, haside.store.written, haside.store.finished, hfailures]
    congr 1
    · cases hp : n.store.pending.get? w.trade.id with
      | none => rfl
      | some p => simp [hattempt (.inr hp)]
    · cases hp : n.store.written? w.trade.id with
      | none => rfl
      | some p => simp [hattempt (.inl hp)]

/-! ## Frames -/

/-- Neither the store nor the reporters change. -/
theorem aside_of_same (hsettings : n'.settings = n.settings) (hstore : n'.store = n.store)
    (hreporters : n'.reporters = n.reporters)
    (hworker : ∀ w, n.workers.get? k = some w → ∃ w', n'.workers.get? k = some w' ∧ w.Like w') :
    n.Aside n' k id where
  settings := hsettings
  store := hstore ▸ .refl _ _
  requests := requests_of_same hreporters (congrArg Store.issued hstore)
  reporters j r hr := .inr ⟨r, by rwa [← hreporters], rfl, rfl⟩
  worker := hworker

theorem aside_of_eq (hsettings : n'.settings = n.settings) (hstore : n'.store = n.store)
    (hreporters : n'.reporters = n.reporters) (hworkers : n'.workers = n.workers) :
    n.Aside n' k id :=
  aside_of_same hsettings hstore hreporters fun w hk => ⟨w, hworkers ▸ hk, .refl w⟩

theorem Aside.refl (n : Node) (k : Nat) (id : String) : n.Aside n k id :=
  aside_of_eq rfl rfl rfl rfl

theorem aside_wake (n : Node) (actors : List Actor) : n.Aside (n.wake actors) k id :=
  aside_of_eq rfl rfl rfl rfl

theorem aside_setWorker (hk' : n.workers.get? k' = some w₀) (hlike : k' = k → w₀.Like w') :
    n.Aside (n.setWorker k' w') k id := by
  refine aside_of_same rfl rfl rfl fun w hk => ?_
  rw [get?_setWorker]
  split
  next heq =>
    subst heq
    rw [hk] at hk'
    cases hk'
    exact ⟨w', rfl, hlike rfl⟩
  next => exact ⟨w, hk, .refl w⟩

theorem aside_foldl {α : Type} {f : Node → α → Node} (hf : ∀ (n : Node) a, n.Aside (f n a) k id)
    (l : List α) (n : Node) : n.Aside (l.foldl f n) k id := by
  induction l generalizing n with
  | nil => exact .refl n k id
  | cons a rest ih => exact (hf n a).trans (ih (f n a))

theorem aside_send (n : Node) (t : Trade) (m : Outbound) : n.Aside (n.send t m) k id := by
  unfold send
  split
  · exact aside_of_eq rfl rfl rfl rfl
  · exact aside_of_eq rfl rfl rfl rfl

theorem like_withdraw (w : Worker) (sender : Actor) :
    w.Like { w with mailbox := (w.mailbox.withdraw sender).1 } := by
  obtain ⟨hqueue, hline⟩ := w.mailbox.withdraw_still sender
  exact ⟨rfl, rfl, rfl, by rw [hqueue], fun e he => .inl (hline.subset he)⟩

theorem aside_cancelTimer (n : Node) (number : Nat) : n.Aside (n.cancelTimer number) k id := by
  unfold cancelTimer
  split
  · exact .refl n k id
  next timer _ =>
    have htimers : n.Aside { n with timers := n.timers.erase number } k id :=
      aside_of_eq rfl rfl rfl rfl
    dsimp only
    split
    · exact htimers
    next w hw =>
      have hset : Aside { n with timers := n.timers.erase number } _ k id :=
        aside_setWorker hw fun _ => like_withdraw w (.timer number)
      exact (htimers.trans hset).trans (aside_wake _ _)

theorem aside_stopTimer (n : Node) (k' : Nat) (kind : DeadlineKind) :
    n.Aside (n.stopTimer k' kind) k id := by
  unfold stopTimer
  split
  · exact .refl n k id
  next w hw =>
    split
    · exact .refl n k id
    next number _ =>
      have hset : n.Aside _ k id :=
        aside_setWorker hw fun _ => w.like_timers (w.timers.erase kind)
      exact hset.trans (aside_cancelTimer _ number)

theorem aside_startTimer (n : Node) (now : Time) (k' : Nat) (deadline : DeadlineId)
    (after : Duration) : n.Aside (n.startTimer now k' deadline after) k id := by
  have hstopped : n.Aside (n.stopTimer k' deadline.kind) k id := n.aside_stopTimer k' deadline.kind
  unfold startTimer
  dsimp only
  split
  · exact hstopped
  next w hw =>
    have hset : Aside _ _ k id := aside_setWorker hw fun _ => w.like_timers
      (w.timers.insert deadline.kind (n.stopTimer k' deadline.kind).timed)
    exact (hstopped.trans hset).trans (aside_of_eq rfl rfl rfl rfl)

theorem like_offer (w : Worker) {sender : Actor} {mail : Mail} (hsender : ∀ j, sender ≠ .reporter j)
    (hmail : mail.report? = none) :
    w.Like { w with mailbox := (w.mailbox.offer sender mail).1 } := by
  refine ⟨rfl, rfl, rfl, ?_, fun e he => ?_⟩
  · show (w.mailbox.offer sender mail).1.queue.filterMap Mail.report? = _
    unfold Mailbox.offer
    split
    · simp [hmail]
    · rfl
  · rcases Mailbox.mem_line_offer he with hold | rfl
    · exact .inl hold
    · exact .inr ⟨hsender, hmail⟩

/-- Mail about other things, or for another worker. -/
theorem aside_deliver (n : Node) (k' : Nat) (sender : Actor) (mail : Mail)
    (hordinary : k' = k → (∀ j, sender ≠ .reporter j) ∧ mail.report? = none) :
    n.Aside (n.deliver k' sender mail).1 k id := by
  rcases n.deliver_cases k' sender mail with ⟨heq, -⟩ | ⟨w, woken, hk', -, heq⟩
  · rw [heq]
    exact .refl n k id
  · rw [heq]
    have hset : n.Aside _ k id := aside_setWorker hk'
      fun hk => like_offer w (hordinary hk).1 (hordinary hk).2
    exact hset.trans (aside_of_eq rfl rfl rfl rfl)

theorem like_enter {sender : Actor} {mailbox : Mailbox Actor Mail}
    (henter : w.mailbox.enter sender = some mailbox)
    (hplain : ∀ mail, (sender, mail) ∈ w.mailbox.line → mail.report? = none) :
    w.Like { w with mailbox } := by
  obtain ⟨message, hlookup, rfl⟩ := Option.map_eq_some_iff.1 henter
  have hmem : (sender, message) ∈ w.mailbox.line := by
    obtain ⟨front, back, hadmitted, -⟩ := List.lookup_eq_some_iff.1 hlookup
    exact List.mem_append_left _ (by simp [hadmitted])
  obtain ⟨-, hline, -⟩ := Mailbox.enter_line henter
  exact ⟨rfl, rfl, rfl, by simp [hplain message hmem], fun e he => .inl (hline he)⟩

theorem aside_enter (n : Node) (k' : Nat) (sender : Actor)
    (hplain : ∀ w mail, k' = k → n.workers.get? k = some w → (sender, mail) ∈ w.mailbox.line →
      mail.report? = none) : n.Aside (n.enter k' sender).1 k id := by
  rcases n.enter_cases k' sender with ⟨heq, -⟩ | ⟨w, mailbox, woken, hk', -, henter, heq⟩
  · rw [heq]
    exact .refl n k id
  · rw [heq]
    have hset : n.Aside _ k id := aside_setWorker hk'
      fun hk => like_enter henter fun mail => hplain w mail hk (hk ▸ hk')
    exact hset.trans (aside_of_eq rfl rfl rfl rfl)

/-- Mail from a timer or a reporter, in line or not yet. -/
theorem aside_passing (n : Node) (k' : Nat) (sender : Actor) (mail : Mail) (isSending : Bool)
    (hplain : ∀ w mail, k' = k → n.workers.get? k = some w → (sender, mail) ∈ w.mailbox.line →
      mail.report? = none)
    (hordinary : k' = k → (∀ j, sender ≠ .reporter j) ∧ mail.report? = none) :
    n.Aside (if isSending then n.enter k' sender
      else n.deliverIfReachable k' sender mail).1 k id := by
  cases isSending with
  | true => exact n.aside_enter k' sender hplain
  | false =>
    show n.Aside (n.deliverIfReachable k' sender mail).1 k id
    rcases n.deliverIfReachable_cases k' sender mail with ⟨heq, -⟩ | heq
    · rw [heq]
      exact .refl n k id
    · rw [heq]
      exact n.aside_deliver k' sender mail hordinary

theorem reporters_passing (n : Node) (k' : Nat) (sender : Actor) (mail : Mail)
    (isSending : Bool) : (if isSending then n.enter k' sender
      else n.deliverIfReachable k' sender mail).1.reporters = n.reporters := by
  cases isSending with
  | true =>
    show (n.enter k' sender).1.reporters = n.reporters
    rcases n.enter_cases k' sender with ⟨heq, -⟩ | ⟨w, mailbox, woken, -, -, -, heq⟩
    · rw [heq]
    · rw [heq]
      rfl
  | false =>
    show (n.deliverIfReachable k' sender mail).1.reporters = n.reporters
    rcases n.deliverIfReachable_cases k' sender mail with ⟨heq, -⟩ | heq
    · rw [heq]
    · rcases n.deliver_cases k' sender mail with ⟨heq', -⟩ | ⟨w, woken, -, -, heq'⟩
      · rw [heq, heq']
      · rw [heq, heq']
        rfl

/-- The news of a timer are no report. -/
theorem aside_stepTimer {now : Time} {number : Nat} (hstep : n.stepTimer now number = some n')
    (hlined : ∀ w, n.workers.get? k = some w → ∀ e ∈ w.mailbox.line, n.Lined e) :
    n.Aside n' k id := by
  have hsender : ∀ j, Actor.timer number ≠ .reporter j := nofun
  obtain ⟨timer, m, delivery, -, hpassed, hdone⟩ := stepTimer_cases hstep
  have hm : _ = m := congrArg Prod.fst hpassed
  have haside : n.Aside m k id := by
    rw [← hm]
    exact n.aside_passing timer.worker (.timer number) _ timer.sending
      (fun w mail _ hk hmail => (lined_iff hsender).1 (hlined w hk _ hmail)) fun _ => ⟨hsender, rfl⟩
  -- what follows concerns the timer alone
  rcases hdone with ⟨-, rfl⟩ | ⟨-, -, rfl⟩
  · exact haside.trans (aside_of_eq rfl rfl rfl rfl)
  · exact haside.trans (aside_of_eq rfl rfl rfl rfl)

/-! ## What others hand in -/

theorem ticket_schedule (s : Store) (t : Trade) :
    (s.schedule t).2 = ⟨s.issued, t.id, t.sequence⟩ := rfl

theorem get?_reporters_persist (n : Node) (k' : Nat) (t : Trade) (attempt : UInt32) (j : Nat) :
    (n.persist k' t attempt).reporters.get? j =
      if j = n.store.issued then some ⟨⟨n.store.issued, t.id, t.sequence⟩, k', attempt, false⟩
      else n.reporters.get? j := by
  show (n.reporters.insert (n.store.schedule t).2.number
    ⟨(n.store.schedule t).2, k', attempt, false⟩).get? j = _
  simp [ticket_schedule, Dict.get?_insert]

theorem issued_persist (n : Node) (k' : Nat) (t : Trade) (attempt : UInt32) :
    (n.persist k' t attempt).store.issued = n.store.issued + 1 :=
  (n.store.schedule_keeps t).2.2

theorem aside_persist (n : Node) {t : Trade} (attempt : UInt32) (hne : k' ≠ k)
    (hid : t.id ≠ id) : n.Aside (n.persist k' t attempt) k id where
  settings := rfl
  store := n.store.beside_schedule hid
  requests := by
    apply requests_eq
    · rw [issued_persist]
      exact Nat.le_succ _
    · intro j hj
      rw [request?, request?, get?_reporters_persist, if_neg (Nat.ne_of_lt hj)]
    · intro j hle hlt
      rw [issued_persist] at hlt
      obtain rfl : j = n.store.issued := by omega
      simp [request?, get?_reporters_persist, hne]
  reporters j r hr := by
    rw [get?_reporters_persist] at hr
    split at hr
    next hj =>
      cases hr
      rw [issued_persist, hj]
      exact .inl ⟨rfl, Nat.le_refl _, Nat.lt_succ_self _⟩
    next => exact .inr ⟨r, hr, rfl, rfl⟩
  worker w hk := ⟨w, hk, .refl w⟩

/-- A chore that hands nothing in for the trade of a worker. -/
theorem aside_perform (n : Node) (now : Time) (k' : Nat) (t : Trade) (chore : Chore)
    (hpersist : ∀ attempt, chore = .persist attempt → k' ≠ k ∧ t.id ≠ id) :
    n.Aside (n.perform now k' t chore) k id := by
  cases chore with
  | persist attempt =>
    obtain ⟨hne, hid⟩ := hpersist attempt rfl
    exact n.aside_persist attempt hne hid
  | post happening => exact aside_of_eq rfl rfl rfl rfl
  | startTimer deadline after => exact n.aside_startTimer now k' deadline after
  | stopTimer kind => exact n.aside_stopTimer k' kind
  | send message => exact n.aside_send t message
  | answer caller outcome => exact aside_of_eq rfl rfl rfl rfl

theorem aside_read (n : Node) (now : Time) (hk' : n.workers.get? k' = some w₀)
    (mailbox : Mailbox Actor Mail) (mail : Mail) (hne : k' ≠ k) :
    n.Aside (n.read now k' { w₀ with mailbox } mail) k id := by
  have hset (w' : Worker) : n.Aside (n.setWorker k' w') k id :=
    aside_setWorker hk' fun heq => absurd heq hne
  cases mail with
  | event e caller =>
    rw [read]
    split
    · -- those who are told that the worker has stopped are callers
      unfold breakDown
      refine ((hset _).trans (aside_foldl (fun n c => ?_) _ _)).trans (aside_wake _ _)
      exact aside_of_eq rfl rfl rfl rfl
    · exact hset _
  | inspect c => exact (hset _).trans (aside_of_eq rfl rfl rfl rfl)
  | persistFailed f attempt => exact hset _

/-- What another worker does for another trade. -/
theorem aside_stepWorker {now : Time} (hstep : n.stepWorker now k' = some n') (hne : k' ≠ k)
    (hid : ∀ t, (k', t) ∈ n.handsIn (.step now (.worker k')) → t.id ≠ id) :
    n.Aside n' k id := by
  unfold stepWorker at hstep
  obtain ⟨w, hw, hstep⟩ := Option.bind_eq_some_iff.1 hstep
  have hset (w' : Worker) : n.Aside (n.setWorker k' w') k id :=
    aside_setWorker hw fun heq => absurd heq hne
  split at hstep
  · cases hstep
  next hrunning =>
    have hrunning : w.phase = .running := Decidable.not_not.1 hrunning
    split at hstep
    next chore chores hchores =>
      cases hstep
      refine (hset _).trans (aside_perform _ _ _ _ _ ?_)
      rintro attempt rfl
      exact ⟨hne, hid _ (by simp [handsIn, hw, hrunning, hchores])⟩
    next hchores =>
      split at hstep
      next mail mailbox admitted htake =>
        cases hstep
        exact (n.aside_read now hw mailbox mail hne).trans (aside_wake _ _)
      next htake =>
        split at hstep
        · cases hstep
        · cases hstep
          exact (hset _).trans (aside_foldl aside_cancelTimer _ _)

/-- Another trade is taken on. -/
theorem aside_start {now : Time} {t : Trade} {isStored : Bool}
    (hstart : n.start now t isStored = .ok n') (hne : n.started ≠ k)
    (hid : isStored = false → t.id ≠ id) : n.Aside n' k id := by
  unfold start at hstart
  split at hstart
  · cases hstart
  · cases hstart
    let w : Worker := { trade := t, mailbox := .new n.settings.mailboxCapacity.toNat }
    let m : Node := { n.setWorker n.started w with
      live := n.live.insert t.id n.started, started := n.started + 1 }
    have hbegun : n.Aside m k id := aside_of_same rfl rfl rfl fun w' hk =>
      ⟨w', (n.get?_setWorker ..).trans ((if_neg (Ne.symm hne)).trans hk), .refl w'⟩
    have hhanded : m.Aside (if isStored then m else m.persist n.started t 0) k id := by
      cases isStored with
      | true => exact .refl m k id
      | false => exact m.aside_persist 0 hne (hid rfl)
    refine (hbegun.trans hhanded).trans ((aside_foldl (fun n d => ?_) _ _).trans (aside_wake _ _))
    exact n.aside_startTimer _ _ _ _

/-! ## Reporters -/

/-- A request of a worker has failed, and that has not been reported yet. -/
def Owes (n : Node) (k j : Nat) : Prop :=
  ∃ r f, n.reporters.get? j = some r ∧ r.worker = k ∧ n.store.answer? r.ticket = some (.error f)

theorem get?_reporters_erase (n : Node) (i j : Nat) :
    (n.reporters.erase i).get? j = if j = i then none else n.reporters.get? j := by
  simp [Dict.get?_erase]

theorem get?_reporters_insert (n : Node) (i j : Nat) (r : Reporter) :
    (n.reporters.insert i r).get? j = if j = i then some r else n.reporters.get? j := by
  simp [Dict.get?_insert]

/-- Reporters of others come and go. -/
theorem aside_reporters (n : Node) (reporters : Dict Nat Reporter)
    (hsame : ∀ i, request? { n with reporters } k i = n.request? k i)
    (hold : ∀ i r', reporters.get? i = some r' →
      ∃ r, n.reporters.get? i = some r ∧ r'.ticket = r.ticket ∧ r'.attempt = r.attempt) :
    n.Aside { n with reporters } k id where
  settings := rfl
  store := .refl _ _
  requests := by
    rw [requests, requests]
    congr 1
    funext i
    exact hsame i
  reporters i r' hr' := .inr (hold i r' hr')
  worker w hk := ⟨w, hk, .refl w⟩

theorem aside_erase (n : Node) (hother : n.request? k j = none) :
    n.Aside { n with reporters := n.reporters.erase j } k id := by
  refine n.aside_reporters _ (fun i => ?_) fun i r' hr' => ⟨r', ?_, rfl, rfl⟩
  · by_cases hi : i = j
    · subst hi
      rw [hother, request?, get?_reporters_erase, if_pos rfl]
      rfl
    · rw [request?, request?, get?_reporters_erase, if_neg hi]
  · rw [get?_reporters_erase] at hr'
    split at hr'
    · cases hr'
    · exact hr'

theorem aside_sending (n : Node) {r : Reporter} (hr : n.reporters.get? j = some r) :
    n.Aside { n with reporters := n.reporters.insert j { r with sending := true } } k id := by
  refine n.aside_reporters _ (fun i => ?_) fun i r' hr' => ?_
  · by_cases hi : i = j
    · subst hi
      rw [request?, request?, get?_reporters_insert, if_pos rfl, hr]
      rfl
    · rw [request?, request?, get?_reporters_insert, if_neg hi]
  · rw [get?_reporters_insert] at hr'
    split at hr'
    next hi =>
      cases hr'
      exact ⟨r, hi ▸ hr, rfl, rfl⟩
    next => exact ⟨r', hr', rfl, rfl⟩

/-- The reporter of another worker. -/
theorem aside_stepReporter (hstep : n.stepReporter j = some n')
    (hother : n.request? k j = none) : n.Aside n' k id := by
  obtain ⟨r, hr, ⟨-, rfl⟩ | ⟨f, m, delivery, -, hpassed, hdone⟩⟩ := stepReporter_cases hstep
  · exact n.aside_erase hother
  · have hne : r.worker ≠ k := by
      rintro rfl
      simp [request?, hr] at hother
    have hm : _ = m := congrArg Prod.fst hpassed
    have haside : n.Aside m k id := by
      rw [← hm]
      apply aside_passing
      · exact fun _ _ heq => absurd heq hne
      · exact fun heq => absurd heq hne
    have hreporters : m.reporters = n.reporters := by
      rw [← hm]
      apply reporters_passing
    have hother' : m.request? k j = none := by rw [request?, hreporters]; exact hother
    rcases hdone with ⟨-, rfl⟩ | ⟨-, -, rfl⟩
    · exact haside.trans (m.aside_erase hother')
    · exact haside.trans (m.aside_sending (hreporters ▸ hr))

end Node

end PeerTrade
