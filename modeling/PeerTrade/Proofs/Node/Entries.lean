import PeerTrade.Proofs.Node.Reports

/-!
# Entries in the books

What happens to the snapshots of a worker makes one entry in its books (`Node.Entry`): the worker
commits or reads of a failure (`Node.Reporting.read`), it hands its snapshot in
(`Node.Reporting.persist`), and the writer takes what is pending or finishes what is being written
(`Node.Reporting.stepWriter`).
-/

namespace PeerTrade.Node

variable {n n' m : Node} {k k' j : Nat} {w w' : Worker} {id : String} {limit : UInt32}

/-- What happens to the snapshots of a worker shows in its ledger as one step. -/
structure Entry (n : Node) (k : Nat) (w : Worker) (handed : List UInt64) (n' : Node) (w' : Worker)
    (handed' : List UInt64) : Prop where
  reporting : n'.Reporting k w'
  settings : n'.settings = n.settings
  step : (n.ledger k w handed).Step n.settings.persistRetryLimit (n'.ledger k w' handed')

/-- What has nothing to do with the snapshots leaves the books as they are. -/
theorem Reporting.entry_of_aside (h : n.Reporting k w) (hk : n.workers.get? k = some w)
    (haside : n.Aside n' k w.trade.id) (hapart : n'.store.Apart)
    (hk' : n'.workers.get? k = some w') (handed : List UInt64) :
    n.Entry k w handed n' w' handed := by
  obtain ⟨hreporting, hledger⟩ := h.aside hk haside hapart hk' handed
  exact ⟨hreporting, haside.settings, hledger ▸ .same⟩

/-! ## The worker itself -/

theorem ledger_of_same (hstore : n'.store = n.store) (hreporters : n'.reporters = n.reporters)
    (handed : List UInt64) : n'.ledger k w handed = n.ledger k w handed := by
  rw [ledger, ledger, requests_of_same hreporters (congrArg Store.issued hstore), hstore,
    attemptOf_of_same hreporters]

/-- The worker goes on with its trade, and somebody may leave its line. -/
theorem Reporting.of_same (h : n.Reporting k w) (hstore : n'.store = n.store)
    (hreporters : n'.reporters = n.reporters) (hid : w'.trade.id = w.trade.id)
    (hle : w.trade.sequence ≤ w'.trade.sequence) (hline : ∀ e ∈ w'.mailbox.line, n.Lined e) :
    n'.Reporting k w' where
  numbered := h.numbered.of_same hreporters (congrArg Store.issued hstore)
  aligned := by
    rw [requests_of_same hreporters (congrArg Store.issued hstore), hstore, hid]
    exact h.aligned
  lined e he := by
    obtain ⟨sender, mail⟩ := e
    have hlined := hline _ he
    cases sender with
    | reporter j =>
      rw [Lined, hstore, hreporters]
      exact hlined
    | writer | worker | timer | carrier | caller => exact hlined
  newest greatest hgreatest := by
    rw [hstore, hid] at hgreatest
    exact UInt64.le_trans (h.newest greatest hgreatest) hle

/-- What an outcome has the worker hand in. -/
theorem due_chores (event : Event) (o : Outcome) (caller : Option Nat) :
    (o.chores event ++ caller.toList.map (Chore.answer · o)).filterMap Chore.attempt? =
      match o with
      | .committed _ => [0]
      | .rejected _ => [] := by
  have hexpiry : event.expiry.filterMap Chore.attempt? = [] := by
    cases event <;> simp [Event.expiry, Chore.attempt?]
  have heffects (l : List Effect) : (l.map Effect.chore).filterMap Chore.attempt? = [] := by
    rw [List.filterMap_map, List.filterMap_eq_nil_iff]
    intro e _
    cases e <;> rfl
  have hanswers : (caller.toList.map (Chore.answer · o)).filterMap Chore.attempt? = [] := by
    cases caller <;> rfl
  rw [List.filterMap_append, hanswers, List.append_nil]
  cases o with
  | rejected r => rfl
  | committed c =>
    cases hfinalized : c.finalized <;>
      simp [Outcome.chores, hexpiry, heffects, hfinalized, Chore.attempt?]

/-- A worker decides on an event. -/
theorem like_or_commits (w : Worker) (engine : Engine) (date : Instant) (event : Event)
    (caller : Option Nat) (hchores : w.chores = []) :
    w.Like (w.decide engine date event caller) ∨
      ((w.decide engine date event caller).chores.filterMap Chore.attempt? = [0] ∧
        (w.decide engine date event caller).trade.id = w.trade.id ∧
        (w.decide engine date event caller).trade.sequence = w.trade.sequence + 1) := by
  have hdue : (w.decide engine date event caller).chores.filterMap Chore.attempt? = _ :=
    due_chores event (engine.handle date w.trade event).2 caller
  cases houtcome : (engine.handle date w.trade event).2 with
  | rejected r =>
    rw [houtcome] at hdue
    refine .inl ⟨Engine.handle_fst_of_rejected houtcome, ?_, rfl, rfl, fun _ he => .inl he⟩
    rw [hdue, hchores]
    rfl
  | committed c =>
    rw [houtcome] at hdue
    have hhandle : engine.handle date w.trade event =
        ((engine.handle date w.trade event).1, .committed c) := Prod.ext rfl houtcome
    obtain ⟨tr, hcommitted⟩ := Engine.exists_committed_of_handle hhandle
    obtain ⟨deadlines, hafter⟩ := hcommitted.after
    refine .inr ⟨hdue, ?_, ?_⟩
    · show (engine.handle date w.trade event).1.id = _
      rw [hafter]
    · show (engine.handle date w.trade event).1.sequence = _
      rw [hafter]

/-- A worker hears of a failure as its ledger does. -/
theorem ledger_hear (n : Node) (k : Nat) (w : Worker) (handed : List UInt64) (limit : UInt32)
    (f : PersistFailure) (attempt : UInt32) :
    n.ledger k (w.hear limit f attempt) handed =
      Ledger.hear limit (n.ledger k w handed) (f.sequence, attempt) := by
  have hdue (again : Bool) : (Chore.post (.persistenceFailed f) ::
      if again then [Chore.persist (attempt + 1)] else []).filterMap Chore.attempt? =
        if again then [attempt + 1] else [] := by
    cases again <;> rfl
  unfold Worker.hear Ledger.hear
  by_cases hheard : w.hasHeard f attempt = true
  · rw [if_pos hheard, if_pos]
    exact hheard
  · rw [if_neg hheard, if_neg]
    · simp only [ledger]
      congr 1
      exact hdue _
    · exact hheard

/-- The next mail is read, and those who are admitted in its place take their mail along. -/
theorem reports_of_take {mail : Mail} {mailbox : Mailbox Actor Mail} {admitted : Option Actor}
    (htake : w.mailbox.take = some (mail, mailbox, admitted)) :
    w.mailbox.queue.filterMap Mail.report? =
      mail.report?.toList ++ mailbox.queue.filterMap Mail.report? := by
  rw [(Mailbox.take_eq htake).1]
  cases hreport : mail.report? <;> simp [hreport]

/-- What is no report is read without consequence for the snapshots. -/
theorem like_of_take {mail : Mail} {mailbox : Mailbox Actor Mail} {admitted : Option Actor}
    (htake : w.mailbox.take = some (mail, mailbox, admitted)) (hmail : mail.report? = none) :
    w.Like { w with mailbox } := by
  refine ⟨rfl, rfl, rfl, ?_, fun e he => .inl ((Mailbox.take_eq htake).2 ▸ he)⟩
  rw [reports_of_take htake, hmail]
  rfl

/-- A worker reads an event that it commits to. -/
theorem Reporting.commits (h : n.Reporting k w) {mail : Mail} {mailbox : Mailbox Actor Mail}
    {admitted : Option Actor} (htake : w.mailbox.take = some (mail, mailbox, admitted))
    (hmail : mail.report? = none) (hstore : n'.store = n.store)
    (hreporters : n'.reporters = n.reporters) (hid : w'.trade.id = w.trade.id)
    (hle : w.trade.sequence ≤ w'.trade.sequence) (hlast : w'.lastFailure = w.lastFailure)
    (hmailbox : w'.mailbox = mailbox) (hdue : w'.chores.filterMap Chore.attempt? = [0])
    (handed : List UInt64) : n'.Reporting k w' ∧
      n'.ledger k w' handed = (n.ledger k w handed).commit w'.trade.sequence := by
  have hread := like_of_take htake hmail
  constructor
  · apply h.of_same hstore hreporters hid hle
    intro e he
    rw [hmailbox, (Mailbox.take_eq htake).2] at he
    exact h.lined e he
  · rw [ledger_of_same hstore hreporters]
    simp only [ledger, Ledger.commit, hdue, hid, hlast, hmailbox, ← hread.reports]

/-- A worker reads of a failure. -/
theorem Reporting.hears (h : n.Reporting k w) {f : PersistFailure} {attempt : UInt32}
    {mailbox : Mailbox Actor Mail} {admitted : Option Actor}
    (htake : w.mailbox.take = some (.persistFailed f attempt, mailbox, admitted))
    (hstore : n'.store = n.store) (hreporters : n'.reporters = n.reporters)
    (hw' : w' = Worker.hear { w with mailbox } limit f attempt) (handed : List UInt64) :
    n'.Reporting k w' ∧ n'.ledger k w' handed =
      Ledger.hear limit (n.ledger k { w with mailbox } handed) (f.sequence, attempt) := by
  obtain ⟨htrade, -, hmailbox⟩ := Worker.hear_same { w with mailbox } limit f attempt
  rw [← hw'] at htrade hmailbox
  constructor
  · apply h.of_same hstore hreporters (congrArg Trade.id htrade)
    · rw [htrade]
      exact UInt64.le_refl _
    · intro e he
      rw [hmailbox] at he
      exact h.lined e ((Mailbox.take_eq htake).2 ▸ he)
  · rw [ledger_of_same hstore hreporters, hw', ledger_hear]

/-- A worker reads its next mail: a failure, an event that it commits to, or something else. -/
theorem Reporting.read (h : n.Reporting k w) (hk : n.workers.get? k = some w) {now : Time}
    (hchores : w.chores = []) {mail : Mail} {mailbox : Mailbox Actor Mail}
    {admitted : Option Actor} (htake : w.mailbox.take = some (mail, mailbox, admitted))
    (hapart : n.store.Apart) (hn' : n' = (n.read now k { w with mailbox } mail).wake
      admitted.toList) (hk' : n'.workers.get? k = some w') (hrunning : w'.phase = .running)
    (hle : w.trade.sequence ≤ w'.trade.sequence) (handed : List UInt64) :
    n.Entry k w handed n' w' handed := by
  have hstore : n'.store = n.store := by
    rw [hn']
    exact (n.read_same now k { w with mailbox } mail).2.1
  have hapart' : n'.store.Apart := hstore ▸ hapart
  have hset (w₁ : Worker) : (n.setWorker k w₁).workers.get? k = some w₁ :=
    (n.get?_setWorker k k w₁).trans (if_pos rfl)
  cases mail with
  | inspect c =>
    have haside : n.Aside _ k w.trade.id := aside_setWorker hk fun _ => like_of_take htake rfl
    apply h.entry_of_aside hk _ hapart' hk'
    rw [hn']
    exact haside.trans (aside_of_eq rfl rfl rfl rfl)
  | event e caller =>
    rw [Node.read] at hn'
    split at hn'
    next =>
      -- a worker that breaks down does not run any more
      have hworkers := (n.breakDown_same k { w with mailbox } caller).2.2.2.2.2.2
      rw [hn'] at hk'
      change (n.breakDown k { w with mailbox } caller).workers.get? k = some w' at hk'
      rw [hworkers, hset] at hk'
      cases hk'
      cases hrunning
    next =>
      subst hn'
      change (n.setWorker k _).workers.get? k = some w' at hk'
      rw [hset] at hk'
      cases hk'
      have hread : w.Like { w with mailbox } := like_of_take htake rfl
      rcases like_or_commits { w with mailbox } n.engine now.date e caller hchores with
        hlike | ⟨hdue, hid, hsequence⟩
      · have haside : n.Aside _ k w.trade.id := aside_setWorker hk fun _ => hread.trans hlike
        exact h.entry_of_aside hk (haside.trans (aside_wake _ _)) hapart' (hset _) handed
      · have hne : w.trade.sequence ≠ w.trade.sequence + 1 := by simp
        have hlt := UInt64.lt_of_le_of_ne hle (hsequence ▸ hne)
        obtain ⟨hreporting, hledger⟩ := h.commits htake rfl hstore rfl hid hle rfl rfl hdue handed
        refine ⟨hreporting, rfl, ?_⟩
        rw [hledger]
        exact .commit (by simp [ledger, hchores]) hlt
  | persistFailed f attempt =>
    subst hn'
    change (n.setWorker k _).workers.get? k = some w' at hk'
    rw [hset] at hk'
    obtain ⟨hreporting, hledger⟩ := h.hears htake hstore rfl (Option.some.inj hk').symm handed
    refine ⟨hreporting, rfl, ?_⟩
    rw [hledger]
    have hunread : (n.ledger k w handed).unread = (f.sequence, attempt) ::
        (n.ledger k { w with mailbox } handed).unread := by
      simp only [ledger, reports_of_take htake]
      rfl
    exact .read (by simp [ledger, hchores]) hunread

/-! ## Handing in -/

/-- A request that has just been made has not been answered. -/
theorem failure?_of_new {s : Store} (hapart : s.Apart) {q : Ticket × UInt32}
    (hnew : s.issued ≤ q.1.number) : s.failure? q = none := by
  have hnot : ¬s.Answered q.1.number := by
    rintro ⟨a, ha, hnumber⟩
    have hlt := hapart.given a ha
    omega
  simp [Store.failure?, Store.answer?_eq_none_iff.2 hnot]

theorem requests_persist (n : Node) (k : Nat) (t : Trade) (attempt : UInt32) :
    (n.persist k t attempt).requests k =
      n.requests k ++ [(⟨n.store.issued, t.id, t.sequence⟩, attempt)] := by
  rw [requests, requests, issued_persist, List.range_succ, List.filterMap_append]
  congr 1
  · apply List.filterMap_congr
    intro j hj
    rw [request?, request?, get?_reporters_persist,
      if_neg (Nat.ne_of_lt (List.mem_range.1 hj))]
  · simp [request?, get?_reporters_persist]

/-- The worker hands its snapshot in. -/
theorem Reporting.persist (h : n.Reporting k w) (hapart : n.store.Apart)
    (hopen : n.store.closed = false) {record : Bytes}
    (hencode : w.trade.toSnapshot.encode = .ok record) (attempt : UInt32) (handed : List UInt64) :
    (n.persist k w.trade attempt).Reporting k w ∧
      (n.persist k w.trade attempt).ledger k w (handed ++ [w.trade.sequence]) =
        { n.ledger k w handed with
          pending := some (w.trade.sequence,
            (n.ledger k w handed).pending.elim [] (·.2) ++ [attempt])
          handed := handed ++ [w.trade.sequence] } := by
  have hjoins : n.store.Joins (n.persist k w.trade attempt).store w.trade :=
    Store.joins_schedule hopen hencode h.newest
  obtain ⟨record, hpending⟩ := hjoins.pending
  obtain ⟨done, haligned, hdone⟩ := h.aligned
  have hanswers : ∀ number, (n.persist k w.trade attempt).store.Answered number ↔
      n.store.Answered number := fun number => by
    rw [Store.Answered, Store.Answered, hjoins.answers]
  have hnumbered : (n.persist k w.trade attempt).Numbered := by
    intro j r hr
    rw [get?_reporters_persist] at hr
    rw [issued_persist]
    split at hr
    next hj =>
      cases hr
      exact ⟨hj.symm, by omega⟩
    next =>
      obtain ⟨hnumber, hlt⟩ := h.numbered j r hr
      exact ⟨hnumber, Nat.lt_succ_of_lt hlt⟩
  have hrequests := n.requests_persist k w.trade attempt
  have hattempt : ∀ q ∈ n.requests k, (n.persist k w.trade attempt).attemptOf q.1 = q.2 :=
    fun q hq => hnumbered.attemptOf_eq (k := k) (by rw [hrequests]; simp [hq])
  have hnew : (n.persist k w.trade attempt).attemptOf
      ⟨n.store.issued, w.trade.id, w.trade.sequence⟩ = attempt :=
    hnumbered.attemptOf_eq (k := k)
      (q := (⟨n.store.issued, w.trade.id, w.trade.sequence⟩, attempt)) (by rw [hrequests]; simp)
  have hold {p : Pending}
      (hp : n.store.written? w.trade.id = some p ∨ n.store.pending.get? w.trade.id = some p) :
      p.waiters.map (n.persist k w.trade attempt).attemptOf = p.waiters.map n.attemptOf := by
    apply List.map_congr_left
    intro t ht
    obtain ⟨q, hq, rfl⟩ := h.mem_requests hp ht
    rw [hattempt q hq, h.numbered.attemptOf_eq hq]
  -- the new request is the last one, and waits for what is pending
  refine ⟨⟨hnumbered, ⟨done, ?_, fun t ht => (hanswers _).2 (hdone t ht)⟩, fun e he => ?_,
    fun greatest hgreatest => ?_⟩, ?_⟩
  · rw [hrequests, List.map_append, haligned, hjoins.written, hpending]
    simp [Store.waiters]
  · -- what stands in line is about earlier requests
    obtain ⟨sender, mail⟩ := e
    have hlined := h.lined _ he
    cases sender with
    | reporter j =>
      obtain ⟨hlt, hall⟩ := hlined
      refine ⟨by rw [issued_persist]; exact Nat.lt_succ_of_lt hlt, fun r hr => ?_⟩
      rw [get?_reporters_persist, if_neg (Nat.ne_of_lt hlt)] at hr
      obtain ⟨f, hanswer, hmail⟩ := hall r hr
      exact ⟨f, by rw [Store.answer?, hjoins.answers]; exact hanswer, hmail⟩
    | writer | worker | timer | carrier | caller => exact hlined
  · rw [hjoins.highest] at hgreatest
    cases hgreatest
    exact UInt64.le_refl _
  · have hfailures : ((n.persist k w.trade attempt).requests k).filterMap
        (n.persist k w.trade attempt).store.failure? =
          (n.requests k).filterMap n.store.failure? := by
      have hsame : (n.persist k w.trade attempt).store.failure? = n.store.failure? := by
        funext q
        rw [Store.failure?, Store.failure?, Store.answer?, Store.answer?, hjoins.answers]
      rw [hrequests, hsame, List.filterMap_append]
      simp [failure?_of_new hapart]
    simp only [ledger, hfailures, hjoins.written, hjoins.attempts, hpending, Option.map_some]
    congr 1
    · simp only [Store.waiters, List.map_append, List.map_cons, List.map_nil, hnew]
      cases hp : n.store.pending.get? w.trade.id with
      | none => rfl
      | some p => simp [hold (.inr hp)]
    · cases hp : n.store.written? w.trade.id with
      | none => rfl
      | some p => simp [hold (.inl hp)]

/-! ## Writing -/

/-- Reporters in line have been told already. -/
theorem lined_of_answers (hreporters : n'.reporters = n.reporters)
    (hissued : n'.store.issued = n.store.issued) {given : List Answer}
    (hgiven : n'.store.answers = n.store.answers ++ given) {e : Actor × Mail}
    (he : n.Lined e) : n'.Lined e := by
  obtain ⟨sender, mail⟩ := e
  cases sender with
  | reporter j =>
    obtain ⟨hlt, hall⟩ := he
    refine ⟨hissued ▸ hlt, fun r hr => ?_⟩
    obtain ⟨f, hanswer, hmail⟩ := hall r (hreporters ▸ hr)
    rw [Store.answer?_append (Store.answered_of_answer? hanswer) hgiven]
    exact ⟨f, hanswer, hmail⟩
  | writer | worker | timer | carrier | caller => exact he

/-- The writer takes the snapshot that is pending. -/
theorem Reporting.takes (h : n.Reporting k w) (hreporters : n'.reporters = n.reporters)
    {p : Pending} (htakes : n.store.Takes n'.store w.trade.id p) (handed : List UInt64) :
    n'.Reporting k w ∧ ∃ q, (n.ledger k w handed).pending = some q ∧
      (n.ledger k w handed).writing = none ∧
        n'.ledger k w handed = (n.ledger k w handed).take q := by
  obtain ⟨done, haligned, hdone⟩ := h.aligned
  have hanswers : ∀ t, n'.store.answer? t = n.store.answer? t := fun t => by
    rw [Store.answer?, Store.answer?, htakes.answers]
  have hrequests : n'.requests k = n.requests k := requests_of_same hreporters htakes.issued
  have hattempt := attemptOf_of_same hreporters
  refine ⟨⟨h.numbered.of_same hreporters htakes.issued, ⟨done, ?_, fun t ht => ?_⟩,
    fun e he => ?_, ?_⟩, (p.sequence, p.waiters.map n.attemptOf), ?_, ?_, ?_⟩
  · rw [hrequests, haligned, htakes.written.1, htakes.written.2, htakes.pending.1,
      htakes.pending.2]
    simp [Store.waiters]
  · rw [Store.Answered, htakes.answers]
    exact hdone t ht
  · have hgiven : n'.store.answers = n.store.answers ++ [] := by
      rw [htakes.answers, List.append_nil]
    exact lined_of_answers hreporters htakes.issued hgiven (h.lined e he)
  · rw [htakes.highest]
    exact h.newest
  · simp [ledger, htakes.pending.1]
  · simp [ledger, htakes.written.1]
  · have hfailure : n'.store.failure? = n.store.failure? := by
      funext q
      rw [Store.failure?, Store.failure?, hanswers]
    simp [ledger, Ledger.take, hrequests, hattempt, hfailure, htakes.pending.2, htakes.written.2,
      htakes.attempts]

/-- Nothing is to be reported to those who wait. -/
theorem failures_of_awaits {s : Store} (hapart : s.Apart) {l : List (Ticket × UInt32)}
    (h : ∀ q ∈ l, s.Awaits q.1) : l.filterMap s.failure? = [] :=
  List.filterMap_eq_nil_iff.2 fun q hq => failure?_of_awaits hapart (h q hq)

/-- Once a write has failed, that is to be reported for all requests that it covers, in the order in
which they were made. -/
theorem Reporting.failures_of_finish (h : n.Reporting k w) (hapart : n.store.Apart)
    (hapart' : n'.store.Apart) {p : Pending} {succeeded : Bool}
    (hfinishes : n.store.Finishes n'.store w.trade.id p succeeded) :
    (n.requests k).filterMap n'.store.failure? = (n.requests k).filterMap n.store.failure? ++
      if succeeded then [] else (p.waiters.map n.attemptOf).map (p.sequence, ·) := by
  obtain ⟨done, haligned, hdone⟩ := h.aligned
  obtain ⟨result, hgiven, hresult⟩ := hfinishes.answers
  rw [hfinishes.written.1] at haligned
  change _ = done ++ (p.waiters ++ Store.waiters (n.store.pending.get? w.trade.id)) at haligned
  -- the requests are those that were answered, those of this write, and those that wait on
  obtain ⟨answered, rest, hsplit, hanswered, hrest⟩ := List.map_eq_append_iff.1 haligned
  obtain ⟨covered, waiting, hsplit', hcovered, hwaiting⟩ := List.map_eq_append_iff.1 hrest
  have hearly : answered.filterMap n'.store.failure? = answered.filterMap n.store.failure? := by
    apply List.filterMap_congr
    intro q hq
    have hanswer := hdone q.1 (hanswered ▸ List.mem_map_of_mem hq)
    rw [Store.failure?, Store.failure?, Store.answer?_append hanswer hgiven]
  obtain ⟨held, hwriter⟩ := Store.written?_eq_some hfinishes.written.1
  have hawaits : ∀ t ∈ p.waiters, n.store.Awaits t := fun t ht => .inr ⟨_, p, held, hwriter, ht⟩
  have hcovers : ∀ q ∈ covered, q.1 ∈ p.waiters :=
    fun q hq => hcovered ▸ List.mem_map_of_mem hq
  have hbefore : covered.filterMap n.store.failure? = [] :=
    failures_of_awaits hapart fun q hq => hawaits _ (hcovers q hq)
  have hafter : covered.filterMap n'.store.failure? =
      if succeeded then [] else (p.waiters.map n.attemptOf).map (p.sequence, ·) := by
    have htold : ∀ q ∈ covered, n'.store.answer? q.1 = some result := fun q hq =>
      Store.answer?_of_told (hapart.waiting _ (hawaits _ (hcovers q hq))).2 (hcovers q hq) hgiven
    have hattempts : p.waiters.map n.attemptOf = covered.map (·.2) := by
      rw [← hcovered, List.map_map]
      apply List.map_congr_left
      intro q hq
      exact h.numbered.attemptOf_eq (k := k) (by simp [hsplit, hsplit', hq])
    cases succeeded with
    | true =>
      have hok : result = .ok () := hresult
      rw [if_pos rfl, List.filterMap_eq_nil_iff]
      intro q hq
      simp [Store.failure?, htold q hq, hok]
    | false =>
      obtain ⟨cause, hcause⟩ := hresult
      rw [if_neg (by decide), hattempts, List.map_map, ← List.filterMap_eq_map]
      apply List.filterMap_congr
      intro q hq
      simp [Store.failure?, htold q hq, hcause]
  have hwaits : ∀ q ∈ waiting, q.1 ∈ Store.waiters (n.store.pending.get? w.trade.id) :=
    fun q hq => hwaiting ▸ List.mem_map_of_mem hq
  have hstill : waiting.filterMap n.store.failure? = [] := by
    apply failures_of_awaits hapart
    intro q hq
    exact awaits_of_mem_waiters
      (List.mem_append_right (Store.waiters (n.store.written? w.trade.id)) (hwaits q hq))
  have hstill' : waiting.filterMap n'.store.failure? = [] := by
    apply failures_of_awaits hapart'
    intro q hq
    have hmem := hwaits q hq
    rw [← hfinishes.pending] at hmem
    exact awaits_of_mem_waiters
      (List.mem_append_right (Store.waiters (n'.store.written? w.trade.id)) hmem)
  simp [hsplit, hsplit', hearly, hbefore, hafter, hstill, hstill']

/-- The writer finishes the write under way, and the reporters of all requests that it covers have
their answers. -/
theorem Reporting.finishes (h : n.Reporting k w) (hreporters : n'.reporters = n.reporters)
    (hapart : n.store.Apart) (hapart' : n'.store.Apart) {p : Pending} {succeeded : Bool}
    (hfinishes : n.store.Finishes n'.store w.trade.id p succeeded) (handed : List UInt64) :
    n'.Reporting k w ∧ ∃ q, (n.ledger k w handed).writing = some q ∧
      n'.ledger k w handed = (n.ledger k w handed).finish q succeeded := by
  obtain ⟨done, haligned, hdone⟩ := h.aligned
  obtain ⟨result, hgiven, -⟩ := hfinishes.answers
  have hrequests : n'.requests k = n.requests k := requests_of_same hreporters hfinishes.issued
  have hattempt := attemptOf_of_same hreporters
  have htold : ∀ t ∈ p.waiters, n'.store.Answered t.number := fun t ht => by
    refine ⟨⟨t, result⟩, ?_, rfl⟩
    rw [hgiven]
    exact List.mem_append_right _ (List.mem_map_of_mem ht)
  refine ⟨⟨h.numbered.of_same hreporters hfinishes.issued, ⟨done ++ p.waiters, ?_, fun t ht => ?_⟩,
    fun e he => lined_of_answers hreporters hfinishes.issued hgiven (h.lined e he), ?_⟩,
    (p.sequence, p.waiters.map n.attemptOf), ?_, ?_⟩
  · rw [hrequests, haligned, hfinishes.written.1, hfinishes.written.2, hfinishes.pending]
    simp [Store.waiters]
  · rcases List.mem_append.1 ht with ht | ht
    · exact (hdone t ht).mono _ hgiven
    · exact htold t ht
  · rw [hfinishes.highest]
    exact h.newest
  · simp [ledger, hfinishes.written.1]
  · simp [ledger, Ledger.finish, hrequests, hattempt, hfinishes.pending, hfinishes.written.2,
      hfinishes.attempts, h.failures_of_finish hapart hapart' hfinishes]

/-- Nobody waits for a ticket that has not been given out. -/
theorem Numbered.request?_eq_none (h : n.Numbered) (hle : n.store.issued ≤ j) :
    n.request? k j = none := by
  cases hj : n.request? k j with
  | none => rfl
  | some q =>
    obtain ⟨r, hr, -⟩ := request?_eq_some hj
    exact absurd (h j r hr).2 (Nat.not_lt.2 hle)

/-- A step of the writer. -/
theorem Reporting.stepWriter (h : n.Reporting k w) (hk : n.workers.get? k = some w)
    (hstep : n.stepWriter = some n') (hapart : n.store.Apart) (hapart' : n'.store.Apart)
    (halive : n'.store.writer ≠ .dead) (handed : List UInt64) :
    n'.workers.get? k = some w ∧ n.Entry k w handed n' w handed := by
  unfold Node.stepWriter at hstep
  obtain ⟨⟨s, b⟩, hs, hstep⟩ := Option.bind_eq_some_iff.1 hstep
  cases hstep
  refine ⟨hk, ?_⟩
  let actors := (s.answers.drop n.store.answers.length).map fun a => Actor.reporter a.ticket.number
  have hreporters : (wake { n with store := s, backend := b } actors).reporters = n.reporters := rfl
  rcases Store.step_of_trade hs halive w.trade.id with hbeside | ⟨p, htakes⟩ |
    ⟨p, succeeded, hfinishes⟩
  · have haside : n.Aside { n with store := s, backend := b } k w.trade.id := {
      settings := rfl
      store := hbeside
      requests := requests_eq hbeside.issued (fun j _ => rfl)
        fun j hle _ => h.numbered.request?_eq_none hle
      reporters := fun j r hr => .inr ⟨r, hr, rfl, rfl⟩
      worker := fun w hk => ⟨w, hk, .refl w⟩ }
    exact h.entry_of_aside hk (haside.trans (aside_wake _ _)) hapart' hk handed
  · obtain ⟨hreporting, q, hpending, hidle, hledger⟩ := h.takes hreporters htakes handed
    exact ⟨hreporting, rfl, hledger ▸ .take hpending hidle⟩
  · obtain ⟨hreporting, q, hwriting, hledger⟩ :=
      h.finishes hreporters hapart hapart' hfinishes handed
    exact ⟨hreporting, rfl, hledger ▸ .finish succeeded hwriting⟩

end PeerTrade.Node
