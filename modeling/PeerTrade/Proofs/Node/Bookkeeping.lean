import PeerTrade.Proofs.Node.Entries

/-!
# Every action keeps the books

Whatever happens at a node makes one entry in the books of each worker, provided that the worker reads
its mailbox, its failures are reported in the order in which its requests were made, nobody else hands
in snapshots of its trade, and the store takes them (`Node.Reporting.act`).
-/

namespace PeerTrade

section Mailbox

variable {σ α : Type} {m : Mailbox σ α} {sender : σ} {message : α}

theorem Mailbox.offered_of_not_waiting (h : (m.offer sender message).2 ≠ .waiting) :
    (m.offer sender message).1.queue = m.queue ++ [message] ∧
      (m.offer sender message).1.line = m.line := by
  unfold offer at h ⊢
  split at h
  next hplace => simp [hplace, line]
  next => exact absurd rfl h

theorem Mailbox.queue_of_waiting (h : (m.offer sender message).2 = .waiting) :
    (m.offer sender message).1.queue = m.queue := by
  unfold offer at h ⊢
  split at h
  next => cases h
  next hplace => simp [hplace]

end Mailbox

namespace Node

variable {n n' m : Node} {a : Action} {k k' j : Nat} {w w' : Worker} {id : String} {limit : UInt32}

/-! ## Reporting -/

theorem requests_erase (hnumbered : n.Numbered) (j k : Nat) :
    requests { n with reporters := n.reporters.erase j } k =
      (n.requests k).filter (·.1.number != j) := by
  rw [requests, requests, List.filter_filterMap]
  apply List.filterMap_congr
  intro i _
  by_cases hi : i = j
  · subst hi
    rw [request?, get?_reporters_erase, if_pos rfl, Option.bind_none]
    symm
    rw [Option.filter_eq_none_iff]
    intro q hq
    obtain ⟨r, hr, -, rfl⟩ := request?_eq_some hq
    simp [(hnumbered i r hr).1]
  · have hsame : request? { n with reporters := n.reporters.erase j } k i = n.request? k i := by
      rw [request?, request?, get?_reporters_erase, if_neg hi]
    rw [hsame]
    cases hq : n.request? k i with
    | none => rfl
    | some q =>
      obtain ⟨r, hr, -, rfl⟩ := request?_eq_some hq
      simp [Option.filter, (hnumbered i r hr).1, hi]

/-- A reporter whose request has been answered is done. -/
theorem Reporting.erase (h : n.Reporting k w) (hapart : n.store.Apart)
    (hanswered : n.store.Answered j) (handed : List UInt64) :
    Reporting { n with reporters := n.reporters.erase j } k w ∧
      ledger { n with reporters := n.reporters.erase j } k w handed =
        { n.ledger k w handed with
          unread := w.mailbox.queue.filterMap Mail.report? ++
            ((n.requests k).filter (·.1.number != j)).filterMap n.store.failure? } := by
  obtain ⟨done, haligned, hdone⟩ := h.aligned
  have hrequests := requests_erase h.numbered j k
  -- nobody who waits has been answered
  have hwaits : ∀ t ∈ Store.waiters (n.store.written? w.trade.id) ++
      Store.waiters (n.store.pending.get? w.trade.id), t.number ≠ j := by
    rintro t ht rfl
    exact (hapart.waiting t (awaits_of_mem_waiters ht)).2 hanswered
  have hget {i : Nat} {r : Reporter} (hr : (n.reporters.erase j).get? i = some r) :
      n.reporters.get? i = some r := by
    rw [get?_reporters_erase] at hr
    split at hr
    · cases hr
    · exact hr
  have hattempt (p : Pending) (hp : ∀ t ∈ p.waiters, t.number ≠ j) :
      p.waiters.map (attemptOf { n with reporters := n.reporters.erase j }) =
        p.waiters.map n.attemptOf := by
    apply List.map_congr_left
    intro t ht
    rw [attemptOf, attemptOf, get?_reporters_erase, if_neg (hp t ht)]
  refine ⟨⟨fun i r hr => h.numbered i r (hget hr), ⟨done.filter (·.number != j), ?_,
    fun t ht => hdone t (List.mem_filter.1 ht).1⟩, fun e he => ?_, h.newest⟩, ?_⟩
  · have hkept : ∀ t ∈ Store.waiters (n.store.written? w.trade.id) ++
        Store.waiters (n.store.pending.get? w.trade.id), (t.number != j) = true :=
      fun t ht => by simpa using hwaits t ht
    have hmap : ((n.requests k).filter (·.1.number != j)).map (·.1) =
        ((n.requests k).map (·.1)).filter (·.number != j) := by
      rw [List.filter_map]
      rfl
    rw [hrequests, hmap, haligned, List.filter_append, List.filter_eq_self.2 hkept]
  · obtain ⟨sender, mail⟩ := e
    have hlined := h.lined _ he
    cases sender with
    | reporter i => exact ⟨hlined.1, fun r hr => hlined.2 r (hget hr)⟩
    | writer | worker | timer | carrier | caller => exact hlined
  · simp only [ledger, hrequests]
    congr 1
    · cases hp : n.store.pending.get? w.trade.id with
      | none => rfl
      | some p =>
        have hall : ∀ t ∈ p.waiters, t.number ≠ j := fun t ht =>
          hwaits t (List.mem_append_right _ (by simpa [hp, Store.waiters] using ht))
        simp [hattempt p hall]
    · cases hp : n.store.written? w.trade.id with
      | none => rfl
      | some p =>
        have hall : ∀ t ∈ p.waiters, t.number ≠ j := fun t ht =>
          hwaits t (List.mem_append_left _ (by simpa [hp, Store.waiters] using ht))
        simp [hattempt p hall]

/-- The failure that is reported next is that of the oldest request. -/
theorem failures_eq_cons (hnumbered : n.Numbered) {r : Reporter}
    (hr : n.reporters.get? j = some r) (hworker : r.worker = k) {f : PersistFailure}
    (hanswer : n.store.answer? r.ticket = some (.error f)) (hfirst : ∀ i < j, ¬n.Owes k i) :
    (n.requests k).filterMap n.store.failure? = (f.sequence, r.attempt) ::
      ((n.requests k).filter (·.1.number != j)).filterMap n.store.failure? := by
  rw [← requests_erase hnumbered, requests, requests, List.filterMap_filterMap,
    List.filterMap_filterMap]
  change List.filterMap _ (List.range n.store.issued) = _ ::
    List.filterMap _ (List.range n.store.issued)
  -- the numbers that were given out are those before this one, this one, and those behind it
  obtain ⟨more, hmore⟩ := Nat.exists_eq_add_of_lt (hnumbered j r hr).2
  have hrange : List.range n.store.issued =
      List.range j ++ j :: (List.range more).map (j + 1 + ·) := by
    rw [hmore, Nat.add_assoc, List.range_add, Nat.add_comm more 1, List.range_add, List.map_append]
    simp [Nat.add_assoc]
  have hself : n.request? k j = some (r.ticket, r.attempt) := by simp [request?, hr, hworker]
  -- nothing is left to report of earlier requests
  have hearlier : ∀ i < j, (n.request? k i).bind n.store.failure? = none := by
    intro i hi
    cases hq : n.request? k i with
    | none => rfl
    | some q =>
      obtain ⟨r', hr', hworker', rfl⟩ := request?_eq_some hq
      show Store.failure? _ _ = none
      unfold Store.failure?
      split
      next f' hf' => exact absurd ⟨r', f', hr', hworker', hf'⟩ (hfirst i hi)
      next => rfl
  have hother : ∀ i ≠ j, request? { n with reporters := n.reporters.erase j } k i =
      n.request? k i := fun i hi => by rw [request?, request?, get?_reporters_erase, if_neg hi]
  have hgone : request? { n with reporters := n.reporters.erase j } k j = none := by
    rw [request?, get?_reporters_erase, if_pos rfl]
    rfl
  have hfront : (List.range j).filterMap (fun i => (n.request? k i).bind n.store.failure?) = [] :=
    List.filterMap_eq_nil_iff.2 fun i hi => hearlier i (List.mem_range.1 hi)
  have hfront' : (List.range j).filterMap (fun i =>
      (request? { n with reporters := n.reporters.erase j } k i).bind n.store.failure?) = [] :=
    List.filterMap_eq_nil_iff.2 fun i hi => by
      rw [hother i (Nat.ne_of_lt (List.mem_range.1 hi))]
      exact hearlier i (List.mem_range.1 hi)
  have hback : ((List.range more).map (j + 1 + ·)).filterMap (fun i =>
      (request? { n with reporters := n.reporters.erase j } k i).bind n.store.failure?) =
        ((List.range more).map (j + 1 + ·)).filterMap
          (fun i => (n.request? k i).bind n.store.failure?) := by
    apply List.filterMap_congr
    intro i hi
    obtain ⟨i', -, rfl⟩ := List.mem_map.1 hi
    rw [hother _ (by omega)]
  rw [hrange, List.filterMap_append, List.filterMap_append, hfront, hfront', List.filterMap_cons,
    List.filterMap_cons, hself, hgone, hback]
  simp [Store.failure?, hanswer]

/-- A reporter of the worker is done once its failure lies in the mailbox. -/
theorem Reporting.delivered (h : n.Reporting k w) (hapart : n.store.Apart) {r : Reporter}
    (hr : n.reporters.get? j = some r) (hworker : r.worker = k) {f : PersistFailure}
    (hanswer : n.store.answer? r.ticket = some (.error f)) (hfirst : ∀ i < j, ¬n.Owes k i)
    {mailbox : Mailbox Actor Mail}
    (hqueue : mailbox.queue = w.mailbox.queue ++ [.persistFailed f r.attempt])
    (hline : mailbox.line ⊆ w.mailbox.line) (hstore : m.store = n.store)
    (hreporters : m.reporters = n.reporters) (handed : List UInt64) :
    Reporting { m with reporters := m.reporters.erase j } k { w with mailbox } ∧
      ledger { m with reporters := m.reporters.erase j } k { w with mailbox } handed =
        n.ledger k w handed := by
  have hm : m.Reporting k { w with mailbox } :=
    h.of_same hstore hreporters rfl (UInt64.le_refl _) fun e he => h.lined e (hline he)
  have hanswered : m.store.Answered j := by
    rw [hstore, ← (h.numbered j r hr).1]
    exact Store.answered_of_answer? hanswer
  obtain ⟨hreporting, hledger⟩ := hm.erase (hstore ▸ hapart) hanswered handed
  refine ⟨hreporting, ?_⟩
  rw [hledger, ledger_of_same hstore hreporters,
    requests_of_same hreporters (congrArg Store.issued hstore), hstore]
  simp only [ledger, failures_eq_cons h.numbered hr hworker hanswer hfirst, hqueue]
  simp [Mail.report?]

/-- A reporter of the worker waits in line with its failure. -/
theorem Reporting.waiting (h : n.Reporting k w) (hk : n.workers.get? k = some w)
    (hapart : n.store.Apart) {r : Reporter} (hr : n.reporters.get? j = some r)
    {f : PersistFailure} (hanswer : n.store.answer? r.ticket = some (.error f))
    {mailbox : Mailbox Actor Mail} (hqueue : mailbox.queue = w.mailbox.queue)
    (hline : ∀ e ∈ mailbox.line, e ∈ w.mailbox.line ∨
      e = (.reporter j, .persistFailed f r.attempt))
    (hstore : m.store = n.store) (hreporters : m.reporters = n.reporters) (handed : List UInt64) :
    Reporting { m with reporters := m.reporters.insert j { r with sending := true } } k
        { w with mailbox } ∧
      ledger { m with reporters := m.reporters.insert j { r with sending := true } } k
        { w with mailbox } handed = n.ledger k w handed := by
  obtain ⟨hreporting, hledger⟩ := h.aside hk (n.aside_sending hr) hapart hk handed
  rw [hreporters]
  refine ⟨hreporting.of_same hstore rfl rfl (UInt64.le_refl _) fun e he => ?_, ?_⟩
  · rcases hline e he with hold | rfl
    · exact hreporting.lined e hold
    · refine ⟨(h.numbered j r hr).2, fun r' hr' => ⟨f, ?_⟩⟩
      rw [get?_reporters_insert, if_pos rfl] at hr'
      cases hr'
      exact ⟨hanswer, rfl⟩
  · have hsame : ledger { m with reporters := n.reporters.insert j { r with sending := true } } k
        { w with mailbox } handed =
          ledger { n with reporters := n.reporters.insert j { r with sending := true } } k
            { w with mailbox } handed := by
      apply ledger_of_same
      · exact hstore
      · rfl
    rw [hsame, ← hledger]
    simp only [ledger, hqueue]

/-- Whoever waits in line with its news is delivered or still waits, as long as the worker runs. -/
theorem enter_of_running (hk : n.workers.get? k = some w) (hrunning : w.phase = .running)
    (sender : Actor) : (n.enter k sender).2 = .waiting ∨
      ∃ mailbox woken, w.mailbox.enter sender = some mailbox ∧
        n.enter k sender = ({ n.setWorker k { w with mailbox } with woken }, .delivered) := by
  cases henter : w.mailbox.enter sender with
  | none => exact .inl (by simp [enter, hk, hrunning, henter])
  | some mailbox =>
    refine .inr ⟨mailbox, n.woken ++ [.worker k], rfl, ?_⟩
    simp only [enter, hk, hrunning, henter, if_true]
    rfl

/-- News reach the mailbox of a worker that runs and whose mailbox is kept open, or wait in line. -/
theorem deliverIfReachable_of_running (hk : n.workers.get? k = some w)
    (hrunning : w.phase = .running) (hkept : w.mailbox.kept = true) (sender : Actor) (mail : Mail) :
    ∃ woken, n.deliverIfReachable k sender mail =
      ({ n.setWorker k { w with mailbox := (w.mailbox.offer sender mail).1 } with woken },
        (w.mailbox.offer sender mail).2) := by
  have hreachable : ((n.workers.get? k).any (·.mailbox.isReachable)) = true := by
    simp [hk, Mailbox.isReachable, hkept]
  rw [deliverIfReachable, if_pos hreachable]
  rcases n.deliver_cases k sender mail with ⟨-, hnot⟩ | ⟨w₀, woken, hk₀, -, heq⟩
  · exact absurd hrunning (hnot w hk)
  · cases hk.symm.trans hk₀
    exact ⟨woken, heq⟩

/-- What is left to report without a request that succeeded. -/
theorem failures_of_succeeded (hnumbered : n.Numbered) {r : Reporter}
    (hr : n.reporters.get? j = some r) (hanswer : n.store.answer? r.ticket = some (.ok ())) :
    ((n.requests k).filter (·.1.number != j)).filterMap n.store.failure? =
      (n.requests k).filterMap n.store.failure? := by
  rw [List.filterMap_filter]
  apply List.filterMap_congr
  intro q hq
  split
  · rfl
  next hnumber =>
    obtain ⟨i, -, hi⟩ := List.mem_filterMap.1 hq
    obtain ⟨r₀, hr₀, -, rfl⟩ := request?_eq_some hi
    have hij : i = j := by
      rw [← (hnumbered i r₀ hr₀).1]
      simpa using hnumber
    subst hij
    cases hr.symm.trans hr₀
    simp [Store.failure?, hanswer]

/-- A reporter of the worker brings its failure to the mailbox, as long as that is read. -/
theorem Reporting.stepReporter (h : n.Reporting k w) (hk : n.workers.get? k = some w)
    (hrunning : w.phase = .running) (hkept : w.mailbox.kept = true) (hapart : n.store.Apart)
    {r : Reporter} (hr : n.reporters.get? j = some r) (hworker : r.worker = k)
    (hstep : n.stepReporter j = some n')
    (hfirst : n.Owes k j → n'.reporters.get? j = none → ∀ i < j, ¬n.Owes k i)
    (handed : List UInt64) :
    ∃ w', n'.workers.get? k = some w' ∧ n.Entry k w handed n' w' handed := by
  obtain ⟨r₀, hr₀, hcases⟩ := stepReporter_cases hstep
  cases hr.symm.trans hr₀
  rcases hcases with ⟨hanswer, rfl⟩ | ⟨f, m, delivery, hanswer, hpassed, hdone⟩
  · -- there is nothing to report
    have hanswered : n.store.Answered j := by
      rw [← (h.numbered j r hr).1]
      exact Store.answered_of_answer? hanswer
    obtain ⟨hreporting, hledger⟩ := h.erase hapart hanswered handed
    refine ⟨w, hk, hreporting, rfl, ?_⟩
    rw [hledger, failures_of_succeeded h.numbered hr hanswer]
    exact .same
  have howes : n.Owes k j := ⟨r, f, hr, hworker, hanswer⟩
  have hset (w' : Worker) : (n.setWorker k w').workers.get? k = some w' :=
    (n.get?_setWorker k k w').trans (if_pos rfl)
  rw [hworker] at hpassed
  cases hsending : r.sending with
  | true =>
    rw [hsending, if_pos rfl] at hpassed
    rcases enter_of_running hk hrunning (.reporter j) with hwaits |
      ⟨mailbox, woken, henter, hentered⟩
    · rw [hpassed] at hwaits
      change delivery = .waiting at hwaits
      rcases hdone with ⟨hdelivered, -⟩ | ⟨-, hnot, -⟩
      · exact absurd hwaits hdelivered
      · rw [hsending] at hnot
        cases hnot
    · cases hpassed.symm.trans hentered
      rcases hdone with ⟨-, rfl⟩ | ⟨hwaits, -⟩
      · -- the failure that lies in the mailbox now is the one that stood in line
        obtain ⟨message, hlookup, rfl⟩ := Option.map_eq_some_iff.1 henter
        have hmem : (Actor.reporter j, message) ∈ w.mailbox.line := by
          obtain ⟨front, back, hadmitted, -⟩ := List.lookup_eq_some_iff.1 hlookup
          exact List.mem_append_left _ (by simp [hadmitted])
        obtain ⟨f₀, hf₀, hmessage⟩ := (h.lined _ hmem).2 r hr
        cases hanswer.symm.trans hf₀
        cases hmessage
        have hgone : (n.reporters.erase j).get? j = none := by
          rw [get?_reporters_erase, if_pos rfl]
        obtain ⟨hreporting, hledger⟩ := h.delivered hapart hr hworker hanswer
          (hfirst howes hgone) rfl (Mailbox.enter_line henter).2.1
          (m := { n.setWorker k _ with woken }) rfl rfl handed
        exact ⟨_, hset _, hreporting, rfl, hledger ▸ .same⟩
      · cases hwaits
  | false =>
    rw [hsending, if_neg (by decide)] at hpassed
    obtain ⟨woken, heq⟩ := deliverIfReachable_of_running hk hrunning hkept (.reporter j)
      (.persistFailed f r.attempt)
    cases hpassed.symm.trans heq
    rcases hdone with ⟨hdelivered, rfl⟩ | ⟨hwaits, -, rfl⟩
    · obtain ⟨hqueue, hline⟩ := Mailbox.offered_of_not_waiting hdelivered
      have hgone : (n.reporters.erase j).get? j = none := by
        rw [get?_reporters_erase, if_pos rfl]
      obtain ⟨hreporting, hledger⟩ := h.delivered hapart hr hworker hanswer
        (hfirst howes hgone) hqueue (fun e he => hline ▸ he)
        (m := { n.setWorker k _ with woken }) rfl rfl handed
      exact ⟨_, hset _, hreporting, rfl, hledger ▸ .same⟩
    · obtain ⟨hreporting, hledger⟩ := h.waiting hk hapart hr hanswer
        (Mailbox.queue_of_waiting hwaits) (fun e he => Mailbox.mem_line_offer he)
        (m := { n.setWorker k _ with woken }) rfl rfl handed
      exact ⟨_, hset _, hreporting, rfl, hledger ▸ .same⟩

/-! ## Every action -/

/-- The failures of a worker's requests are reported in the order in which the requests were made:
nobody has reported one while an earlier one was left, and nobody took a reporter's place in line. -/
structure InOrder (n : Node) (k : Nat) (a : Action) (n' : Node) : Prop where
  turn : ∀ j, n.Owes k j → n'.reporters.get? j = none → ∀ i < j, ¬n.Owes k i
  own : ∀ j, a ≠ .enter k (.reporter j)

/-- The store alone moves on. -/
theorem aside_of_beside {s : Store} (hbeside : n.store.Beside s id)
    (hissued : s.issued = n.store.issued) : n.Aside { n with store := s } k id :=
  ⟨rfl, hbeside, requests_of_same rfl hissued, fun _ r hr => .inr ⟨r, hr, rfl, rfl⟩,
    fun w hk => ⟨w, hk, .refl w⟩⟩

theorem report?_mail (caller : Nat) (request : Request) :
    (request.mail caller).report? = none := by
  cases request <;> rfl

/-- Most actions have nothing to do with the snapshots of a worker. -/
theorem aside_of_act (hact : n.act a = some n') (hbegins : ∀ w, ¬Begins n a k w)
    (hlined : ∀ w, n.workers.get? k = some w → ∀ e ∈ w.mailbox.line, n.Lined e)
    (hown : ∀ j, a ≠ .enter k (.reporter j))
    (hothers : ∀ e ∈ n.handsIn a, e.1 ≠ k → e.2.id ≠ id)
    (hwriter : ∀ now, a ≠ .step now .writer) (hworker : ∀ now, a ≠ .step now (.worker k))
    (hreporter : ∀ now j, a = .step now (.reporter j) → n.request? k j = none) :
    n.Aside n' k id := by
  cases a with
  | step now actor =>
    cases actor with
    | writer => exact absurd rfl (hwriter now)
    | worker k' =>
      have hne : k' ≠ k := by
        rintro rfl
        exact hworker now rfl
      exact aside_stepWorker hact hne fun t ht => hothers _ ht hne
    | reporter j => exact aside_stepReporter hact (hreporter now j rfl)
    | timer number => exact aside_stepTimer hact hlined
    | carrier source => cases hact
    | caller number => cases hact
  | call k' request =>
    cases hact
    have hcalled : n.Aside { n with called := n.called + 1 } k id := aside_of_eq rfl rfl rfl rfl
    exact hcalled.trans (aside_deliver _ _ _ _ fun _ => ⟨nofun, report?_mail _ _⟩)
  | carry k' source m =>
    cases hact
    exact n.aside_deliver _ _ _ fun _ => ⟨nofun, rfl⟩
  | enter k' sender =>
    cases hact
    refine n.aside_enter _ _ fun w mail heq hk hmail => (lined_iff ?_).1 (hlined w hk _ hmail)
    rintro j rfl
    exact hown j (by rw [heq])
  | launch now t =>
    have hne : n.started ≠ k := fun heq =>
      hbegins { trade := t, mailbox := .new 1 } (.launched rfl heq.symm)
    have hid : t.id ≠ id := hothers (n.started, t) List.mem_cons_self hne
    exact aside_start (Checks.toOption_eq_some_iff.1 hact) hne fun _ => hid
  | resume now s =>
    obtain ⟨t, ht, h⟩ := Option.bind_eq_some_iff.1 hact
    have hne : n.started ≠ k := fun heq => hbegins { trade := t, mailbox := .new 1 }
      (.resumed rfl (Checks.toOption_eq_some_iff.1 ht) heq.symm)
    exact aside_start (Checks.toOption_eq_some_iff.1 h) hne nofun
  | forget =>
    cases hact
    exact aside_of_eq rfl rfl rfl rfl
  | release k' =>
    cases hact
    unfold release
    split
    · exact .refl n k id
    next w hw =>
      have hset : n.Aside _ k id := aside_setWorker hw fun _ =>
        (⟨rfl, rfl, rfl, rfl, fun _ he => .inl he⟩ :
          w.Like { w with mailbox := { w.mailbox with kept := false } })
      exact hset.trans (aside_wake _ _)
  | flush =>
    cases hact
    apply aside_of_beside (n.store.beside_flush id)
    unfold Store.flush
    split <;> rfl
  | close =>
    cases hact
    exact aside_of_beside ⟨rfl, rfl, rfl, rfl, ⟨[], (List.append_nil _).symm⟩, Nat.le_refl _⟩ rfl
  | behave b =>
    cases hact
    exact aside_of_eq rfl rfl rfl rfl
  | link l =>
    cases hact
    exact aside_of_eq rfl rfl rfl rfl
  | rouse woken =>
    cases hact
    exact aside_of_eq rfl rfl rfl rfl

/-- The sequences of the snapshots that a worker has handed in, in order. -/
def sequencesOf (k : Nat) (handed : List (Nat × Trade)) : List UInt64 :=
  handed.filterMap fun e => if e.1 = k then some e.2.sequence else none

theorem sequencesOf_append (k : Nat) (l l' : List (Nat × Trade)) :
    sequencesOf k (l ++ l') = sequencesOf k l ++ sequencesOf k l' :=
  List.filterMap_append

theorem sequencesOf_eq_nil {l : List (Nat × Trade)} (h : ∀ e ∈ l, e.1 ≠ k) :
    sequencesOf k l = [] :=
  List.filterMap_eq_nil_iff.2 fun e he => if_neg (h e he)

/-- A worker that goes on running hands its snapshot in, reads its mail, or does something else. -/
theorem Reporting.stepWorker (h : n.Reporting k w) (hk : n.workers.get? k = some w) {now : Time}
    (hstep : n.stepWorker now k = some n') (hk' : n'.workers.get? k = some w')
    (hrunning : w'.phase = .running) (hle : w.trade.sequence ≤ w'.trade.sequence)
    (hapart : n.store.Apart) (hapart' : n'.store.Apart) (hopen : n.store.closed = false)
    (hencode : ∀ t, (k, t) ∈ n.handsIn (.step now (.worker k)) →
      ∃ record, t.toSnapshot.encode = .ok record) (handed : List UInt64) :
    n.Entry k w handed n' w' (handed ++ sequencesOf k (n.handsIn (.step now (.worker k)))) := by
  unfold Node.stepWorker at hstep
  obtain ⟨w₀, hk₀, hstep⟩ := Option.bind_eq_some_iff.1 hstep
  cases hk.symm.trans hk₀
  split at hstep
  · cases hstep
  next hphase =>
    have hphase : w.phase = .running := Decidable.not_not.1 hphase
    have hset (w₁ : Worker) : (n.setWorker k w₁).workers.get? k = some w₁ :=
      (n.get?_setWorker k k w₁).trans (if_pos rfl)
    split at hstep
    next chore chores hchores =>
      cases hstep
      have hbegun : (n.setWorker k { w with chores }).Reporting k { w with chores } :=
        h.of_same rfl rfl rfl (UInt64.le_refl _) h.lined
      -- of all chores only handing in concerns the snapshots
      cases hattempt : chore.attempt? with
      | some attempt =>
        obtain rfl : chore = .persist attempt := by
          cases chore <;> cases hattempt
          rfl
        have hhands : n.handsIn (.step now (.worker k)) = [(k, w.trade)] := by
          simp [handsIn, hk, hphase, hchores]
        obtain ⟨record, hrecord⟩ := hencode w.trade (by simp [hhands])
        obtain ⟨hreporting, hledger⟩ := hbegun.persist hapart hopen hrecord attempt handed
        change (n.setWorker k _).workers.get? k = some w' at hk'
        cases hk'.symm.trans (hset _)
        refine ⟨hreporting, rfl, ?_⟩
        have hdue : (n.ledger k w handed).due = attempt :: chores.filterMap Chore.attempt? := by
          simp [ledger, hchores, Chore.attempt?]
        have hhanded : sequencesOf k [(k, w.trade)] = [w.trade.sequence] := by simp [sequencesOf]
        rw [hhands, hhanded]
        show Ledger.Step _ _ (ledger ((n.setWorker k _).persist k w.trade attempt) k _ _)
        rw [hledger, ledger_of_same (n := n) rfl rfl]
        exact .handIn hdue
      | none =>
        have hlike : w.Like { w with chores } :=
          ⟨rfl, by simp [hchores, hattempt], rfl, rfl, fun _ he => .inl he⟩
        have hpersist : ∀ attempt, chore ≠ .persist attempt := by
          rintro attempt rfl
          cases hattempt
        have hhands : n.handsIn (.step now (.worker k)) = [] := by
          simp only [handsIn, hk, hphase, hchores]
          cases chore <;> first | rfl | cases hattempt
        have haside : n.Aside _ k w.trade.id := (aside_setWorker hk fun _ => hlike).trans
          (aside_perform _ now k w.trade chore fun attempt heq => absurd heq (hpersist attempt))
        rw [hhands, show handed ++ sequencesOf k [] = handed from List.append_nil _]
        exact h.entry_of_aside hk haside hapart' hk' handed
    next hchores =>
      have hhands : n.handsIn (.step now (.worker k)) = [] := by
        simp [handsIn, hk, hphase, hchores]
      rw [hhands, show handed ++ sequencesOf k [] = handed from List.append_nil _]
      split at hstep
      next mail mailbox admitted htake =>
        cases hstep
        exact h.read hk hchores htake hapart rfl hk' hrunning hle handed
      next htake =>
        split at hstep
        · cases hstep
        · -- a worker that has read everything does not run any more
          cases hstep
          have hstill := still_foldl still_cancelTimer w.timers.values
            (n.setWorker k { w with phase := .ended })
          obtain ⟨w₁, hk₁, hended⟩ := hstill.present k _ (hset _)
          cases hk'.symm.trans hk₁
          rw [hended.phase] at hrunning
          cases hrunning

/-- A worker goes on through an action: it runs and its mailbox is kept open, its failures are
reported in order, what it hands in can be written, and nobody else hands anything in for its
trade. -/
structure Continues (n : Node) (k : Nat) (w : Worker) (a : Action) (n' : Node) (w' : Worker) :
    Prop where
  act : n.act a = some n'
  order : n.InOrder k a n'
  before : n.workers.get? k = some w
  after : n'.workers.get? k = some w'
  older : n.started ≠ k
  running : w.phase = .running ∧ w'.phase = .running
  kept : w.mailbox.kept = true
  newer : w.trade.sequence ≤ w'.trade.sequence
  apart : n.store.Apart ∧ n'.store.Apart
  opened : n.store.closed = false
  alive : n'.store.writer ≠ .dead
  others : ∀ e ∈ n.handsIn a, e.1 ≠ k → e.2.id ≠ w.trade.id
  encodes : ∀ t, (k, t) ∈ n.handsIn a → ∃ record, t.toSnapshot.encode = .ok record

/-- Nobody hands anything in but the worker whose step it is, and new workers. -/
theorem ne_of_mem_handsIn (hworker : ∀ now, a ≠ .step now (.worker k)) (hnew : n.started ≠ k)
    {e : Nat × Trade} (he : e ∈ n.handsIn a) : e.1 ≠ k := by
  rintro rfl
  unfold handsIn at he
  split at he
  next now k' =>
    split at he
    next w hk =>
      split at he
      · rw [List.mem_singleton.1 he] at hworker
        exact hworker now rfl
      · cases he
    next => cases he
  next now t =>
    rw [List.mem_singleton.1 he] at hnew
    exact hnew rfl
  next => cases he

/-- Whatever a worker goes on through makes one entry in its books. -/
theorem Reporting.act (h : n.Reporting k w) (hact : n.Continues k w a n' w')
    (handed : List UInt64) :
    n.Entry k w handed n' w' (handed ++ sequencesOf k (n.handsIn a)) := by
  have hnothing (hhands : sequencesOf k (n.handsIn a) = [])
      (hentry : n.Entry k w handed n' w' handed) :
      n.Entry k w handed n' w' (handed ++ sequencesOf k (n.handsIn a)) := by
    rwa [hhands, List.append_nil]
  by_cases hwriter : ∃ now, a = .step now .writer
  · obtain ⟨now, rfl⟩ := hwriter
    obtain ⟨hk', hentry⟩ :=
      h.stepWriter hact.before hact.act hact.apart.1 hact.apart.2 hact.alive handed
    cases hact.after.symm.trans hk'
    exact hnothing rfl hentry
  by_cases hworker : ∃ now, a = .step now (.worker k)
  · obtain ⟨now, rfl⟩ := hworker
    exact h.stepWorker hact.before hact.act hact.after hact.running.2 hact.newer hact.apart.1
      hact.apart.2 hact.opened hact.encodes handed
  have hhands : sequencesOf k (n.handsIn a) = [] := sequencesOf_eq_nil fun e he =>
    ne_of_mem_handsIn (fun now heq => hworker ⟨now, heq⟩) hact.older he
  by_cases hreporter : ∃ now j q, a = .step now (.reporter j) ∧ n.request? k j = some q
  · obtain ⟨now, j, q, rfl, hq⟩ := hreporter
    obtain ⟨r, hr, hk, -⟩ := request?_eq_some hq
    obtain ⟨w₁, hk₁, hentry⟩ := h.stepReporter hact.before hact.running.1
      hact.kept hact.apart.1 hr hk hact.act (hact.order.turn j) handed
    cases hact.after.symm.trans hk₁
    exact hnothing hhands hentry
  · have haside : n.Aside n' k w.trade.id := by
      refine aside_of_act hact.act (fun w₁ hbegins => ?_) (fun w₁ hk₁ => ?_) hact.order.own
        hact.others (fun now heq => hwriter ⟨now, heq⟩) (fun now heq => hworker ⟨now, heq⟩)
        fun now j heq => ?_
      · cases hbegins with
        | launched _ hstarted => exact hact.older hstarted.symm
        | resumed _ _ hstarted => exact hact.older hstarted.symm
      · cases hact.before.symm.trans hk₁
        exact h.lined
      · cases hq : n.request? k j with
        | none => rfl
        | some q => exact absurd ⟨now, j, q, heq, hq⟩ hreporter
    exact hnothing hhands (h.entry_of_aside hact.before haside hact.apart.2 hact.after handed)

/-! ## Before a worker begins -/

/-- Nothing has been heard of a worker and its trade. -/
structure Unheard (n : Node) (k : Nat) (id : String) : Prop where
  absent : n.workers.get? k = none
  numbered : n.Numbered
  requests : n.requests k = []
  blank : n.store.Blank id

theorem unheard_new (name : String) (engine : Engine) (settings : WorkerSettings)
    (backend : Backend) (identity : Peer) (k : Nat) (id : String) :
    Unheard (.new name engine settings backend identity) k id :=
  ⟨rfl, nofun, rfl, Store.blank_new id⟩

/-- A worker that begins is there from then on. -/
theorem Begins.exists_worker (h : Begins n a k w) (hact : n.act a = some n') :
    ∃ w', n'.workers.get? k = some w' := by
  have hbegun {now : Time} {t : Trade} {isStored : Bool}
      (hstart : n.start now t isStored = .ok n') :
      ∃ w', n'.workers.get? n.started = some w' := by
    obtain ⟨w', hk', -⟩ := (start_cases hstart).2.present n.started _
      ((n.get?_setWorker n.started n.started _).trans (if_pos rfl))
    exact ⟨w', hk'⟩
  cases h with
  | launched ha hstarted =>
    subst ha hstarted
    exact hbegun (Checks.toOption_eq_some_iff.1 hact)
  | resumed ha hrestore hstarted =>
    subst ha hstarted
    obtain ⟨t, -, hstart⟩ := Option.bind_eq_some_iff.1 hact
    exact hbegun (Checks.toOption_eq_some_iff.1 hstart)

theorem Unheard.act (h : n.Unheard k id) (hact : n.act a = some n')
    (hk' : n'.workers.get? k = none) (hothers : ∀ e ∈ n.handsIn a, e.2.id ≠ id)
    (hown : ∀ j, a ≠ .enter k (.reporter j)) : n'.Unheard k id ∧ n'.settings = n.settings := by
  -- a request would have been counted among those of the worker
  have hnone (j : Nat) : n.request? k j = none := by
    cases hq : n.request? k j with
    | none => rfl
    | some q =>
      obtain ⟨r, hr, -⟩ := request?_eq_some hq
      have hmem : q ∈ n.requests k :=
        List.mem_filterMap.2 ⟨j, List.mem_range.2 (h.numbered j r hr).2, hq⟩
      rw [h.requests] at hmem
      cases hmem
  have haside : n.Aside n' k id := by
    by_cases hwriter : ∃ now, a = .step now .writer
    · obtain ⟨now, rfl⟩ := hwriter
      obtain ⟨⟨s, b⟩, hstep, heq⟩ := Option.bind_eq_some_iff.1 hact
      cases heq
      have hstore : n.Aside { n with store := s } k id :=
        aside_of_beside (h.blank.beside_step hstep) (Store.issued_step hstep)
      exact hstore.trans (aside_of_eq rfl rfl rfl rfl)
    · refine aside_of_act hact (fun w hbegins => ?_) (fun w hk => ?_) hown
        (fun e he _ => hothers e he) (fun now heq => hwriter ⟨now, heq⟩) (fun now heq => ?_)
        fun _ j _ => hnone j
      · obtain ⟨w', hk⟩ := hbegins.exists_worker hact
        rw [hk'] at hk
        cases hk
      · rw [h.absent] at hk
        cases hk
      · rw [heq] at hact
        simp [Node.act, step, Node.stepWorker, h.absent] at hact
  exact ⟨⟨hk', haside.numbered h.numbered, haside.requests.trans h.requests,
    h.blank.beside haside.store⟩, haside.settings⟩

/-- A new worker has clean books, and hands its snapshot in at once unless that is stored. -/
theorem Unheard.start {now : Time} {t : Trade} {isStored : Bool}
    (h : n.Unheard n.started t.id) (hstart : n.start now t isStored = .ok n')
    (hk' : n'.workers.get? n.started = some w) (hapart : n.store.Apart) (hapart' : n'.store.Apart)
    (hopen : n.store.closed = false)
    (hencode : isStored = false → ∃ record, t.toSnapshot.encode = .ok record) :
    n'.Reporting n.started w ∧ n'.settings = n.settings ∧
      n'.ledger n.started w (if isStored then [] else [t.sequence]) =
        if isStored then { current := t.sequence }
        else Ledger.handIn { current := t.sequence, due := [0] } 0 [] := by
  unfold Node.start at hstart
  split at hstart
  · cases hstart
  cases hstart
  let w₀ : Worker := { trade := t, mailbox := .new n.settings.mailboxCapacity.toNat }
  let m : Node := { n.setWorker n.started w₀ with
    live := n.live.insert t.id n.started, started := n.started + 1 }
  have hrequests : m.requests n.started = [] := h.requests
  have hbegun : m.Reporting n.started w₀ := by
    refine ⟨h.numbered, ⟨[], ?_, by simp⟩, by simp [w₀, Mailbox.new, Mailbox.line],
      fun greatest hgreatest => ?_⟩
    · show (m.requests n.started).map (·.1) = [] ++ (Store.waiters (n.store.written? t.id) ++
        Store.waiters (n.store.pending.get? t.id))
      rw [hrequests, h.blank.written, h.blank.pending]
      rfl
    · change n.store.highest.get? t.id = some greatest at hgreatest
      rw [h.blank.highest] at hgreatest
      cases hgreatest
  have hclean : m.ledger n.started w₀ [] = { current := t.sequence } := by
    have hpending : m.store.pending.get? w₀.trade.id = none := h.blank.pending
    have hwritten : m.store.written? w₀.trade.id = none := h.blank.written
    have hattempts : m.store.attempts.filter (·.tradeId = w₀.trade.id) = [] := h.blank.attempts
    simp only [ledger, hpending, hwritten, hattempts, hrequests]
    rfl
  have hk : m.workers.get? n.started = some w₀ :=
    (n.get?_setWorker n.started n.started w₀).trans (if_pos rfl)
  -- starting the timers has nothing to do with the snapshots
  have htimers (n₀ : Node) : n₀.Aside ((t.deadlines.values.foldl (fun n₁ d => n₁.startTimer now
      n.started d.id (d.expiresAt.remaining now.date)) n₀).wake [.worker n.started])
      n.started t.id :=
    (aside_foldl (fun n₁ d => n₁.aside_startTimer _ _ _ _) _ _).trans (aside_wake _ _)
  cases isStored with
  | true =>
    obtain ⟨hreporting, hledger⟩ := hbegun.aside hk (htimers m) hapart' hk' []
    exact ⟨hreporting, (htimers m).settings, hledger.trans hclean⟩
  | false =>
    obtain ⟨record, hrecord⟩ := hencode rfl
    obtain ⟨hpersisted, hhanded⟩ := hbegun.persist hapart hopen hrecord 0 []
    obtain ⟨hreporting, hledger⟩ :=
      hpersisted.aside hk (htimers (m.persist n.started t 0)) hapart' hk' [t.sequence]
    refine ⟨hreporting, (htimers (m.persist n.started t 0)).settings, hledger.trans ?_⟩
    rw [hclean] at hhanded
    exact hhanded

/-- A worker that begins has clean books, or has handed its snapshot in at once. -/
theorem Unheard.begins (h : n.Unheard k w.trade.id) (hact : n.act a = some n')
    (hbegins : Begins n a k w) (hk' : n'.workers.get? k = some w) (hapart : n.store.Apart)
    (hapart' : n'.store.Apart) (hopen : n.store.closed = false)
    (hencode : ∀ t, (k, t) ∈ n.handsIn a → ∃ record, t.toSnapshot.encode = .ok record) :
    n'.Reporting k w ∧ n'.settings = n.settings ∧
      ((n.handsIn a = [] ∧ n'.ledger k w [] = { current := w.trade.sequence }) ∨
        (n.handsIn a = [(k, w.trade)] ∧ n'.ledger k w [w.trade.sequence] =
          Ledger.handIn { current := w.trade.sequence, due := [0] } 0 [])) := by
  cases hbegins with
  | launched ha hstarted =>
    subst ha hstarted
    obtain ⟨hreporting, hsettings, hledger⟩ := h.start (Checks.toOption_eq_some_iff.1 hact) hk'
      hapart hapart' hopen fun _ => hencode w.trade List.mem_cons_self
    exact ⟨hreporting, hsettings, .inr ⟨rfl, hledger⟩⟩
  | resumed ha hrestore hstarted =>
    subst ha hstarted
    obtain ⟨t, ht, hstart⟩ := Option.bind_eq_some_iff.1 hact
    cases hrestore.symm.trans (Checks.toOption_eq_some_iff.1 ht)
    obtain ⟨hreporting, hsettings, hledger⟩ := h.start (Checks.toOption_eq_some_iff.1 hstart) hk'
      hapart hapart' hopen nofun
    exact ⟨hreporting, hsettings, .inl ⟨rfl, hledger⟩⟩

end Node

end PeerTrade
