import PeerTrade.Proofs.Node.Bookkeeping
import PeerTrade.Proofs.Node.Deadlines
import PeerTrade.Proofs.Node.Shutdown

/-!
# Retries

A snapshot that could not be written is handed in again until the limit is reached. How often the
current snapshot of a worker may fail depends on what was pending when it was handed in first: it
takes over the attempt of the oldest request that it was merged with, and has that many attempts less
(`Node.retries_what_is_left`). A snapshot that is merged with the last retry of an older one is given
up after the first failure (`Node.merged_snapshot_is_given_up`).
-/

namespace PeerTrade

/-- How many writes of the snapshot of a trade at some sequence have failed. -/
def Store.failedWrites (s : Store) (id : String) (sequence : UInt64) : Nat :=
  s.attempts.count ⟨id, sequence, false⟩

namespace Node

open Store (tradeAt storable_tradeAt)

variable {n n' : Node} {k : Nat} {w w' w₁ : Worker} {a : Action} {handed : List UInt64}

/-! ## Reading a ledger -/

/-- The attempt of the oldest request that waits for the pending snapshot of a trade. -/
def inherited (n : Node) (id : String) : UInt32 :=
  ((n.store.pending.get? id).bind (·.waiters.head?)).elim 0 n.attemptOf

/-- The current snapshot of a worker is to be handed in, or is pending, or is being written, or it
could not be written and the worker has not acted upon that yet. -/
inductive Underway (n : Node) (k : Nat) (w : Worker) : Prop where
  | due {attempt : UInt32} : .persist attempt ∈ w.chores → Underway n k w
  | pending {p : Pending} : n.store.pending.get? w.trade.id = some p →
      p.sequence = w.trade.sequence → Underway n k w
  | writing {p : Pending} {held : Bool} : n.store.writer = .writing w.trade.id p held →
      p.sequence = w.trade.sequence → Underway n k w
  | unread {f : PersistFailure} {attempt : UInt32} : .persistFailed f attempt ∈ w.mailbox.queue →
      f.sequence = w.trade.sequence → w.hasHeard f attempt = false → Underway n k w
  | untold {j : Nat} {r : Reporter} {f : PersistFailure} : n.reporters.get? j = some r →
      r.worker = k → n.store.answer? r.ticket = some (.error f) →
      f.sequence = w.trade.sequence → w.hasHeard f r.attempt = false → Underway n k w

theorem inherited_ledger (n : Node) (k : Nat) (w : Worker) (handed : List UInt64) :
    (n.ledger k w handed).inherited = n.inherited w.trade.id := by
  unfold Ledger.inherited Node.inherited ledger
  cases n.store.pending.get? w.trade.id with
  | none => rfl
  | some p => cases hwaiters : p.waiters <;> simp [hwaiters]

theorem failed_ledger (n : Node) (k : Nat) (w : Worker) (handed : List UInt64)
    (sequence : UInt64) : (n.ledger k w handed).failed sequence =
      n.store.failedWrites w.trade.id sequence := by
  show List.count _ ((n.store.attempts.filter (·.tradeId = w.trade.id)).map _) = _
  rw [Store.failedWrites]
  induction n.store.attempts with
  | nil => rfl
  | cons first rest ih =>
    obtain ⟨id, s, succeeded⟩ := first
    by_cases hid : id = w.trade.id
    · simp [hid, List.count_cons, ih]
    · simp [hid, ih]

theorem lastAttempt?_of_ledger {sequence : UInt64} {succeeded : Bool}
    (h : (n.ledger k w handed).finished.getLast? = some (sequence, succeeded)) :
    n.store.lastAttempt? w.trade.id = some ⟨w.trade.id, sequence, succeeded⟩ := by
  change ((n.store.attempts.filter (·.tradeId = w.trade.id)).map _).getLast? = _ at h
  rw [List.getLast?_map, Option.map_eq_some_iff] at h
  obtain ⟨last, hlast, heq⟩ := h
  have hid : last.tradeId = w.trade.id := by
    simpa using (List.mem_filter.1 (List.mem_of_getLast? hlast)).2
  rw [Store.lastAttempt?, hlast, ← hid]
  cases heq
  rfl

theorem mem_failures {e : UInt64 × UInt32} (h : e ∈ (n.requests k).filterMap n.store.failure?) :
    ∃ j r f, n.reporters.get? j = some r ∧ r.worker = k ∧
      n.store.answer? r.ticket = some (.error f) ∧ e = (f.sequence, r.attempt) := by
  obtain ⟨q, hq, he⟩ := List.mem_filterMap.1 h
  obtain ⟨j, -, hj⟩ := List.mem_filterMap.1 hq
  obtain ⟨r, hr, hworker, rfl⟩ := request?_eq_some hj
  unfold Store.failure? at he
  split at he
  next f hanswer =>
    cases he
    exact ⟨j, r, f, hr, hworker, hanswer, rfl⟩
  next => cases he

theorem mem_reports {e : UInt64 × UInt32} {queue : List Mail}
    (h : e ∈ queue.filterMap Mail.report?) :
    ∃ f, .persistFailed f e.2 ∈ queue ∧ f.sequence = e.1 := by
  obtain ⟨mail, hmail, he⟩ := List.mem_filterMap.1 h
  cases mail with
  | persistFailed f attempt =>
    cases he
    exact ⟨f, hmail, rfl⟩
  | event | inspect => cases he

theorem underway_of_ledger (h : (n.ledger k w handed).Underway) : n.Underway k w := by
  cases h with
  | @due attempt hdue =>
    obtain ⟨chore, hmem, hattempt⟩ := List.mem_filterMap.1 hdue
    cases chore with
    | persist attempt' => exact .due hmem
    | post | startTimer | stopTimer | send | answer => cases hattempt
  | pending hpending hsequence =>
    obtain ⟨p, hp, rfl⟩ := Option.map_eq_some_iff.1 hpending
    exact .pending hp hsequence
  | writing hwriting hsequence =>
    obtain ⟨p, hp, rfl⟩ := Option.map_eq_some_iff.1 hwriting
    obtain ⟨held, hwriter⟩ := Store.written?_eq_some hp
    exact .writing hwriter hsequence
  | @unread attempt hunread hnews =>
    have hheard {f : PersistFailure} (hf : f.sequence = w.trade.sequence) :
        w.hasHeard f attempt = false := by
      rw [← hnews, Worker.hasHeard, hf]
      rfl
    rcases List.mem_append.1 hunread with hmem | hmem
    · obtain ⟨f, hmem, hf⟩ := mem_reports hmem
      exact .unread hmem hf (hheard hf)
    · obtain ⟨j, r, f, hr, hworker, hanswer, heq⟩ := mem_failures hmem
      obtain ⟨hsequence, rfl⟩ := Prod.mk.inj heq
      exact .untold hr hworker hanswer hsequence.symm (hheard hsequence.symm)

/-! ## Runs -/

/-- Some actions lead from a watched node to another, and the failures of a worker's requests are
reported in the order in which the requests were made. -/
inductive Watched.OrderlyRun (k : Nat) (x : Watched) : List Action → Watched → Prop where
  | nil : OrderlyRun k x [] x
  | concat {actions : List Action} {x₁ x₂ : Watched} {a : Action} :
      OrderlyRun k x actions x₁ → x₁.act a = some x₂ → x₁.node.InOrder k a x₂.node →
      OrderlyRun k x (actions ++ [a]) x₂

/-- A worker runs and its mailbox is kept open, what it has handed in could be encoded, nobody else
has handed anything in for its trade, the store is open and its writer has not broken down, and the
sequences have not wrapped around. -/
structure Watched.Undisturbed (x : Watched) (k : Nat) (w : Worker) : Prop where
  worker : x.node.workers.get? k = some w
  running : w.phase = .running
  kept : w.mailbox.kept = true
  encodes : ∀ t, (k, t) ∈ x.handed → ∃ record, t.toSnapshot.encode = .ok record
  alone : ∀ e ∈ x.handed, e.2.id = w.trade.id → e.1 = k
  opened : x.node.store.closed = false
  alive : x.node.store.writer ≠ .dead
  fits : x.Fits

/-- A worker hands the snapshot of some sequence in for the first time. -/
structure Watched.HandsInFirst (x : Watched) (k : Nat) (sequence : UInt64) (a : Action)
    (x' : Watched) : Prop where
  act : x.act a = some x'
  order : x.node.InOrder k a x'.node
  hands : ∃ t, (k, t) ∈ x.node.handsIn a ∧ t.sequence = sequence
  first : ∀ t, (k, t) ∈ x.handed → t.sequence ≠ sequence

/-- How the snapshots of a worker fare, by what was observed. -/
def Watched.ledger (x : Watched) (k : Nat) (w : Worker) : Ledger :=
  x.node.ledger k w (sequencesOf k x.handed)

namespace Watched

variable {x x' y y₁ : Watched} {actions before after : List Action}

theorem OrderlyRun.run (h : x.OrderlyRun k actions x') : x.Run actions x' := by
  induction h with
  | nil => exact .nil
  | concat _ hact _ ih => exact ih.concat hact

theorem Reachable.trans (h : x.Reachable) (hrun : x.Run actions x') : x'.Reachable := by
  obtain ⟨name, engine, settings, backend, identity, earlier, hx⟩ := h
  exact ⟨name, engine, settings, backend, identity, earlier ++ actions, hx.trans hrun⟩

theorem Reachable.act (h : x.Reachable) (hact : x.act a = some x') : x'.Reachable :=
  h.trans (.concat .nil hact)

theorem Reachable.apart (h : x.Reachable) : x.node.store.Apart := by
  obtain ⟨name, engine, settings, backend, identity, earlier, hx⟩ := h
  obtain ⟨moves, -, hmoves, -⟩ := hx.store
  exact hmoves.reachable.apart

theorem Extends.fits (h : x.Extends x') (hfits : x'.Fits) : x.Fits := by
  intro k t₀ ht
  obtain ⟨ht', ⟨more, hmore⟩, -⟩ := h.journal k t₀ ht
  have hwhole := hfits k t₀ ht'
  rw [h.engine, ← hmore, Mail.stream_append, Engine.history_append, List.length_append] at hwhole
  omega

theorem node_of_act (hact : x.act a = some x') : x.node.act a = some x'.node := by
  obtain ⟨n', hn', rfl⟩ := Option.map_eq_some_iff.1 hact
  exact hn'

/-- A worker that is undisturbed now has been so before. -/
theorem Undisturbed.of_act (h : x'.Undisturbed k w') (hreach : x.Reachable)
    (hact : x.act a = some x') (hk : x.node.workers.get? k = some w) :
    x.Undisturbed k w ∧ w'.trade.id = w.trade.id ∧ w.trade.sequence ≤ w'.trade.sequence := by
  have hlinear := hreach.linear
  have hx := hlinear.extends_of_act hact
  have hhanded := (Watched.of_act hact).1
  have hsub : ∀ e ∈ x.handed, e ∈ x'.handed := fun e he => by
    rw [hhanded]
    exact List.mem_append_left _ he
  -- a trade that was there before is not newer than it is now
  have hfollows : Follows x'.node.engine (x'.journal k) w' :=
    ((hreach.act hact).linear.straight k w' h.worker).follows
  obtain ⟨hid, hle⟩ := hfollows.not_newer h.fits
    (hx.shows (hlinear.straight k w hk).follows.trade (Nat.le_refl _)).2
  obtain ⟨w₀, hk₀, hrunning, hkept⟩ : x.node.IsOpen k :=
    ((hreach.onTime.punctual.act hlinear.get?_started (node_of_act hact)).2 k w hk).opens
      ⟨w', h.worker, h.running, h.kept⟩
  cases hk.symm.trans hk₀
  obtain ⟨moves, -, hmoves, -⟩ := (Run.concat .nil hact).store
  refine ⟨⟨hk, hrunning, hkept, fun t ht => h.encodes t (hsub _ ht), fun e he heq => ?_,
    hmoves.open_before h.opened, fun hdead => ?_, hx.fits h.fits⟩, hid.symm, hle⟩
  · exact h.alone e (hsub e he) (heq.trans hid)
  · have hended : x.node.store.writer.ended = true := by rw [hdead]; rfl
    exact h.alive ((hmoves.of_ended hended).1.trans hdead)

/-- A worker that is undisturbed after an action has gone on through it. -/
theorem Undisturbed.continues (h : x'.Undisturbed k w') (hreach : x.Reachable)
    (hact : x.act a = some x') (horder : x.node.InOrder k a x'.node)
    (hk : x.node.workers.get? k = some w) : x.node.Continues k w a x'.node w' := by
  obtain ⟨hbefore, hid, hle⟩ := h.of_act hreach hact hk
  have hhanded := (Watched.of_act hact).1
  have hmem : ∀ e ∈ x.node.handsIn a, e ∈ x'.handed := fun e he => by
    rw [hhanded]
    exact List.mem_append_right _ he
  exact {
    act := node_of_act hact
    order := horder
    before := hk
    after := h.worker
    older := by
      rintro rfl
      rw [hreach.linear.get?_started] at hk
      cases hk
    running := ⟨hbefore.running, h.running⟩
    kept := hbefore.kept
    newer := hle
    apart := ⟨hreach.apart, (hreach.act hact).apart⟩
    opened := hbefore.opened
    alive := h.alive
    others := fun e he hne heq => hne (h.alone e (hmem e he) (heq.trans hid.symm))
    encodes := fun t ht => h.encodes t (hmem _ ht) }

/-- An action that a worker goes on through makes one entry in its books. -/
theorem Undisturbed.step (h : x'.Undisturbed k w') (hreach : x.Reachable)
    (hact : x.act a = some x') (horder : x.node.InOrder k a x'.node)
    (hk : x.node.workers.get? k = some w) (hreporting : x.node.Reporting k w) :
    x.node.Entry k w (sequencesOf k x.handed) x'.node w' (sequencesOf k x'.handed) := by
  have hentry := hreporting.act (h.continues hreach hact horder hk) (sequencesOf k x.handed)
  rwa [← sequencesOf_append, ← (Watched.of_act hact).1] at hentry

/-! ## The books of a worker -/

/-- The books of a worker are in order, whether its current snapshot has been handed in or not. -/
structure Books (x : Watched) (k : Nat) (w : Worker) (limit : UInt32) : Prop where
  settings : x.node.settings.persistRetryLimit = limit
  reporting : x.node.Reporting k w
  ledger : (x.ledger k w).Unhanded limit ∨ ∃ a₀, (x.ledger k w).Handed limit a₀

variable {limit a₀ : UInt32}

theorem Books.step (hbooks : x.Books k w limit) (h : x'.Undisturbed k w') (hreach : x.Reachable)
    (hact : x.act a = some x') (horder : x.node.InOrder k a x'.node)
    (hk : x.node.workers.get? k = some w) : x'.Books k w' limit := by
  obtain ⟨hreporting, hsettings, hstep⟩ := h.step hreach hact horder hk hbooks.reporting
  rw [hbooks.settings] at hstep
  refine ⟨by rw [hsettings, hbooks.settings], hreporting, ?_⟩
  rcases hbooks.ledger with hunhanded | ⟨a₀, hhanded⟩
  · rcases hunhanded.step hstep with hunhanded | ⟨-, hhanded⟩
    · exact .inl hunhanded
    · exact .inr ⟨_, hhanded⟩
  · rcases hhanded.step hstep with ⟨-, hhanded⟩ | ⟨-, hunhanded⟩
    · exact .inr ⟨_, hhanded⟩
    · exact .inl hunhanded

/-- Nobody hands anything in for a worker that is not there yet. -/
theorem ne_of_absent (hreach : x.Reachable) (hk : x.node.workers.get? k = none)
    {e : Nat × Trade} (he : e ∈ x.handed) : e.1 ≠ k := by
  rintro rfl
  obtain ⟨name, engine, settings, backend, identity, earlier, hrun⟩ := hreach
  have htended : Tended (fun _ => True) x :=
    hrun.tended (linear_new ..) (tended_new ..) fun _ _ _ => trivial
  obtain ⟨w, hw⟩ := htended.known e he
  rw [hk] at hw
  cases hw

/-- What is known of a worker that begins, and of its trade. -/
theorem begins_cases (h : x'.Undisturbed k w) (hreach : x.Reachable) (hact : x.act a = some x')
    (hk : x.node.workers.get? k = none) (hunheard : x.node.Unheard k w.trade.id) :
    x'.node.Reporting k w ∧ x'.node.settings = x.node.settings ∧
      ((x.node.handsIn a = [] ∧ x'.ledger k w = { current := w.trade.sequence }) ∨
        x.node.handsIn a = [(k, w.trade)] ∧ x'.ledger k w =
          Ledger.handIn { current := w.trade.sequence, due := [0] } 0 []) := by
  have hhanded := (Watched.of_act hact).1
  obtain ⟨hbegins, -, -, -⟩ := begins_of_act hact hk h.worker
  obtain ⟨moves, -, hmoves, -⟩ := (Run.concat .nil hact).store
  have hnone : sequencesOf k x.handed = [] :=
    sequencesOf_eq_nil fun e he => ne_of_absent hreach hk he
  obtain ⟨hreporting, hsettings, hledger⟩ := hunheard.begins (node_of_act hact) hbegins h.worker
    hreach.apart (hreach.act hact).apart (hmoves.open_before h.opened) fun t ht => h.encodes t (by
      rw [hhanded]
      exact List.mem_append_right _ ht)
  refine ⟨hreporting, hsettings, ?_⟩
  rw [Watched.ledger, hhanded, sequencesOf_append, hnone, List.nil_append]
  rcases hledger with ⟨hhands, hledger⟩ | ⟨hhands, hledger⟩
  · refine .inl ⟨hhands, ?_⟩
    rw [hhands]
    exact hledger
  · refine .inr ⟨hhands, ?_⟩
    rw [hhands]
    simpa [sequencesOf] using hledger

variable {name : String} {engine : Engine} {settings : WorkerSettings} {backend : Backend}
  {identity : Peer}

/-- As long as nothing has been heard of a worker, its trade could be any that was not handed in. -/
theorem OrderlyRun.unheard
    (h : (Watched.new name engine settings backend identity).OrderlyRun k actions x)
    (hk : x.node.workers.get? k = none) {id : String} (hothers : ∀ e ∈ x.handed, e.2.id ≠ id) :
    x.node.Unheard k id ∧ x.node.settings = settings := by
  induction h with
  | nil => exact ⟨unheard_new name engine settings backend identity k id, rfl⟩
  | @concat actions x₁ x₂ a hrun hact horder ih =>
    have hreach : x₁.Reachable := ⟨_, _, _, _, _, _, hrun.run⟩
    have hhanded := (Watched.of_act hact).1
    -- workers do not disappear
    have hk₁ : x₁.node.workers.get? k = none := by
      cases hk₁ : x₁.node.workers.get? k with
      | none => rfl
      | some w =>
        obtain ⟨w', hk', -⟩ := hreach.linear.turn hact hk₁
        rw [hk] at hk'
        cases hk'
    obtain ⟨hunheard, hsettings⟩ := ih hk₁ fun e he => hothers e (by
      rw [hhanded]
      exact List.mem_append_left _ he)
    obtain ⟨hunheard', hsame⟩ := hunheard.act (node_of_act hact) hk (fun e he => hothers e (by
      rw [hhanded]
      exact List.mem_append_right _ he)) horder.own
    exact ⟨hunheard', hsame.trans hsettings⟩

/-- Nothing has been heard of a worker that begins. -/
theorem OrderlyRun.unheard_of_act
    (h : (Watched.new name engine settings backend identity).OrderlyRun k actions x)
    (hact : x.act a = some x') (hx : x'.Undisturbed k w) (hk : x.node.workers.get? k = none) :
    x.node.Unheard k w.trade.id ∧ x.node.settings = settings := by
  have hreach : x.Reachable := ⟨_, _, _, _, _, _, h.run⟩
  refine h.unheard hk fun e he heq => ne_of_absent hreach hk he (hx.alone e ?_ heq)
  rw [(Watched.of_act hact).1]
  exact List.mem_append_left _ he

/-- The books of a worker that has been undisturbed since it began are in order. -/
theorem OrderlyRun.books
    (h : (Watched.new name engine settings backend identity).OrderlyRun k actions x)
    (hx : x.Undisturbed k w) : x.Books k w settings.persistRetryLimit := by
  induction h generalizing w with
  | nil => cases hx.worker
  | @concat actions x₁ x₂ a hrun hact horder ih =>
    have hreach : x₁.Reachable := ⟨_, _, _, _, _, _, hrun.run⟩
    -- the worker was there before the last action, or begins with it
    cases hk : x₁.node.workers.get? k with
    | some w₁ => exact (ih (hx.of_act hreach hact hk).1).step hx hreach hact horder hk
    | none =>
      obtain ⟨hunheard, hsettings⟩ := hrun.unheard_of_act hact hx hk
      obtain ⟨hreporting, hsame, hledger⟩ := begins_cases hx hreach hact hk hunheard
      refine ⟨by rw [hsame, hsettings], hreporting, ?_⟩
      rcases hledger with ⟨-, hledger⟩ | ⟨-, hledger⟩
      · rw [hledger]
        exact .inl (Ledger.unhanded_new _ _ (.inl rfl))
      · rw [hledger]
        exact .inr ⟨_, (Ledger.unhanded_new _ _ (.inr rfl)).handIn rfl⟩

/-! ## From the first time on -/

/-- The current snapshot has been handed in, and has taken over some attempt. -/
structure Spends (x : Watched) (k : Nat) (w : Worker) (limit a₀ : UInt32) : Prop where
  settings : x.node.settings.persistRetryLimit = limit
  reporting : x.node.Reporting k w
  handed : (x.ledger k w).Handed limit a₀

/-- What a worker hands in is its trade, before and after the action. -/
theorem trade_of_mem_handsIn (hreach : x.Reachable) (hact : x.act a = some x') {t : Trade}
    (ht : (k, t) ∈ x.node.handsIn a) (hk : x.node.workers.get? k = some w)
    (hk' : x'.node.workers.get? k = some w') : w.trade = t ∧ w'.trade = t := by
  obtain ⟨w₀, hk₀, hturn⟩ := hreach.linear.turn hact hk
  cases hk'.symm.trans hk₀
  have hnothing (hhands : x.node.handsIn a = []) : w.trade = t ∧ w'.trade = t := by
    rw [hhands] at ht
    cases ht
  cases hturn with
  | idles _ hhands => exact absurd ht (hhands t)
  | @does chore _ _ _ htrade _ hhands =>
    rw [hhands] at ht
    cases chore with
    | persist attempt =>
      cases List.mem_singleton.1 ht
      exact ⟨rfl, htrade⟩
    | post | startTimer | stopTimer | send | answer => cases ht
  | reads _ hhands => exact hnothing hhands
  | breaks _ hhands => exact hnothing hhands
  | ends _ hhands => exact hnothing hhands

theorem mem_sequencesOf {sequence : UInt64} {l : List (Nat × Trade)} :
    sequence ∈ sequencesOf k l ↔ ∃ t, (k, t) ∈ l ∧ t.sequence = sequence := by
  simp [sequencesOf]

/-- A snapshot that is handed in for the first time takes over what is pending. -/
theorem HandsInFirst.spends {sequence : UInt64} (h : y.HandsInFirst k sequence a y₁)
    (hbefore : (Watched.new name engine settings backend identity).OrderlyRun k before y)
    (hx : y₁.Undisturbed k w) : w.trade.sequence = sequence ∧
      y₁.Spends k w settings.persistRetryLimit (y.node.inherited w.trade.id) := by
  have hreach : y.Reachable := ⟨_, _, _, _, _, _, hbefore.run⟩
  obtain ⟨t, ht, rfl⟩ := h.hands
  cases hk : y.node.workers.get? k with
  | none =>
    obtain ⟨hunheard, hsettings⟩ := hbefore.unheard_of_act h.act hx hk
    obtain ⟨hreporting, hsame, hledger⟩ := begins_cases hx hreach h.act hk hunheard
    rcases hledger with ⟨hhands, -⟩ | ⟨hhands, hledger⟩
    · rw [hhands] at ht
      cases ht
    · rw [hhands] at ht
      cases List.mem_singleton.1 ht
      refine ⟨rfl, by rw [hsame, hsettings], hreporting, ?_⟩
      have hinherited : y.node.inherited w.trade.id = 0 := by
        simp [inherited, hunheard.blank.pending]
      rw [hinherited, hledger]
      exact (Ledger.unhanded_new _ _ (.inr rfl)).handIn rfl
  | some w₀ =>
    obtain ⟨rfl, htrade⟩ := trade_of_mem_handsIn hreach h.act ht hk hx.worker
    have hbooks := hbefore.books (hx.of_act hreach h.act hk).1
    obtain ⟨hreporting, hsame, hstep⟩ := hx.step hreach h.act h.order hk hbooks.reporting
    rw [hbooks.settings] at hstep
    refine ⟨congrArg Trade.sequence htrade, by rw [hsame, hbooks.settings], hreporting, ?_⟩
    rcases hbooks.ledger with hunhanded | ⟨a₀, hhanded⟩
    · rcases hunhanded.step hstep with hunhanded' | ⟨-, hhanded⟩
      · -- the current snapshot has just been handed in
        have hmem : w.trade.sequence ∈ (y₁.ledger k w).handed := by
          refine mem_sequencesOf.2 ⟨w.trade, ?_, rfl⟩
          rw [(Watched.of_act h.act).1, htrade]
          exact List.mem_append_right _ ht
        exact absurd (hunhanded'.older.handed _ hmem) (UInt64.lt_irrefl _)
      · rw [Watched.ledger, inherited_ledger, ← htrade] at hhanded
        exact hhanded
    · -- it would not be the first time
      obtain ⟨t, ht, heq⟩ := mem_sequencesOf.1 hhanded.handed
      exact absurd heq (h.first t ht)

theorem Spends.step (hspends : x.Spends k w limit a₀) (h : x'.Undisturbed k w')
    (hreach : x.Reachable) (hact : x.act a = some x') (horder : x.node.InOrder k a x'.node)
    (hk : x.node.workers.get? k = some w) (hsame : w'.trade.sequence = w.trade.sequence) :
    x'.Spends k w' limit a₀ := by
  obtain ⟨hreporting, hsettings, hstep⟩ := h.step hreach hact horder hk hspends.reporting
  rw [hspends.settings] at hstep
  refine ⟨by rw [hsettings, hspends.settings], hreporting, ?_⟩
  rcases hspends.handed.step hstep with ⟨-, hhanded⟩ | ⟨hlt, -⟩
  · exact hhanded
  · change w.trade.sequence < w'.trade.sequence at hlt
    rw [hsame] at hlt
    exact absurd hlt (UInt64.lt_irrefl _)

/-- As long as there is no newer snapshot, the attempts of this one are used up one by one. -/
theorem OrderlyRun.spends (h : y₁.OrderlyRun k actions x) (hreach : y₁.Reachable)
    (hk : y₁.node.workers.get? k = some w₁) (hx : x.Undisturbed k w) :
    y₁.Undisturbed k w₁ ∧ w.trade.id = w₁.trade.id ∧ w₁.trade.sequence ≤ w.trade.sequence ∧
      (w.trade.sequence = w₁.trade.sequence → y₁.Spends k w₁ limit a₀ →
        x.Spends k w limit a₀) := by
  induction h generalizing w with
  | nil =>
    cases hk.symm.trans hx.worker
    exact ⟨hx, rfl, UInt64.le_refl _, fun _ hspends => hspends⟩
  | @concat actions x₁ x₂ a hrun hact horder ih =>
    have hreach₁ := hreach.trans hrun.run
    obtain ⟨w₀, hk₀⟩ := hreach.linear.exists_worker_of_run hrun.run hk
    obtain ⟨hx₁, hid, hle⟩ := hx.of_act hreach₁ hact hk₀
    obtain ⟨hy, hid₁, hle₁, hspends⟩ := ih hx₁
    -- the sequence is the same at both ends, and so it is in between
    refine ⟨hy, hid.trans hid₁, UInt64.le_trans hle₁ hle, fun hsame hfirst => ?_⟩
    have hsame₀ : w.trade.sequence = w₀.trade.sequence :=
      UInt64.le_antisymm (hsame ▸ hle₁) hle
    exact (hspends (hsame₀.symm.trans hsame) hfirst).step hx hreach₁ hact horder hk₀ hsame₀

/-! ## Runs that are played -/

/-- Whether an action keeps the order of a worker's reports. -/
def keepsOrder (n : Node) (k : Nat) (a : Action) (n' : Node) : Bool :=
  let owes (j : Nat) : Bool := ((n.request? k j).bind n.store.failure?).isSome
  (n.reporters.keys.all fun j => !owes j || (n'.reporters.get? j).isSome ||
    (List.range j).all fun i => !owes i) &&
  match a with
  | .enter k' (.reporter _) => k' != k
  | _ => true

/-- A watched node after some actions, if they are possible one after the other and keep the order of
a worker's reports. -/
def playOrderly (k : Nat) (x : Watched) : List Action → Option Watched
  | [] => some x
  | a :: rest => do
    let x' ← x.act a
    if keepsOrder x.node k a x'.node then x'.playOrderly k rest else none

theorem failure_of_owes {j : Nat} (h : n.Owes k j) :
    ((n.request? k j).bind n.store.failure?).isSome = true := by
  obtain ⟨r, f, hr, hworker, hanswer⟩ := h
  simp [request?, hr, hworker, Store.failure?, hanswer]

theorem inOrder_of_keepsOrder (h : keepsOrder n k a n' = true) : n.InOrder k a n' := by
  obtain ⟨hturn, hown⟩ := Bool.and_eq_true_iff.1 h
  refine ⟨fun j howes hgone i hi howes' => ?_, fun j heq => ?_⟩
  · obtain ⟨r, -, hr, -⟩ := id howes
    have hkey : j ∈ n.reporters.keys := List.mem_map.2 ⟨(j, r), Dict.get?_eq_some_iff.1 hr, rfl⟩
    have hall := List.all_eq_true.1 hturn j hkey
    simp only [failure_of_owes howes, hgone, Bool.not_true, Option.isSome_none, Bool.or_self,
      Bool.false_or] at hall
    have hnot := List.all_eq_true.1 hall i (List.mem_range.2 hi)
    rw [failure_of_owes howes'] at hnot
    cases hnot
  · rw [heq] at hown
    simp at hown

theorem OrderlyRun.trans {x'' : Watched} {more : List Action} (h : x.OrderlyRun k actions x')
    (hmore : x'.OrderlyRun k more x'') : x.OrderlyRun k (actions ++ more) x'' := by
  induction hmore with
  | nil => rwa [List.append_nil]
  | concat _ hact horder ih =>
    rw [← List.append_assoc]
    exact .concat ih hact horder

theorem orderly_of_play (h : x.playOrderly k actions = some x') : x.OrderlyRun k actions x' := by
  induction actions generalizing x with
  | nil =>
    cases h
    exact .nil
  | cons a rest ih =>
    obtain ⟨x₁, hact, hrest⟩ := Option.bind_eq_some_iff.1 h
    split at hrest
    next hkeeps =>
      exact (OrderlyRun.concat .nil hact (inOrder_of_keepsOrder hkeeps)).trans (ih hrest)
    next => cases hrest

/-- The only worker of a node is undisturbed as long as it runs and the store writes. -/
theorem undisturbed_of_single (hreach : x.Reachable) (hstarted : x.node.started = 1)
    (hk : x.node.workers.get? 0 = some w) (hrunning : w.phase = .running)
    (hkept : w.mailbox.kept = true) {t₀ : Trade} (horigin : (x.journal 0).origin = some t₀)
    (hfits : t₀.sequence.toNat +
      (x.node.engine.history t₀ (Mail.stream (x.journal 0).read)).length < 2 ^ 64)
    (hstorable : ∀ e ∈ x.handed, e.2.Storable) (hopen : x.node.store.closed = false)
    (halive : x.node.store.writer ≠ .dead) : x.Undisturbed 0 w where
  worker := hk
  running := hrunning
  kept := hkept
  encodes t ht := ⟨_, Snapshot.encode_eq_ok (hstorable _ ht).toSnapshot⟩
  alone e he _ := by
    cases hw : x.node.workers.get? e.1 with
    | none => exact absurd rfl (ne_of_absent hreach hw he)
    | some w => exact hreach.linear.eq_zero hstarted hw
  opened := hopen
  alive := halive
  fits := hreach.linear.fits_of_single hstarted horigin hfits

end Watched

/-! ## The result -/

/-- A worker reads of a failure. -/
theorem exists_step_of_failure (hk : n.workers.get? k = some w) (hrunning : w.phase = .running)
    (hchores : w.chores = []) {f : PersistFailure} {attempt : UInt32} {rest : List Mail}
    (hqueue : w.mailbox.queue = .persistFailed f attempt :: rest) (now : Time) :
    ∃ n' mailbox, n.act (.step now (.worker k)) = some n' ∧ n'.workers.get? k =
      some (Worker.hear { w with mailbox } n.settings.persistRetryLimit f attempt) := by
  cases htake : w.mailbox.take with
  | none =>
    rw [Mailbox.queue_of_take_eq_none htake] at hqueue
    cases hqueue
  | some taken =>
    obtain ⟨mail, mailbox, admitted⟩ := taken
    obtain ⟨hhead, -⟩ := Mailbox.take_eq htake
    rw [hqueue] at hhead
    cases hhead
    let w' : Worker := { w with mailbox }.hear n.settings.persistRetryLimit f attempt
    have hstep : n.act (.step now (.worker k)) =
        some ((n.setWorker k w').wake admitted.toList) := by
      simp [Node.act, step, Node.stepWorker, hk, hrunning, hchores, htake, Node.read, w']
    exact ⟨_, mailbox, hstep, (n.get?_setWorker k k w').trans (if_pos rfl)⟩

/-- A worker that reads news of a failed write of its current snapshot hands that in again as long as
the limit has not been reached. -/
theorem exists_read_of_failure (hk : n.workers.get? k = some w) (hrunning : w.phase = .running)
    (hchores : w.chores = []) {f : PersistFailure} {attempt : UInt32} {rest : List Mail}
    (hqueue : w.mailbox.queue = .persistFailed f attempt :: rest)
    (hsequence : f.sequence = w.trade.sequence) (hnews : w.hasHeard f attempt = false)
    (now : Time) :
    ∃ n' w', n.act (.step now (.worker k)) = some n' ∧ n'.workers.get? k = some w' ∧
      ((∃ b, .persist b ∈ w'.chores) ↔ attempt < n.settings.persistRetryLimit) := by
  obtain ⟨n', mailbox, hact, hk'⟩ := exists_step_of_failure hk hrunning hchores hqueue now
  refine ⟨n', _, hact, hk', ?_⟩
  have hnot : ¬Worker.hasHeard { w with mailbox } f attempt = true := by
    simpa [Worker.hasHeard] using hnews
  by_cases hlt : attempt < n.settings.persistRetryLimit
  · simp [Worker.hear, hnot, hsequence, hlt]
  · simp [Worker.hear, hnot, hsequence, hlt]

/-- A worker that reads of a failed write of an older snapshot does not hand anything in. -/
theorem exists_read_of_older (hk : n.workers.get? k = some w) (hrunning : w.phase = .running)
    (hchores : w.chores = []) {f : PersistFailure} {attempt : UInt32} {rest : List Mail}
    (hqueue : w.mailbox.queue = .persistFailed f attempt :: rest)
    (hsequence : f.sequence < w.trade.sequence) (now : Time) :
    ∃ n' w', n.act (.step now (.worker k)) = some n' ∧ n'.workers.get? k = some w' ∧
      w'.trade = w.trade ∧ ∀ b, .persist b ∉ w'.chores := by
  obtain ⟨n', mailbox, hact, hk'⟩ := exists_step_of_failure hk hrunning hchores hqueue now
  refine ⟨n', _, hact, hk', (Worker.hear_same { w with mailbox } _ f attempt).1, fun b hb => ?_⟩
  have hnewer : ¬w.trade.sequence ≤ f.sequence := UInt64.not_le.2 hsequence
  unfold Worker.hear at hb
  split at hb
  · simp [hchores] at hb
  · simp [hnewer] at hb

/-- The attempts that the current snapshot of a worker has used up, if it was handed in first at `n`:
one for each of its failed writes, and those that it took over then. -/
def spent (n n' : Node) (w : Worker) : Nat :=
  n'.store.failedWrites w.trade.id w.trade.sequence + (n.inherited w.trade.id).toNat

/-- Once the current snapshot of a worker has been handed in, it has as many attempts as the limit
allows, less those of the request that it was merged with then. It is underway until it has been
written or the attempts are used up, and the news of a failed write have it handed in again exactly as
long as there are any left. -/
theorem retries_what_is_left {name : String} {engine : Engine} {settings : WorkerSettings}
    {backend : Backend} {identity : Peer} {before after : List Action} {y y₁ x : Watched}
    (hbefore : (Watched.new name engine settings backend identity).OrderlyRun k before y)
    (hfirst : y.HandsInFirst k w.trade.sequence a y₁) (hafter : y₁.OrderlyRun k after x)
    (hx : x.Undisturbed k w) :
    spent y.node x.node w ≤ settings.persistRetryLimit.toNat + 1 ∧
      (x.node.Underway k w ∨
        (x.node.store.lastAttempt? w.trade.id = some ⟨w.trade.id, w.trade.sequence, true⟩ ∧
          spent y.node x.node w ≤ settings.persistRetryLimit.toNat) ∨
        spent y.node x.node w = settings.persistRetryLimit.toNat + 1) ∧
      ∀ f attempt rest now, w.chores = [] →
        w.mailbox.queue = .persistFailed f attempt :: rest →
        f.sequence = w.trade.sequence → w.hasHeard f attempt = false →
        ∃ n' w', x.node.act (.step now (.worker k)) = some n' ∧ n'.workers.get? k = some w' ∧
          ((∃ b, .persist b ∈ w'.chores) ↔
            spent y.node x.node w ≤ settings.persistRetryLimit.toNat) := by
  have hreach : y.Reachable := ⟨_, _, _, _, _, _, hbefore.run⟩
  have hreach₁ := hreach.act hfirst.act
  obtain ⟨t, ht, hsequence⟩ := hfirst.hands
  obtain ⟨w₁, hk₁⟩ := hreach.linear.exists_worker_of_mem_handsIn hfirst.act ht
  obtain ⟨hy₁, hid, -, hgoes⟩ := hafter.spends hreach₁ hk₁ hx
  obtain ⟨hsame, hspends⟩ := hfirst.spends hbefore hy₁
  have hspent := hgoes hsame.symm hspends
  have hfares := hspent.handed.fares
  -- the ledger counts the failures that the store has noted
  have hused : (x.ledger k w).failed w.trade.sequence + (y.node.inherited w₁.trade.id).toNat =
      spent y.node x.node w := by
    rw [Watched.ledger, failed_ledger, ← hid, spent]
  obtain ⟨hbound, houtcome⟩ := hfares.outcome
  change (x.ledger k w).failed w.trade.sequence + _ ≤ _ at hbound
  rw [hused] at hbound
  refine ⟨hbound, ?_, fun f attempt rest now hchores hqueue hf hnews => ?_⟩
  · rcases houtcome with hunderway | ⟨hlast, hle⟩ | heq
    · exact .inl (underway_of_ledger hunderway)
    · exact .inr (.inl ⟨lastAttempt?_of_ledger hlast, hused ▸ hle⟩)
    · exact .inr (.inr (hused ▸ heq))
  · obtain ⟨n', w', hact, hk', hiff⟩ :=
      exists_read_of_failure hx.worker hx.running hchores hqueue hf hnews now
    refine ⟨n', w', hact, hk', hiff.trans ?_⟩
    have hunread : (x.ledger k w).unread = (w.trade.sequence, attempt) ::
        (rest.filterMap Mail.report? ++ (x.node.requests k).filterMap x.node.store.failure?) := by
      show w.mailbox.queue.filterMap _ ++ _ = _
      rw [hqueue, ← hf]
      rfl
    have hagain := hfares.again_iff hunread (by rw [← hnews, Worker.hasHeard, hf]; rfl)
    change _ ↔ (x.ledger k w).failed w.trade.sequence + _ ≤ _ at hagain
    rw [hused] at hagain
    rwa [hspent.settings]

/-- Nothing is left to be done about a snapshot. -/
theorem not_underway_of_quiet (hchores : w.chores = []) (hqueue : w.mailbox.queue = [])
    (hpending : n.store.pending.get? w.trade.id = none)
    (hwritten : n.store.written? w.trade.id = none) (hreporters : n.reporters.entries = []) :
    ¬n.Underway k w := by
  intro h
  cases h with
  | due hmem => simp [hchores] at hmem
  | pending hp => simp [hpending] at hp
  | writing hwriter => simp [Store.written?, hwriter] at hwritten
  | unread hmem => simp [hqueue] at hmem
  | untold hr =>
    have hmem := Dict.get?_eq_some_iff.1 hr
    simp [hreporters] at hmem

/-- A node whose store refuses every write, where a snapshot is handed in again once. -/
def refusing : Watched :=
  .new "a" (lenient false) { persistRetryLimit := 1 } { refusesWrites := some "full" } ⟨"local"⟩

def launching : Action := .launch ⟨.epoch, 0, .farFuture⟩ (tradeAt 0)

/-- The first snapshot of a trade is refused, and the worker hands it in again. -/
def firstFailure : List Action :=
  [atOnce .writer, atOnce .writer, atOnce (.reporter 0)] ++ List.replicate 3 (atOnce (.worker 0))

/-- After that it is written. -/
def secondWrite : List Action :=
  firstFailure ++ [.behave {}, atOnce .writer, atOnce .writer, atOnce (.reporter 1)]

/-- A snapshot that was refused is handed in again, and written then. -/
theorem refused_snapshot_is_written :
    ∃ (y₁ x : Watched) (w : Worker) (after : List Action),
      refusing.OrderlyRun 0 [] refusing ∧
        refusing.HandsInFirst 0 w.trade.sequence launching y₁ ∧
        y₁.OrderlyRun 0 after x ∧ x.Undisturbed 0 w ∧
        x.node.store.failedWrites w.trade.id w.trade.sequence = 1 ∧
        x.node.store.lastAttempt? w.trade.id = some ⟨w.trade.id, w.trade.sequence, true⟩ ∧
        spent refusing.node x.node w ≤ 1 := by
  obtain ⟨y₁, x, w, hact, hkeeps, hplay, hk, hsequence, hfailed, hspent, hstarted, horigin, hread,
      hengine, hhanded, hrunning, hkept, hopen, hwriter, hchores, hqueue, hpending, hreporters⟩ :
      ∃ (y₁ x : Watched) (w : Worker), refusing.act launching = some y₁ ∧
        Watched.keepsOrder refusing.node 0 launching y₁.node = true ∧
        y₁.playOrderly 0 secondWrite = some x ∧ x.node.workers.get? 0 = some w ∧
        w.trade.sequence = 0 ∧ x.node.store.failedWrites w.trade.id w.trade.sequence = 1 ∧
        spent refusing.node x.node w = 1 ∧ x.node.started = 1 ∧
        (x.journal 0).origin = some (tradeAt 0) ∧ Mail.stream (x.journal 0).read = [] ∧
        x.node.engine = lenient false ∧ x.handed = [(0, tradeAt 0), (0, tradeAt 0)] ∧
        w.phase = .running ∧ w.mailbox.kept = true ∧ x.node.store.closed = false ∧
        x.node.store.writer = .ready ∧ w.chores = [] ∧ w.mailbox.queue = [] ∧
        x.node.store.pending.get? w.trade.id = none ∧ x.node.reporters.entries = [] :=
    ⟨_, _, _, rfl, rfl, rfl, rfl, rfl, rfl, rfl, rfl, rfl, rfl, rfl, rfl, rfl, rfl, rfl, rfl, rfl,
      rfl, rfl, rfl⟩
  have hbefore : refusing.OrderlyRun 0 [] refusing := .nil
  have hafter := Watched.orderly_of_play hplay
  have hfirst : refusing.HandsInFirst 0 w.trade.sequence launching y₁ :=
    ⟨hact, Watched.inOrder_of_keepsOrder hkeeps, ⟨tradeAt 0, List.mem_cons_self, hsequence.symm⟩,
      fun t ht => absurd ht List.not_mem_nil⟩
  have hreach : x.Reachable :=
    Watched.Reachable.trans ⟨_, _, _, _, _, _, .concat .nil hact⟩ hafter.run
  have hx : x.Undisturbed 0 w := Watched.undisturbed_of_single hreach hstarted hk hrunning hkept
    horigin (by rw [hread, hengine]; decide) (by simp [hhanded, storable_tradeAt]) hopen
    (by simp [hwriter])
  have hidle : ¬x.node.Underway 0 w := not_underway_of_quiet hchores hqueue hpending
    (by simp [Store.written?, hwriter]) hreporters
  obtain ⟨-, houtcome, -⟩ := retries_what_is_left hbefore hfirst hafter hx
  rcases houtcome with hunderway | ⟨hlast, hle⟩ | hexhausted
  · exact absurd hunderway hidle
  · exact ⟨y₁, x, w, secondWrite, hbefore, hfirst, hafter, hx, hfailed, hlast, hle⟩
  · rw [hspent] at hexhausted
    cases hexhausted

/-- The trade is cancelled before the writer comes to its first snapshot again. -/
def cancelledMeanwhile : List Action :=
  launching :: (firstFailure ++ [.call 0 (.dispatch cancellation), atOnce (.worker 0)])

/-- What is pending then is refused, and the worker reads that. -/
def secondFailure : List Action :=
  List.replicate 3 (atOnce (.worker 0)) ++
    [atOnce .writer, atOnce .writer, atOnce (.reporter 1), atOnce (.reporter 2)] ++
    List.replicate 3 (atOnce (.worker 0))

/-- The snapshot of a cancelled trade is merged with the last retry of the one before it. It is
refused once and then given up, although a snapshot is to be handed in again once. -/
theorem merged_snapshot_is_given_up :
    ∃ (y y₁ x : Watched) (w : Worker),
      refusing.OrderlyRun 0 cancelledMeanwhile y ∧
        y.HandsInFirst 0 w.trade.sequence (atOnce (.worker 0)) y₁ ∧
        y₁.OrderlyRun 0 secondFailure x ∧ x.Undisturbed 0 w ∧
        x.node.settings.persistRetryLimit = 1 ∧
        x.node.store.failedWrites w.trade.id w.trade.sequence = 1 ∧
        x.node.store.lastAttempt? w.trade.id = some ⟨w.trade.id, w.trade.sequence, false⟩ ∧
        ¬x.node.Underway 0 w := by
  obtain ⟨y, y₁, x, w, hbefore, hact, hkeeps, hplay, hk, hhands, hearlier, hsequence, hlimit,
      hfailed, hlast, hstarted, horigin, hread, hengine, hhanded, hrunning, hkept, hopen, hwriter,
      hchores, hqueue, hpending, hreporters⟩ :
      ∃ (y y₁ x : Watched) (w : Worker), refusing.playOrderly 0 cancelledMeanwhile = some y ∧
        y.act (atOnce (.worker 0)) = some y₁ ∧
        Watched.keepsOrder y.node 0 (atOnce (.worker 0)) y₁.node = true ∧
        y₁.playOrderly 0 secondFailure = some x ∧ x.node.workers.get? 0 = some w ∧
        y.node.handsIn (atOnce (.worker 0)) = [(0, cancelledAt 0)] ∧
        y.handed = [(0, tradeAt 0), (0, tradeAt 0)] ∧ w.trade.sequence = 1 ∧
        x.node.settings.persistRetryLimit = 1 ∧
        x.node.store.failedWrites w.trade.id w.trade.sequence = 1 ∧
        x.node.store.lastAttempt? w.trade.id = some ⟨w.trade.id, w.trade.sequence, false⟩ ∧
        x.node.started = 1 ∧ (x.journal 0).origin = some (tradeAt 0) ∧
        Mail.stream (x.journal 0).read = [(.epoch, cancellation)] ∧
        x.node.engine = lenient false ∧
        x.handed = [(0, tradeAt 0), (0, tradeAt 0), (0, cancelledAt 0)] ∧
        w.phase = .running ∧ w.mailbox.kept = true ∧ x.node.store.closed = false ∧
        x.node.store.writer = .ready ∧ w.chores = [] ∧ w.mailbox.queue = [] ∧
        x.node.store.pending.get? w.trade.id = none ∧ x.node.reporters.entries = [] :=
    ⟨_, _, _, _, rfl, rfl, rfl, rfl, rfl, rfl, rfl, rfl, rfl, rfl, rfl, rfl, rfl, rfl, rfl, rfl, rfl,
      rfl, rfl, rfl, rfl, rfl, rfl, rfl⟩
  have hrun := Watched.orderly_of_play hbefore
  have hafter := Watched.orderly_of_play hplay
  have hfirst : y.HandsInFirst 0 w.trade.sequence (atOnce (.worker 0)) y₁ := by
    refine ⟨hact, Watched.inOrder_of_keepsOrder hkeeps, ⟨cancelledAt 0, ?_, ?_⟩, fun t ht => ?_⟩
    · simp [hhands]
    · rw [hsequence]
      rfl
    · have heq : t = tradeAt 0 := by simpa [hearlier] using ht
      rw [heq, hsequence]
      decide
  have hreach : x.Reachable :=
    Watched.Reachable.trans ⟨_, _, _, _, _, _, hrun.run.concat hact⟩ hafter.run
  refine ⟨y, y₁, x, w, hrun, hfirst, hafter, ?_, hlimit, hfailed, hlast, ?_⟩
  · exact Watched.undisturbed_of_single hreach hstarted hk hrunning hkept horigin
      (by rw [hread, hengine]; decide) (by simp [hhanded, storable_tradeAt, storable_cancelledAt])
      hopen (by simp [hwriter])
  · exact not_underway_of_quiet hchores hqueue hpending (by simp [Store.written?, hwriter])
      hreporters

end Node

end PeerTrade
