import Mathlib.Data.List.Perm.Subperm
import PeerTrade.Node.Step
import PeerTrade.Node.Trades
import PeerTrade.Proofs.Checks
import PeerTrade.Proofs.Store.Steps

/-!
# What can happen at a node

Clients, workers, timers, reporters, the writer of the store, its backend and the link act in any
order. Much of what they do leaves the trades alone: notices, timers, reporters and wake-ups
(`Node.Still`). What is left is one of a few changes (`Node.Change`), and every action amounts to
one of them (`Node.exists_change_of_act`).
-/

namespace PeerTrade

/-! ## Actions -/

/-- What a client wants of a worker. -/
inductive Request where
  /-- It hands an event over and goes on. -/
  | dispatch (event : Event)
  /-- It hands an event over and waits for the outcome. -/
  | submit (event : Event)
  /-- It wants to see the trade. -/
  | inspect

/-- The mail of a call. -/
def Request.mail (caller : Nat) : Request → Mail
  | dispatch e => .event e none
  | submit e => .event e (some caller)
  | inspect => .inspect caller

theorem Request.eq_of_caller?_mail {request : Request} {caller c : Nat}
    (h : (request.mail caller).caller? = some c) : c = caller := by
  cases request <;> cases h <;> rfl

namespace Node

/-- What can happen at a node. Clients and carriers know a worker by its number, which they have
looked up before. -/
inductive Action where
  /-- One of those who act by themselves takes a step. -/
  | step (now : Time) (actor : Actor)
  | call (k : Nat) (request : Request)
  /-- A message of another node is brought. -/
  | carry (k : Nat) (source : String) (message : Inbound)
  /-- A client or a carrier in line looks whether it has been admitted. -/
  | enter (k : Nat) (sender : Actor)
  | launch (now : Time) (t : Trade)
  /-- A trade is brought back from one of the snapshots in the store. -/
  | resume (now : Time) (s : Snapshot)
  | forget
  | release (k : Nat)
  | flush
  | close
  /-- The backend begins to behave differently; its records stay. -/
  | behave (b : Backend)
  /-- The other side comes into reach or gets out of it, or messages are taken away. -/
  | link (l : Link)
  /-- Those who were woken are put in line, or others are woken. -/
  | rouse (woken : List Actor)

/-- The node after an action, if it is possible. -/
def act (n : Node) : Action → Option Node
  | .step now actor => n.step now actor
  | .call k request =>
    some ({ n with called := n.called + 1 }.deliver k (.caller n.called)
      (request.mail n.called)).1
  | .carry k source m => some (n.deliver k (.carrier source) (.event (.inbound m) none)).1
  | .enter k sender => some (n.enter k sender).1
  | .launch now t => (n.launch now t).toOption
  | .resume now s => do (n.start now (← (n.engine.restore s).toOption) true).toOption
  | .forget => some n.forget.1
  | .release k => some (n.release k)
  | .flush => some { n with store := n.store.flush.1 }
  | .close => some { n with store := n.store.close.1 }
  | .behave b => some { n with backend := { b with records := n.backend.records } }
  | .link l => some { n with link := l }
  | .rouse woken => some { n with woken }

/-- An action that is neither a worker's step nor a call, and takes no trade on. -/
def Action.IsPlain : Action → Prop
  | .step _ (.worker _) | .call .. | .launch .. | .resume .. => False
  | _ => True

end Node

/-! ## What leaves the trades alone -/

/-- Those who wait for a place or have been promised one, in the order of their coming. -/
def Mailbox.line {σ α : Type} (m : Mailbox σ α) : List (σ × α) := m.admitted ++ m.waiting

/-- A worker at the same point of its work; some in line may have given up. -/
structure Worker.Still (w w' : Worker) : Prop where
  trade : w'.trade = w.trade
  phase : w'.phase = w.phase
  chores : w'.chores = w.chores
  queue : w'.mailbox.queue = w.mailbox.queue
  line : w'.mailbox.line.Sublist w.mailbox.line
  lastFailure : w'.lastFailure = w.lastFailure

theorem Worker.Still.refl (w : Worker) : w.Still w := ⟨rfl, rfl, rfl, rfl, .refl _, rfl⟩

theorem Worker.Still.trans {w w' w'' : Worker} (h : w.Still w') (h' : w'.Still w'') :
    w.Still w'' :=
  ⟨h'.trade.trans h.trade, h'.phase.trans h.phase, h'.chores.trans h.chores,
    h'.queue.trans h.queue, h'.line.trans h.line, h'.lastFailure.trans h.lastFailure⟩

namespace Mailbox

variable {σ α : Type} {m : Mailbox σ α}

theorem promise_still (m : Mailbox σ α) :
    m.promise.1.queue = m.queue ∧ m.promise.1.line = m.line := by
  unfold promise
  split
  next => exact ⟨rfl, rfl⟩
  next sender message rest hwaiting =>
    split
    · simp [line, hwaiting]
    · exact ⟨rfl, rfl⟩

/-- A message that is offered joins the queue or the line. -/
theorem exists_offered (m : Mailbox σ α) (sender : σ) (message : α) :
    ∃ placed, (m.offer sender message).1.queue = m.queue ++ placed ∧
      (placed ++ (m.offer sender message).1.line.map (·.2)).Subperm
        (message :: m.line.map (·.2)) := by
  unfold offer
  split
  · exact ⟨[message], rfl, List.Subperm.refl _⟩
  · refine ⟨[], (List.append_nil _).symm, List.Perm.subperm ?_⟩
    simpa [line] using List.perm_append_singleton message (m.line.map (·.2))

theorem queue_of_delivered {sender : σ} {message : α}
    (h : (m.offer sender message).2 = .delivered) :
    (m.offer sender message).1.queue = m.queue ++ [message] := by
  unfold offer at h ⊢
  split at h
  next hplace => simp [hplace]
  next => cases h

/-- A message that enters the queue comes out of the line. -/
theorem exists_entered [BEq σ] [LawfulBEq σ] {m' : Mailbox σ α} {sender : σ}
    (h : m.enter sender = some m') :
    ∃ message, m'.queue = m.queue ++ [message] ∧
      (message :: m'.line.map (·.2)).Subperm (m.line.map (·.2)) := by
  obtain ⟨message, hlookup, rfl⟩ := Option.map_eq_some_iff.1 h
  obtain ⟨front, back, hadmitted, -⟩ := List.lookup_eq_some_iff.1 hlookup
  let others : List (σ × α) → List α := fun l => (l.filter (·.1 != sender)).map (·.2)
  have hothers (l : List (σ × α)) : (others l).Sublist (l.map (·.2)) := List.filter_sublist.map _
  refine ⟨message, rfl, others front ++ message :: (others back ++ m.waiting.map (·.2)), ?_, ?_⟩
  · -- the sender itself is not among the others
    have hline : (m.admitted.filter (·.1 != sender) ++ m.waiting).map (·.2) =
        others front ++ (others back ++ m.waiting.map (·.2)) := by
      simp [others, hadmitted]
    show List.Perm _ (message :: (m.admitted.filter (·.1 != sender) ++ m.waiting).map (·.2))
    rw [hline]
    exact List.perm_middle
  · have hline : m.line.map (·.2) =
        front.map (·.2) ++ message :: (back.map (·.2) ++ m.waiting.map (·.2)) := by
      simp [line, hadmitted]
    rw [hline]
    exact (hothers front).append (((hothers back).append (.refl _)).cons_cons message)

/-- Reading a message leaves the line as it is. -/
theorem take_eq {message : α} {m' : Mailbox σ α} {admitted : Option σ}
    (h : m.take = some (message, m', admitted)) :
    m.queue = message :: m'.queue ∧ m'.line = m.line := by
  unfold take at h
  split at h
  · cases h
  next first rest hqueue =>
    obtain ⟨hrest, hline⟩ := promise_still { m with queue := rest }
    simp only [Option.some.injEq, Prod.mk.injEq] at h
    obtain ⟨rfl, hpromised⟩ := h
    rw [hpromised] at hrest hline
    exact ⟨by rw [hrest, hqueue], hline⟩

theorem queue_of_take_eq_none (h : m.take = none) : m.queue = [] := by
  unfold take at h
  split at h
  next hempty => exact hempty
  next => cases h

theorem withdraw_still [BEq σ] (m : Mailbox σ α) (sender : σ) :
    (m.withdraw sender).1.queue = m.queue ∧ (m.withdraw sender).1.line.Sublist m.line := by
  obtain ⟨hqueue, hline⟩ := promise_still { m with
    waiting := m.waiting.filter (·.1 != sender), admitted := m.admitted.filter (·.1 != sender) }
  refine ⟨hqueue, ?_⟩
  rw [withdraw, hline]
  exact List.filter_sublist.append List.filter_sublist

end Mailbox

namespace Node

variable {n n' n'' : Node} {k : Nat} {w w' : Worker}

/-- The store, the live trades, the replies and the work of every worker are the same. -/
structure Still (n n' : Node) : Prop where
  engine : n'.engine = n.engine
  store : n'.store = n.store
  backend : n'.backend = n.backend
  live : n'.live = n.live
  replies : n'.replies = n.replies
  started : n'.started = n.started
  called : n'.called = n.called
  absent : ∀ k, n.workers.get? k = none → n'.workers.get? k = none
  present : ∀ k w, n.workers.get? k = some w → ∃ w', n'.workers.get? k = some w' ∧ w.Still w'

theorem Still.refl (n : Node) : n.Still n :=
  ⟨rfl, rfl, rfl, rfl, rfl, rfl, rfl, fun _ h => h, fun _ w h => ⟨w, h, .refl w⟩⟩

theorem Still.trans (h : n.Still n') (h' : n'.Still n'') : n.Still n'' := by
  refine ⟨h'.engine.trans h.engine, h'.store.trans h.store, h'.backend.trans h.backend,
    h'.live.trans h.live, h'.replies.trans h.replies, h'.started.trans h.started,
    h'.called.trans h.called, fun k hk => h'.absent k (h.absent k hk), fun k w hk => ?_⟩
  obtain ⟨w', hk', hw⟩ := h.present k w hk
  obtain ⟨w'', hk'', hw'⟩ := h'.present k w' hk'
  exact ⟨w'', hk'', hw.trans hw'⟩

/-- Every worker after a still change was at the same point before. -/
theorem Still.exists_before (h : n.Still n') (hk : n'.workers.get? k = some w') :
    ∃ w, n.workers.get? k = some w ∧ w.Still w' := by
  cases hbefore : n.workers.get? k with
  | none =>
    rw [h.absent k hbefore] at hk
    cases hk
  | some w =>
    obtain ⟨w'', hk'', hw⟩ := h.present k w hbefore
    rw [hk] at hk''
    cases hk''
    exact ⟨w, rfl, hw⟩

@[simp] theorem get?_setWorker (n : Node) (k k' : Nat) (w : Worker) :
    (n.setWorker k w).workers.get? k' = if k' = k then some w else n.workers.get? k' := by
  simp [setWorker, Dict.get?_insert]

theorem still_setWorker (hk : n.workers.get? k = some w) (w' : Worker) (hw : w.Still w') :
    n.Still (n.setWorker k w') := by
  refine ⟨rfl, rfl, rfl, rfl, rfl, rfl, rfl, fun k' hk' => ?_, fun k' w'' hk' => ?_⟩
  · have hne : k' ≠ k := by
      rintro rfl
      rw [hk] at hk'
      cases hk'
    rw [get?_setWorker, if_neg hne, hk']
  · by_cases heq : k' = k
    · subst heq
      rw [hk] at hk'
      cases hk'
      exact ⟨w', by rw [get?_setWorker, if_pos rfl], hw⟩
    · exact ⟨w'', by rw [get?_setWorker, if_neg heq, hk'], .refl w''⟩

theorem still_rouse (n : Node) (woken : List Actor) : n.Still { n with woken } :=
  ⟨rfl, rfl, rfl, rfl, rfl, rfl, rfl, fun _ h => h, fun _ w h => ⟨w, h, .refl w⟩⟩

theorem still_wake (n : Node) (actors : List Actor) : n.Still (n.wake actors) :=
  n.still_rouse (n.woken ++ actors)

theorem still_post (n : Node) (t : Trade) (happening : Happening) : n.Still (n.post t happening) :=
  ⟨rfl, rfl, rfl, rfl, rfl, rfl, rfl, fun _ h => h, fun _ w h => ⟨w, h, .refl w⟩⟩

theorem still_link (n : Node) (l : Link) : n.Still { n with link := l } :=
  ⟨rfl, rfl, rfl, rfl, rfl, rfl, rfl, fun _ h => h, fun _ w h => ⟨w, h, .refl w⟩⟩

theorem still_timers (n : Node) (timers : Dict Nat Timer) (timed : Nat) :
    n.Still { n with timers, timed } :=
  ⟨rfl, rfl, rfl, rfl, rfl, rfl, rfl, fun _ h => h, fun _ w h => ⟨w, h, .refl w⟩⟩

theorem still_reporters (n : Node) (reporters : Dict Nat Reporter) :
    n.Still { n with reporters } :=
  ⟨rfl, rfl, rfl, rfl, rfl, rfl, rfl, fun _ h => h, fun _ w h => ⟨w, h, .refl w⟩⟩

/-- Sending reaches the link or becomes a notice, whether it fails or not. -/
theorem still_send (n : Node) (t : Trade) (m : Outbound) : n.Still (n.send t m) := by
  unfold send
  split
  · exact (n.still_link _).trans (still_wake _ _)
  · exact (n.still_link _).trans (still_post _ _ _)

theorem still_cancelTimer (n : Node) (number : Nat) : n.Still (n.cancelTimer number) := by
  unfold cancelTimer
  split
  · exact .refl n
  next timer _ =>
    have htimers := n.still_timers (n.timers.erase number) n.timed
    dsimp only
    split
    · exact htimers
    next w hw =>
      obtain ⟨hqueue, hline⟩ := w.mailbox.withdraw_still (.timer number)
      have hset := still_setWorker (n := { n with timers := n.timers.erase number }) hw
        { w with mailbox := (w.mailbox.withdraw (.timer number)).1 }
        ⟨rfl, rfl, rfl, hqueue, hline, rfl⟩
      exact (htimers.trans hset).trans (still_wake _ _)

theorem still_stopTimer (n : Node) (k : Nat) (kind : DeadlineKind) :
    n.Still (n.stopTimer k kind) := by
  unfold stopTimer
  split
  · exact .refl n
  next w hw =>
    have hset := still_setWorker hw { w with timers := w.timers.erase kind }
      ⟨rfl, rfl, rfl, rfl, .refl _, rfl⟩
    split
    · exact .refl n
    · exact hset.trans (still_cancelTimer _ _)

theorem still_startTimer (n : Node) (now : Time) (k : Nat) (id : DeadlineId) (after : Duration) :
    n.Still (n.startTimer now k id after) := by
  have hstopped := n.still_stopTimer k id.kind
  unfold startTimer
  dsimp only
  split
  · exact hstopped
  next w hw =>
    have hset := still_setWorker hw
      { w with timers := w.timers.insert id.kind (n.stopTimer k id.kind).timed }
      ⟨rfl, rfl, rfl, rfl, .refl _, rfl⟩
    exact (hstopped.trans hset).trans ((still_timers _ _ _).trans (still_wake _ _))

theorem still_foldl {α : Type} {f : Node → α → Node} (hf : ∀ (n : Node) a, n.Still (f n a))
    (l : List α) (n : Node) : n.Still (l.foldl f n) := by
  induction l generalizing n with
  | nil => exact .refl n
  | cons a rest ih => exact (hf n a).trans (ih (f n a))

theorem still_release (n : Node) (k : Nat) : n.Still (n.release k) := by
  unfold release
  split
  · exact .refl n
  next w hw =>
    have hset := still_setWorker hw { w with mailbox := { w.mailbox with kept := false } }
      ⟨rfl, rfl, rfl, rfl, .refl _, rfl⟩
    exact hset.trans (still_wake _ _)

/-- Of what handing a snapshot in does, only the store's part concerns a trade. -/
theorem still_persist (n : Node) (k : Nat) (t : Trade) (attempt : UInt32) :
    Still { n with store := (n.store.schedule t).1 } (n.persist k t attempt) :=
  (still_reporters _ _).trans (still_wake _ _)

/-! ## Changes -/

/-- What a chore does to the store and the replies. -/
def settle (n : Node) (t : Trade) : Chore → Node
  | .persist _ => { n with store := (n.store.schedule t).1 }
  | .answer caller outcome => n.reply caller (.outcome outcome)
  | _ => n

/-- A new worker for a trade; a trade that is not stored yet is handed in. -/
def begin (n : Node) (t : Trade) (isStored : Bool) : Node :=
  let w : Worker := { trade := t, mailbox := .new n.settings.mailboxCapacity.toNat }
  { n.setWorker n.started w with
    live := n.live.insert t.id n.started
    started := n.started + 1
    store := if isStored then n.store else (n.store.schedule t).1 }

/-- What an action amounts to for the store, the trades and the replies. -/
inductive Change (n : Node) : Action → Node → Prop where
  | still {a : Action} : a.IsPlain → Change n a n
  /-- The store or its backend moves on by itself. -/
  | store {a : Action} (move : Store.Action) {s : Store} {b : Backend} :
      a.IsPlain → (∀ t, move ≠ .schedule t) → n.store.act n.backend move = some (s, b) →
      Change n a { n with store := s, backend := b }
  /-- A call that reaches nobody. -/
  | lost {k : Nat} {request : Request} :
      Change n (.call k request) { n with called := n.called + 1 }
  | call {k : Nat} {request : Request} {w : Worker} :
      n.workers.get? k = some w → w.phase = .running →
      Change n (.call k request) ({ n with called := n.called + 1 }.setWorker k { w with
        mailbox := (w.mailbox.offer (.caller n.called) (request.mail n.called)).1 })
  /-- A worker gets mail that answers no call. -/
  | news {a : Action} {k : Nat} {w : Worker} {sender : Actor} {mail : Mail} :
      a.IsPlain → n.workers.get? k = some w → w.phase = .running → mail.caller? = none →
      Change n a (n.setWorker k { w with mailbox := (w.mailbox.offer sender mail).1 })
  /-- A sender who has been admitted puts its mail in. -/
  | enter {a : Action} {k : Nat} {w : Worker} {sender : Actor} {mailbox : Mailbox Actor Mail} :
      a.IsPlain → n.workers.get? k = some w → w.phase = .running →
      w.mailbox.enter sender = some mailbox → Change n a (n.setWorker k { w with mailbox })
  | chore {now : Time} {k : Nat} {w : Worker} {chore : Chore} {chores : List Chore} :
      n.workers.get? k = some w → w.phase = .running → w.chores = chore :: chores →
      Change n (.step now (.worker k)) ((n.setWorker k { w with chores }).settle w.trade chore)
  | read {now : Time} {k : Nat} {w : Worker} {mail : Mail} {mailbox : Mailbox Actor Mail}
      {admitted : Option Actor} :
      n.workers.get? k = some w → w.phase = .running → w.chores = [] →
      w.mailbox.take = some (mail, mailbox, admitted) →
      Change n (.step now (.worker k)) (n.read now k { w with mailbox } mail)
  | ended {now : Time} {k : Nat} {w : Worker} :
      n.workers.get? k = some w → w.phase = .running → w.chores = [] → w.mailbox.queue = [] →
      Change n (.step now (.worker k)) (n.setWorker k { w with phase := .ended })
  | launch {now : Time} {t : Trade} :
      n.live.get? t.id = none → Change n (.launch now t) (n.begin t false)
  | resume {now : Time} {s : Snapshot} {t : Trade} :
      n.engine.restore s = .ok t → n.live.get? t.id = none →
      Change n (.resume now s) (n.begin t true)
  | forget : Change n .forget { n with live := {} }

theorem deliver_cases (n : Node) (k : Nat) (sender : Actor) (mail : Mail) :
    (n.deliver k sender mail = (n, .refused) ∧
      ∀ w, n.workers.get? k = some w → w.phase ≠ .running) ∨
    ∃ w woken, n.workers.get? k = some w ∧ w.phase = .running ∧
      n.deliver k sender mail =
        ({ n.setWorker k { w with mailbox := (w.mailbox.offer sender mail).1 } with woken },
          (w.mailbox.offer sender mail).2) := by
  cases hw : n.workers.get? k with
  | none => exact .inl ⟨by simp [deliver, hw], fun w h => nomatch h⟩
  | some w =>
    by_cases hrunning : w.phase = .running
    · refine .inr ⟨w, if (w.mailbox.offer sender mail).2 = .delivered then n.woken ++ [.worker k]
        else n.woken, rfl, hrunning, ?_⟩
      simp only [deliver, hw, hrunning, if_true]
      split <;> rfl
    · refine .inl ⟨by simp [deliver, hw, hrunning], fun w' hw' => ?_⟩
      cases hw'
      exact hrunning

theorem enter_cases (n : Node) (k : Nat) (sender : Actor) :
    ((n.enter k sender).1 = n ∧ (n.enter k sender).2 ≠ .delivered) ∨
    ∃ w mailbox woken, n.workers.get? k = some w ∧ w.phase = .running ∧
      w.mailbox.enter sender = some mailbox ∧
      n.enter k sender = ({ n.setWorker k { w with mailbox } with woken }, .delivered) := by
  cases hw : n.workers.get? k with
  | none => exact .inl (by simp [enter, hw])
  | some w =>
    by_cases hrunning : w.phase = .running
    · cases hmailbox : w.mailbox.enter sender with
      | none => exact .inl (by simp [enter, hw, hrunning, hmailbox])
      | some mailbox =>
        refine .inr ⟨w, mailbox, n.woken ++ [.worker k], rfl, hrunning, hmailbox, ?_⟩
        simp only [enter, hw, hrunning, hmailbox, if_true]
        rfl
    · exact .inl (by simp [enter, hw, hrunning])

theorem start_cases {now : Time} {t : Trade} {isStored : Bool}
    (h : n.start now t isStored = .ok n') :
    n.live.get? t.id = none ∧ (n.begin t isStored).Still n' := by
  unfold start at h
  split at h
  · cases h
  next hfree =>
    have hnone : n.live.get? t.id = none := by
      simpa [Dict.contains] using hfree
    cases h
    refine ⟨hnone, Still.trans ?_ (still_wake _ _)⟩
    refine Still.trans ?_ (still_foldl (fun n d => still_startTimer n _ _ _ _) _ _)
    -- the snapshot is handed in before the timers are started
    let w : Worker := { trade := t, mailbox := .new n.settings.mailboxCapacity.toNat }
    let m : Node := { n.setWorker n.started w with
      live := n.live.insert t.id n.started, started := n.started + 1 }
    cases isStored with
    | true => exact .refl m
    | false => exact still_persist m n.started t 0

/-- What a chore does besides the store and the replies leaves the trades alone. -/
theorem still_perform (n : Node) (now : Time) (k : Nat) (t : Trade) (chore : Chore) :
    (n.settle t chore).Still (n.perform now k t chore) := by
  cases chore with
  | persist attempt => exact still_persist n k t attempt
  | post happening => exact still_post n t happening
  | startTimer id after => exact still_startTimer n now k id after
  | stopTimer kind => exact still_stopTimer n k kind
  | send m => exact still_send n t m
  | answer caller outcome => exact .refl _

theorem change_of_stepWorker {now : Time} (h : n.stepWorker now k = some n') :
    ∃ m, Change n (.step now (.worker k)) m ∧ m.Still n' := by
  unfold stepWorker at h
  obtain ⟨w, hw, h⟩ := Option.bind_eq_some_iff.1 h
  split at h
  · cases h
  next hrunning =>
    have hrunning : w.phase = .running := Decidable.not_not.1 hrunning
    split at h
    next chore chores hchores =>
      cases h
      exact ⟨_, .chore hw hrunning hchores, still_perform _ _ _ _ _⟩
    next hchores =>
      split at h
      next mail mailbox admitted htake =>
        cases h
        exact ⟨_, .read hw hrunning hchores htake, still_wake _ _⟩
      next htake =>
        split at h
        · cases h
        · cases h
          exact ⟨_, .ended hw hrunning hchores (Mailbox.queue_of_take_eq_none htake),
            still_foldl still_cancelTimer _ _⟩

/-- News that a timer or a reporter passes on arrives, or leaves the trades alone. -/
theorem change_of_passing (n : Node) {a : Action} (ha : a.IsPlain) (k : Nat) (sender : Actor)
    {mail : Mail} (hmail : mail.caller? = none) (isSending : Bool) :
    ∃ m, Change n a m ∧ m.Still
      (if isSending then n.enter k sender else n.deliverIfReachable k sender mail).1 := by
  cases isSending with
  | true =>
    rw [if_pos rfl]
    rcases n.enter_cases k sender with ⟨heq, -⟩ | ⟨w, mailbox, woken, hw, hrunning, henter, heq⟩
    · rw [heq]
      exact ⟨n, .still ha, .refl n⟩
    · rw [heq]
      exact ⟨_, .enter ha hw hrunning henter, still_rouse _ _⟩
  | false =>
    simp only [Bool.false_eq_true, if_false, deliverIfReachable]
    split
    · rcases n.deliver_cases k sender mail with ⟨heq, -⟩ | ⟨w, woken, hw, hrunning, heq⟩
      · rw [heq]
        exact ⟨n, .still ha, .refl n⟩
      · rw [heq]
        exact ⟨_, .news ha hw hrunning hmail, still_rouse _ _⟩
    · exact ⟨n, .still ha, .refl n⟩

/-- What a reporter does is to pass its news on, if there are any. -/
theorem stepReporter_cases {j : Nat} (hstep : n.stepReporter j = some n') :
    ∃ r, n.reporters.get? j = some r ∧
      ((n.store.answer? r.ticket = some (.ok ()) ∧
          n' = { n with reporters := n.reporters.erase j }) ∨
        ∃ f m delivery, n.store.answer? r.ticket = some (.error f) ∧
          (if r.sending then n.enter r.worker (.reporter j)
            else n.deliverIfReachable r.worker (.reporter j) (.persistFailed f r.attempt)) =
              (m, delivery) ∧
          ((delivery ≠ .waiting ∧ n' = { m with reporters := m.reporters.erase j }) ∨
            (delivery = .waiting ∧ r.sending = false ∧
              n' = { m with reporters := m.reporters.insert j { r with sending := true } }))) := by
  unfold stepReporter at hstep
  obtain ⟨r, hr, hstep⟩ := Option.bind_eq_some_iff.1 hstep
  obtain ⟨result, hresult, hstep⟩ := Option.bind_eq_some_iff.1 hstep
  refine ⟨r, hr, ?_⟩
  cases result with
  | ok =>
    cases hstep
    exact .inl ⟨hresult, rfl⟩
  | error f =>
    refine .inr ?_
    dsimp only at hstep
    generalize hpassed : (if r.sending = true then _ else _ : Node × Delivery) = passed at hstep
    obtain ⟨m, delivery⟩ := passed
    refine ⟨f, m, delivery, hresult, hpassed, ?_⟩
    cases delivery with
    | waiting =>
      dsimp only at hstep
      split at hstep
      · cases hstep
      next hsending =>
        cases hstep
        exact .inr ⟨rfl, by simpa using hsending, rfl⟩
    | delivered =>
      cases hstep
      exact .inl ⟨by simp, rfl⟩
    | refused =>
      cases hstep
      exact .inl ⟨by simp, rfl⟩

/-- What a timer does when it is due is to pass its news on. -/
theorem stepTimer_cases {now : Time} {j : Nat} (hstep : n.stepTimer now j = some n') :
    ∃ timer m delivery, n.timers.get? j = some timer ∧
      (if timer.sending then n.enter timer.worker (.timer j)
        else n.deliverIfReachable timer.worker (.timer j) (.event (.timeout timer.id) none)) =
          (m, delivery) ∧
      ((delivery ≠ .waiting ∧ n' = { m with timers := m.timers.erase j }) ∨
        (delivery = .waiting ∧ timer.sending = false ∧
          n' = { m with timers := m.timers.insert j { timer with sending := true } })) := by
  unfold stepTimer at hstep
  obtain ⟨timer, htimer, hstep⟩ := Option.bind_eq_some_iff.1 hstep
  split at hstep
  · cases hstep
  dsimp only at hstep
  generalize hpassed : (if timer.sending = true then _ else _ : Node × Delivery) = passed at hstep
  obtain ⟨m, delivery⟩ := passed
  refine ⟨timer, m, delivery, htimer, hpassed, ?_⟩
  cases delivery with
  | waiting =>
    dsimp only at hstep
    split at hstep
    · cases hstep
    next hsending =>
      cases hstep
      exact .inr ⟨rfl, by simpa using hsending, rfl⟩
  | delivered =>
    cases hstep
    exact .inl ⟨by simp, rfl⟩
  | refused =>
    cases hstep
    exact .inl ⟨by simp, rfl⟩

theorem change_of_stepReporter {now : Time} {number : Nat} (h : n.stepReporter number = some n') :
    ∃ m, Change n (.step now (.reporter number)) m ∧ m.Still n' := by
  obtain ⟨r, -, ⟨-, rfl⟩ | ⟨f, passed, delivery, -, hpassed, hdone⟩⟩ := stepReporter_cases h
  · exact ⟨n, .still trivial, still_reporters _ _⟩
  · have ha : (Action.step now (.reporter number)).IsPlain := trivial
    have hmail : (Mail.persistFailed f r.attempt).caller? = none := rfl
    obtain ⟨m, hchange, hstill⟩ :=
      n.change_of_passing ha r.worker (.reporter number) hmail r.sending
    rw [hpassed] at hstill
    -- what follows concerns the reporter alone
    refine ⟨m, hchange, hstill.trans ?_⟩
    rcases hdone with ⟨-, rfl⟩ | ⟨-, -, rfl⟩ <;> exact still_reporters _ _

theorem change_of_stepTimer {now : Time} {number : Nat} (h : n.stepTimer now number = some n') :
    ∃ m, Change n (.step now (.timer number)) m ∧ m.Still n' := by
  obtain ⟨t, passed, delivery, -, hpassed, hdone⟩ := stepTimer_cases h
  have ha : (Action.step now (.timer number)).IsPlain := trivial
  have hmail : (Mail.event (.timeout t.id) none).caller? = none := rfl
  obtain ⟨m, hchange, hstill⟩ :=
    n.change_of_passing ha t.worker (.timer number) hmail t.sending
  rw [hpassed] at hstill
  refine ⟨m, hchange, hstill.trans ?_⟩
  rcases hdone with ⟨-, rfl⟩ | ⟨-, -, rfl⟩ <;> exact still_timers _ _ _

theorem change_of_stepWriter {now : Time} (h : n.stepWriter = some n') :
    ∃ m, Change n (.step now .writer) m ∧ m.Still n' := by
  unfold stepWriter at h
  obtain ⟨⟨s, b⟩, hstep, h⟩ := Option.bind_eq_some_iff.1 h
  cases h
  exact ⟨_, .store .write trivial (fun _ => nofun) hstep, still_wake _ _⟩

theorem change_of_call (n : Node) (k : Nat) (request : Request) :
    ∃ m, Change n (.call k request) m ∧ m.Still ({ n with called := n.called + 1 }.deliver k
      (.caller n.called) (request.mail n.called)).1 := by
  rcases deliver_cases { n with called := n.called + 1 } k (.caller n.called)
    (request.mail n.called) with ⟨heq, -⟩ | ⟨w, woken, hw, hrunning, heq⟩
  · rw [heq]
    exact ⟨_, .lost, .refl _⟩
  · rw [heq]
    exact ⟨_, .call hw hrunning, still_rouse _ _⟩

theorem change_of_carry (n : Node) (k : Nat) (source : String) (m : Inbound) :
    ∃ n', Change n (.carry k source m) n' ∧
      n'.Still (n.deliver k (.carrier source) (.event (.inbound m) none)).1 := by
  rcases n.deliver_cases k (.carrier source) (.event (.inbound m) none) with
    ⟨heq, -⟩ | ⟨w, woken, hw, hrunning, heq⟩
  · rw [heq]
    exact ⟨n, .still trivial, .refl n⟩
  · rw [heq]
    exact ⟨_, .news trivial hw hrunning rfl, still_rouse _ _⟩

theorem change_of_enter (n : Node) (k : Nat) (sender : Actor) :
    ∃ m, Change n (.enter k sender) m ∧ m.Still (n.enter k sender).1 := by
  rcases n.enter_cases k sender with ⟨heq, -⟩ | ⟨w, mailbox, woken, hw, hrunning, henter, heq⟩
  · rw [heq]
    exact ⟨n, .still trivial, .refl n⟩
  · rw [heq]
    exact ⟨_, .enter trivial hw hrunning henter, still_rouse _ _⟩

theorem change_of_launch {now : Time} {t : Trade} (h : n.launch now t = .ok n') :
    ∃ m, Change n (.launch now t) m ∧ m.Still n' := by
  obtain ⟨hfree, hstill⟩ := start_cases h
  exact ⟨_, .launch hfree, hstill⟩

theorem change_of_resume {now : Time} {s : Snapshot} {t : Trade}
    (hrestore : n.engine.restore s = .ok t) (h : n.start now t true = .ok n') :
    ∃ m, Change n (.resume now s) m ∧ m.Still n' := by
  obtain ⟨hfree, hstill⟩ := start_cases h
  exact ⟨_, .resume hrestore hfree, hstill⟩

/-- Whatever an action does, for the store, the trades and the replies it amounts to one of the
changes. -/
theorem exists_change_of_act {a : Action} (h : n.act a = some n') :
    ∃ m, Change n a m ∧ m.Still n' := by
  cases a with
  | step now actor =>
    cases actor with
    | writer => exact change_of_stepWriter h
    | worker k => exact change_of_stepWorker h
    | reporter number => exact change_of_stepReporter h
    | timer number => exact change_of_stepTimer h
    | carrier source => cases h
    | caller number => cases h
  | call k request =>
    cases h
    exact n.change_of_call k request
  | carry k source m =>
    cases h
    exact n.change_of_carry k source m
  | enter k sender =>
    cases h
    exact n.change_of_enter k sender
  | launch now t => exact change_of_launch (Checks.toOption_eq_some_iff.1 h)
  | resume now s =>
    obtain ⟨t, ht, h⟩ := Option.bind_eq_some_iff.1 h
    exact change_of_resume (Checks.toOption_eq_some_iff.1 ht) (Checks.toOption_eq_some_iff.1 h)
  | forget =>
    cases h
    exact ⟨_, .forget, .refl _⟩
  | release k =>
    cases h
    exact ⟨n, .still trivial, still_release n k⟩
  | flush =>
    cases h
    exact ⟨_, .store .flush trivial (fun _ => nofun) rfl, .refl _⟩
  | close =>
    cases h
    exact ⟨_, .store .close trivial (fun _ => nofun) rfl, .refl _⟩
  | behave b =>
    cases h
    exact ⟨_, .store (.behave b) trivial (fun _ => nofun) rfl, .refl _⟩
  | link l =>
    cases h
    exact ⟨n, .still trivial, still_link n l⟩
  | rouse woken =>
    cases h
    exact ⟨n, .still trivial, still_rouse n woken⟩

end Node

end PeerTrade
