import PeerTrade.Proofs.Node.Journal

/-!
# Turns of a worker

For one worker an action means little: it does a chore, reads a mail, breaks down over it, ends, or
has nothing to do with the action (`Node.Turn`). Only the reading of an event changes its trade,
and a trade that was changed has still to be handed to the store.
-/

namespace PeerTrade

/-! ## Reading -/

/-- What a worker does about a failed write is not about its trade. -/
theorem Worker.hear_same (w : Worker) (limit : UInt32) (f : PersistFailure) (attempt : UInt32) :
    (w.hear limit f attempt).trade = w.trade ∧ (w.hear limit f attempt).phase = w.phase ∧
      (w.hear limit f attempt).mailbox = w.mailbox := by
  unfold Worker.hear
  split <;> exact ⟨rfl, rfl, rfl⟩

/-- A trade that an event changes has its snapshot handed in next. -/
theorem Worker.decide_persists (w : Worker) (engine : Engine) (date : Instant) (event : Event)
    (caller : Option Nat) :
    (w.decide engine date event caller).trade = w.trade ∨
      Chore.persist 0 ∈ (w.decide engine date event caller).chores := by
  cases houtcome : (engine.handle date w.trade event).2 with
  | rejected r => exact .inl (Engine.handle_fst_of_rejected houtcome)
  | committed c =>
    refine .inr (List.mem_append_left _ ?_)
    show _ ∈ Outcome.chores event (engine.handle date w.trade event).2
    rw [houtcome]
    exact List.mem_cons_self

namespace Node

variable {n m : Node} {a : Action} {k : Nat} {w w' : Worker}

theorem heard_eq (now : Time) (hk : n.workers.get? k = some w) (hrunning : w.phase = .running)
    (hchores : w.chores = []) {mail : Mail} {rest : List Mail}
    (hqueue : w.mailbox.queue = mail :: rest) :
    n.heard k (.step now (.worker k)) =
      if n.breaksOn w.trade mail then none else some (now.date, mail) := by
  cases hbreaks : n.breaksOn w.trade mail <;>
    simp [heard, hk, hrunning, hchores, hqueue, hbreaks, Option.filter]

/-- A worker that breaks down concerns nobody but itself and those who wait for it. -/
theorem breakDown_same (n : Node) (k : Nat) (w : Worker) (caller : Option Nat) :
    let n' := n.breakDown k w caller
    n'.engine = n.engine ∧ n'.live = n.live ∧ n'.started = n.started ∧ n'.called = n.called ∧
      n'.store = n.store ∧ n'.backend = n.backend ∧
      n'.workers.get? = (n.setWorker k { w with
        phase := .broken
        mailbox := { w.mailbox with queue := [], waiting := [], admitted := [] } }).workers.get? := by
  -- telling those who wait does not touch anything else
  have hfold : ∀ (lost : List Nat) (n : Node),
      let n' := lost.foldl (fun n c => n.reply c .stopped) n
      n'.engine = n.engine ∧ n'.live = n.live ∧ n'.started = n.started ∧ n'.called = n.called ∧
        n'.store = n.store ∧ n'.backend = n.backend ∧ n'.workers.get? = n.workers.get? := by
    intro lost
    induction lost with
    | nil => exact fun n => ⟨rfl, rfl, rfl, rfl, rfl, rfl, rfl⟩
    | cons c rest ih => exact fun n => ih (n.reply c .stopped)
  exact hfold _ _

/-- Reading hands nothing to the store. -/
theorem read_same (n : Node) (now : Time) (k : Nat) (w : Worker) (mail : Mail) :
    (n.read now k w mail).engine = n.engine ∧ (n.read now k w mail).store = n.store ∧
      (n.read now k w mail).backend = n.backend := by
  cases mail with
  | event e caller =>
    obtain ⟨hengine, -, -, -, hstore, hbackend, -⟩ := n.breakDown_same k w caller
    rw [read]
    split
    · exact ⟨hengine, hstore, hbackend⟩
    · exact ⟨rfl, rfl, rfl⟩
  | inspect c => exact ⟨rfl, rfl, rfl⟩
  | persistFailed f attempt => exact ⟨rfl, rfl, rfl⟩

/-! ## Turns -/

/-- What an action means for a worker. -/
inductive Turn (n : Node) (a : Action) (k : Nat) (w w' : Worker) : Prop where
  /-- It has no part in the action, except that mail may arrive. -/
  | idles : n.heard k a = none → (∀ t, (k, t) ∉ n.handsIn a) → w'.trade = w.trade →
      w'.phase = w.phase → w'.chores = w.chores →
      (w.phase ≠ .running → w'.mailbox.queue = w.mailbox.queue) → Turn n a k w w'
  | does {chore : Chore} : n.heard k a = none → w.phase = .running →
      w.chores = chore :: w'.chores → w'.trade = w.trade → w'.phase = .running →
      n.handsIn a = (match chore with
        | .persist _ => [(k, w.trade)]
        | _ => []) → Turn n a k w w'
  | reads {now : Time} {mail : Mail} : a = .step now (.worker k) → n.handsIn a = [] →
      n.heard k a = some (now.date, mail) → w.phase = .running → w.chores = [] →
      w.mailbox.queue = mail :: w'.mailbox.queue →
      w'.trade = (n.engine.run w.trade (Mail.stream [(now.date, mail)])).1 →
      w'.phase = .running → w'.trade = w.trade ∨ .persist 0 ∈ w'.chores → Turn n a k w w'
  | breaks : n.heard k a = none → n.handsIn a = [] → w.phase = .running → w.chores = [] →
      w'.trade = w.trade → w'.phase = .broken → w'.chores = [] → Turn n a k w w'
  | ends : n.heard k a = none → n.handsIn a = [] → w.phase = .running → w.chores = [] →
      w.mailbox.queue = [] → w'.trade = w.trade → w'.phase = .ended → w'.chores = [] →
      w'.mailbox.queue = [] → Turn n a k w w'

/-- A worker begins with a trade that was launched, or restored from a snapshot. -/
inductive Begins (n : Node) (a : Action) (k : Nat) (w : Worker) : Prop where
  | launched {now : Time} : a = .launch now w.trade → k = n.started → Begins n a k w
  | resumed {now : Time} {s : Snapshot} : a = .resume now s → n.engine.restore s = .ok w.trade →
      k = n.started → Begins n a k w

theorem Turn.still {w'' : Worker} (h : Turn n a k w w') (hw : w'.Still w'') : Turn n a k w w'' := by
  obtain ⟨htrade, hphase, hchores, hqueue, -⟩ := hw
  cases h with
  | idles hheard hhands ht hp hc hq =>
    refine .idles hheard hhands (htrade.trans ht) (hphase.trans hp) (hchores.trans hc) fun h => ?_
    exact hqueue.trans (hq h)
  | does hheard hrunning hc ht hp hhands =>
    exact .does hheard hrunning (hc.trans (by rw [hchores])) (htrade.trans ht) (hphase.trans hp)
      hhands
  | reads ha hhands hheard hrunning hnone hq ht hp hpersist =>
    refine .reads ha hhands hheard hrunning hnone (hq.trans (by rw [hqueue])) (htrade.trans ht)
      (hphase.trans hp) ?_
    rwa [htrade, hchores]
  | breaks hheard hhands hrunning hnone ht hp hc =>
    exact .breaks hheard hhands hrunning hnone (htrade.trans ht) (hphase.trans hp)
      (hchores.trans hc)
  | ends hheard hhands hrunning hnone hq ht hp hc hq' =>
    exact .ends hheard hhands hrunning hnone hq (htrade.trans ht) (hphase.trans hp)
      (hchores.trans hc) (hqueue.trans hq')

/-- A worker that has no part in an action. -/
theorem Turn.idle (hheard : n.heard k a = none) (hhands : ∀ t, (k, t) ∉ n.handsIn a) :
    Turn n a k w w :=
  .idles hheard hhands rfl rfl rfl fun _ => rfl

/-- Mail that arrives at one worker changes the mailbox of that worker only. -/
theorem turn_of_arrival {k' : Nat} {w₀ : Worker} {mailbox : Mailbox Actor Mail}
    (hheard : n.heard k a = none) (hhands : n.handsIn a = [])
    (hk' : n.workers.get? k' = some w₀) (hrunning : w₀.phase = .running)
    (hk : n.workers.get? k = some w) :
    ∃ w', (n.setWorker k' { w₀ with mailbox }).workers.get? k = some w' ∧ Turn n a k w w' := by
  have hnone (t : Trade) : (k, t) ∉ n.handsIn a := by simp [hhands]
  rw [get?_setWorker]
  split
  next heq =>
    subst heq
    rw [hk] at hk'
    cases hk'
    exact ⟨_, rfl, .idles hheard hnone rfl rfl rfl fun h => absurd hrunning h⟩
  next => exact ⟨w, hk, .idle hheard hnone⟩

theorem turn_of_chore {now : Time} {k' : Nat} {w₀ : Worker} {chore : Chore} {chores : List Chore}
    (hk' : n.workers.get? k' = some w₀) (hrunning : w₀.phase = .running)
    (hchores : w₀.chores = chore :: chores) (hk : n.workers.get? k = some w) :
    ∃ w', ((n.setWorker k' { w₀ with chores }).settle w₀.trade chore).workers.get? k = some w' ∧
      Turn n (.step now (.worker k')) k w w' := by
  have hworkers : ((n.setWorker k' { w₀ with chores }).settle w₀.trade chore).workers =
      (n.setWorker k' { w₀ with chores }).workers := by cases chore <;> rfl
  rw [hworkers, get?_setWorker]
  split
  next heq =>
    subst heq
    rw [hk] at hk'
    cases hk'
    refine ⟨_, rfl, .does ?_ hrunning hchores rfl hrunning ?_⟩
    · simp [heard, hk, hchores]
    · simp only [handsIn, hk, hrunning, hchores]
      cases chore <;> rfl
  next hne =>
    refine ⟨w, hk, .idle (n.heard_of_ne (Ne.symm hne)) fun t ht => hne ?_⟩
    simp only [handsIn, hk', hrunning, hchores] at ht
    cases chore <;> simp at ht
    exact ht.1

theorem get?_read_of_ne (n : Node) (now : Time) {k' : Nat} (w₀ : Worker) (mail : Mail)
    (hne : k ≠ k') : (n.read now k' w₀ mail).workers.get? k = n.workers.get? k := by
  have hset (w : Worker) : (n.setWorker k' w).workers.get? k = n.workers.get? k :=
    (n.get?_setWorker k' k w).trans (if_neg hne)
  cases mail with
  | event e caller =>
    rw [read]
    split
    · rw [(n.breakDown_same k' w₀ caller).2.2.2.2.2.2]
      exact hset _
    · exact hset _
  | inspect c => exact hset _
  | persistFailed f attempt => exact hset _

theorem turn_of_read {now : Time} {mail : Mail} {mailbox : Mailbox Actor Mail}
    {admitted : Option Actor} (hk : n.workers.get? k = some w) (hrunning : w.phase = .running)
    (hchores : w.chores = []) (htake : w.mailbox.take = some (mail, mailbox, admitted)) :
    ∃ w', (n.read now k { w with mailbox } mail).workers.get? k = some w' ∧
      Turn n (.step now (.worker k)) k w w' := by
  obtain ⟨hqueue, -⟩ := Mailbox.take_eq htake
  have hheard := heard_eq now hk hrunning hchores hqueue
  have hhands : n.handsIn (.step now (.worker k)) = [] := by
    simp [handsIn, hk, hrunning, hchores]
  have hset (w' : Worker) : (n.setWorker k w').workers.get? k = some w' :=
    (n.get?_setWorker k k w').trans (if_pos rfl)
  cases mail with
  | event e caller =>
    rw [read]
    split
    next hcrash =>
      refine ⟨_, by rw [(n.breakDown_same k _ caller).2.2.2.2.2.2]; exact hset _, ?_⟩
      exact .breaks (hheard.trans (if_pos hcrash)) hhands hrunning hchores rfl rfl hchores
    next hcrash =>
      refine ⟨_, hset _, ?_⟩
      exact .reads rfl hhands (hheard.trans (if_neg hcrash)) hrunning hchores hqueue rfl hrunning
        (Worker.decide_persists { w with mailbox } n.engine now.date e caller)
  | inspect c =>
    exact ⟨_, hset _, .reads rfl hhands hheard hrunning hchores hqueue rfl hrunning (.inl rfl)⟩
  | persistFailed f attempt =>
    obtain ⟨htrade, hphase, hmailbox⟩ :=
      Worker.hear_same { w with mailbox } n.settings.persistRetryLimit f attempt
    refine ⟨_, hset _, .reads rfl hhands hheard hrunning hchores ?_ htrade ?_ (.inl htrade)⟩
    · rw [hmailbox]
      exact hqueue
    · rw [hphase]
      exact hrunning

theorem Change.engine (h : Change n a m) : m.engine = n.engine := by
  cases h with
  | @chore now k w chore => cases chore <;> rfl
  | @read now k w mail mailbox => exact (n.read_same now k _ mail).1
  | _ => rfl

/-- Whatever happens, every worker there was has its turn. -/
theorem Change.turn (h : Change n a m) (hnew : n.workers.get? n.started = none)
    (hk : n.workers.get? k = some w) : ∃ w', m.workers.get? k = some w' ∧ Turn n a k w w' := by
  have hplain (ha : a.IsPlain) : n.heard k a = none ∧ n.handsIn a = [] :=
    ⟨n.heard_of_plain k ha, n.handsIn_of_plain ha⟩
  -- a new worker has a number of its own
  have hold : k ≠ n.started := by
    rintro rfl
    rw [hnew] at hk
    cases hk
  have hbegin (t : Trade) (isStored : Bool) : (n.begin t isStored).workers.get? k = some w :=
    (n.get?_setWorker n.started k _).trans ((if_neg hold).trans hk)
  cases h with
  | still ha => exact ⟨w, hk, .idle (hplain ha).1 (by simp [(hplain ha).2])⟩
  | store move ha => exact ⟨w, hk, .idle (hplain ha).1 (by simp [(hplain ha).2])⟩
  | lost => exact ⟨w, hk, .idle rfl fun _ => List.not_mem_nil⟩
  | call hk' hrunning => exact turn_of_arrival rfl rfl hk' hrunning hk
  | news ha hk' hrunning => exact turn_of_arrival (hplain ha).1 (hplain ha).2 hk' hrunning hk
  | enter ha hk' hrunning => exact turn_of_arrival (hplain ha).1 (hplain ha).2 hk' hrunning hk
  | chore hk' hrunning hchores => exact turn_of_chore hk' hrunning hchores hk
  | @read now k' w₀ mail mailbox admitted hk' hrunning hchores htake =>
    by_cases hne : k = k'
    · subst hne
      rw [hk] at hk'
      cases hk'
      exact turn_of_read hk hrunning hchores htake
    · refine ⟨w, (n.get?_read_of_ne now _ mail hne).trans hk, .idle (n.heard_of_ne (Ne.symm hne)) ?_⟩
      simp [handsIn, hk', hrunning, hchores]
  | @ended now k' w₀ hk' hrunning hchores hqueue =>
    by_cases hne : k = k'
    · subst hne
      rw [hk] at hk'
      cases hk'
      refine ⟨_, (n.get?_setWorker k k _).trans (if_pos rfl), ?_⟩
      refine .ends ?_ ?_ hrunning hchores hqueue rfl rfl hchores hqueue
      · simp [heard, hk, hqueue]
      · simp [handsIn, hk, hrunning, hchores]
    · refine ⟨w, (n.get?_setWorker k' k _).trans ((if_neg hne).trans hk),
        .idle (n.heard_of_ne (Ne.symm hne)) ?_⟩
      simp [handsIn, hk', hrunning, hchores]
  | launch hfree =>
    refine ⟨w, hbegin _ false, .idle rfl fun t ht => hold ?_⟩
    exact congrArg Prod.fst (List.mem_singleton.1 ht)
  | resume hrestore hfree => exact ⟨w, hbegin _ true, .idle rfl fun _ => List.not_mem_nil⟩
  | forget => exact ⟨w, hk, .idle rfl fun _ => List.not_mem_nil⟩

/-- Nobody else begins than the worker of a trade that was launched or resumed. -/
theorem Change.begins (h : Change n a m) (hk : n.workers.get? k = none)
    (hk' : m.workers.get? k = some w) : Begins n a k w ∧ w.phase = .running ∧ w.chores = [] := by
  -- setting a worker that there was makes nobody begin
  have hset {k' : Nat} {w₀ w₁ : Worker} (hk₀ : n.workers.get? k' = some w₀) :
      (n.setWorker k' w₁).workers.get? k = none := by
    rw [get?_setWorker, if_neg, hk]
    rintro rfl
    rw [hk] at hk₀
    cases hk₀
  have hno (hnone : m.workers.get? k = none) :
      Begins n a k w ∧ w.phase = .running ∧ w.chores = [] := by
    rw [hnone] at hk'
    cases hk'
  have hbegin {t : Trade} {isStored : Bool} (hm : m = n.begin t isStored) :
      k = n.started ∧ w.trade = t ∧ w.phase = .running ∧ w.chores = [] := by
    have hget := n.get?_setWorker n.started k
      { trade := t, mailbox := .new n.settings.mailboxCapacity.toNat }
    rw [hm] at hk'
    by_cases heq : k = n.started
    · rw [if_pos heq] at hget
      cases hk'.symm.trans hget
      exact ⟨heq, rfl, rfl, rfl⟩
    · rw [if_neg heq, hk] at hget
      cases hk'.symm.trans hget
  cases h with
  | still ha => exact hno hk
  | store move ha => exact hno hk
  | lost => exact hno hk
  | call hk₀ => exact hno (hset hk₀)
  | news ha hk₀ => exact hno (hset hk₀)
  | enter ha hk₀ => exact hno (hset hk₀)
  | @chore now k' w₀ chore chores hk₀ => exact hno (by cases chore <;> exact hset hk₀)
  | @read now k' w₀ mail mailbox admitted hk₀ =>
    have hne : k ≠ k' := by
      rintro rfl
      rw [hk] at hk₀
      cases hk₀
    exact hno ((n.get?_read_of_ne now _ mail hne).trans hk)
  | ended hk₀ => exact hno (hset hk₀)
  | launch hfree =>
    obtain ⟨hstarted, rfl, hphase, hchores⟩ := hbegin rfl
    exact ⟨.launched rfl hstarted, hphase, hchores⟩
  | resume hrestore hfree =>
    obtain ⟨hstarted, rfl, hphase, hchores⟩ := hbegin rfl
    exact ⟨.resumed rfl hrestore hstarted, hphase, hchores⟩
  | forget => exact hno hk

end Node

end PeerTrade
