import PeerTrade.Proofs.Dict
import PeerTrade.Proofs.Node.Timers
import PeerTrade.Proofs.Node.Turns

/-!
# What actions do to timers

Only a worker starts and stops timers, as the effects of its commits say, and only its own ones. A
timer that is due tells its worker, and does not give up as long as the worker reads its mailbox.
Nothing else that can happen at a node makes a difference to the deadlines that are minded
(`Node.Punctual.act`), except that a new worker minds those that are armed in its trade
(`Node.Punctual.begins`).
-/

namespace PeerTrade.Node

open DeadlineMove

variable {n n' m : Node} {a : Action} {k k' : Nat} {w w' : Worker} {id : DeadlineId}

/-! ## Ticks -/

/-- The effects that a worker carries out in an action; there is one at most. -/
def done (n : Node) (k : Nat) : Action → List Effect
  | .step _ (.worker k') => Option.toList do
    let w ← n.workers.get? k
    if k' = k ∧ w.phase = .running then w.chores.head?.bind Chore.effect? else none
  | _ => []

theorem done_of_ne {now : Time} (n : Node) (hne : k' ≠ k) :
    n.done k (.step now (.worker k')) = [] := by
  cases hk : n.workers.get? k <;> simp [done, hk, hne]

/-- What becomes of the deadlines of a worker if it makes some moves and reads some mail. -/
structure Tick (n n' : Node) (k : Nat) (moves : List DeadlineMove) (heard : Option Mail) : Prop where
  /-- There is no timer but for what has been armed, or was timed before and not touched. -/
  times : ∀ id, n'.Times k id →
    armed id ∈ moves ∨ (n.Times k id ∧ ∀ m ∈ moves, m.kind ≠ id.kind)
  arms : ∀ id, armed id ∈ moves → n'.Minds k id
  /-- Nobody goes back to work. -/
  opens : n'.IsOpen k → n.IsOpen k
  /-- What was minded and not touched is minded on, unless it is now known to have expired. -/
  minds : n'.IsOpen k → ∀ id, n.Minds k id → (∀ m ∈ moves, m.kind ≠ id.kind) →
    heard ≠ some (.alarm id) → n'.Minds k id

/-- Timers, books and lines belong together. -/
def Punctual (n : Node) : Prop := (∃ book, n.Booked book) ∧ n.Registered

/-- All deadlines are minded as before. -/
structure Steady (n n' : Node) : Prop where
  punctual : n'.Punctual
  times : ∀ k id, n'.Times k id → n.Times k id
  opens : ∀ k, n'.IsOpen k → n.IsOpen k
  minds : ∀ k id, n'.IsOpen k → n.Minds k id → n'.Minds k id

theorem Calm.punctual (h : n.Calm n') (hn : n.Punctual) : n'.Punctual := by
  obtain ⟨⟨book, hbook⟩, hregistered⟩ := hn
  exact ⟨⟨book, h.booked hbook⟩, h.registered hregistered⟩

theorem Calm.steady (h : n.Calm n') (hn : n.Punctual) : n.Steady n' :=
  ⟨h.punctual hn, fun _ _ => h.times_iff.1, fun _ => h.isOpen_iff.1, fun _ _ _ => h.minds_iff.2⟩

theorem Steady.calm (h : n.Steady m) (hcalm : m.Calm n') : n.Steady n' :=
  ⟨hcalm.punctual h.punctual, fun k id ht => h.times k id (hcalm.times_iff.1 ht),
    fun k hopen => h.opens k (hcalm.isOpen_iff.1 hopen),
    fun k id hopen hm => hcalm.minds_iff.2 (h.minds k id (hcalm.isOpen_iff.1 hopen) hm)⟩

theorem Calm.trans_steady (hcalm : n.Calm m) (h : m.Steady n') : n.Steady n' :=
  ⟨h.punctual, fun k id ht => hcalm.times_iff.1 (h.times k id ht),
    fun k hopen => hcalm.isOpen_iff.1 (h.opens k hopen),
    fun k id hopen hm => h.minds k id hopen (hcalm.minds_iff.2 hm)⟩

theorem Steady.tick (h : n.Steady n') (k : Nat) (heard : Option Mail) : n.Tick n' k [] heard where
  times id ht := .inr ⟨h.times k id ht, fun _ hm => absurd hm List.not_mem_nil⟩
  arms _ hid := absurd hid List.not_mem_nil
  opens := h.opens k
  minds hopen id hm _ _ := h.minds k id hopen hm

theorem Tick.calm {moves : List DeadlineMove} {heard : Option Mail} (h : n.Tick m k moves heard)
    (hcalm : m.Calm n') : n.Tick n' k moves heard where
  times id ht := h.times id (hcalm.times_iff.1 ht)
  arms id hid := hcalm.minds_iff.2 (h.arms id hid)
  opens hopen := h.opens (hcalm.isOpen_iff.1 hopen)
  minds hopen id hm hmoves hheard :=
    hcalm.minds_iff.2 (h.minds (hcalm.isOpen_iff.1 hopen) id hm hmoves hheard)

/-! ## Mail -/

theorem Punctual.setWorker (hn : n.Punctual) (hk : n.workers.get? k = some w)
    (htimers : w'.timers = w.timers) (hline : w'.mailbox.line ⊆ w.mailbox.line) :
    (n.setWorker k w').Punctual := by
  obtain ⟨⟨book, hbook⟩, hregistered⟩ := hn
  refine ⟨⟨book, hbook.setWorker hk (fun _ _ hi => htimers ▸ hi) fun _ _ h => .inl (hline h)⟩, ?_⟩
  exact hregistered.setWorker hk htimers

/-- One worker reads, or mail arrives there. -/
theorem tick_setWorker (k' : Nat) (hk : n.workers.get? k = some w) {heard : Option Mail}
    (hopens : w'.phase = .running → w'.mailbox.kept = true →
      w.phase = .running ∧ w.mailbox.kept = true)
    (hexpects : w'.phase = .running → ∀ id, heard ≠ some (.alarm id) → w.Expects id →
      w'.Expects id) :
    n.Tick (n.setWorker k w') k' [] (if k' = k then heard else none) where
  times id ht := .inr ⟨ht, fun _ hm => absurd hm List.not_mem_nil⟩
  arms _ hid := absurd hid List.not_mem_nil
  opens hopen := hopen.of_setWorker hk hopens
  minds hopen id hm _ hheard := by
    refine hm.setWorker hk fun heq => ?_
    obtain ⟨w'', hw'', hrunning, -⟩ := hopen
    rw [get?_setWorker, if_pos heq] at hw''
    cases hw''
    rw [if_pos heq] at hheard
    exact hexpects hrunning id hheard

theorem Punctual.steady_setWorker (hn : n.Punctual) (hk : n.workers.get? k = some w)
    (htimers : w'.timers = w.timers) (hline : w'.mailbox.line ⊆ w.mailbox.line)
    (hopens : w'.phase = .running → w'.mailbox.kept = true →
      w.phase = .running ∧ w.mailbox.kept = true)
    (hexpects : ∀ id, w.Expects id → w'.Expects id) : n.Steady (n.setWorker k w') where
  punctual := hn.setWorker hk htimers hline
  times _ _ ht := ht
  opens _ hopen := hopen.of_setWorker hk hopens
  minds _ id _ hm := hm.setWorker hk fun _ => hexpects id

/-- Mail arrives at a worker; from a timer, it is about the timer's deadline. -/
theorem Punctual.steady_offer (hn : n.Punctual) (hk : n.workers.get? k = some w) {sender : Actor}
    {mail : Mail} (hsender : ∀ i, sender = .timer i → ∃ timer, n.timers.get? i = some timer ∧
      mail = .alarm timer.id) :
    n.Steady (n.setWorker k { w with mailbox := (w.mailbox.offer sender mail).1 }) := by
  obtain ⟨⟨book, hbook⟩, hregistered⟩ := hn
  obtain ⟨hqueue, hline⟩ := w.mailbox.subset_offer sender mail
  refine ⟨⟨⟨book, ?_⟩, hregistered.setWorker hk rfl⟩, fun _ _ ht => ht, fun _ hopen => ?_,
    fun _ id _ hm => ?_⟩
  · refine hbook.setWorker hk (fun _ _ hi => hi) fun i mail' hmail => ?_
    rcases Mailbox.mem_line_offer hmail with hold | hnew
    · exact .inl hold
    · cases hnew
      obtain ⟨timer, htimer, rfl⟩ := hsender i rfl
      obtain ⟨hlt, hentry⟩ := hbook.timer i timer htimer
      exact .inr ⟨hlt, by rw [hentry]⟩
  · exact hopen.of_setWorker hk fun hrunning hkept =>
      ⟨hrunning, (Mailbox.kept_offer ..).symm.trans hkept⟩
  · exact hm.setWorker hk fun _ h =>
      h.imp (fun hread => hqueue hread) fun ⟨i, hwaits⟩ => ⟨i, hline hwaits⟩

theorem Punctual.steady_deliver (hn : n.Punctual) (k : Nat) (sender : Actor) (mail : Mail)
    (hsender : ∀ i, sender ≠ .timer i) :
    n.Steady (n.deliver k sender mail).1 := by
  rcases n.deliver_cases k sender mail with ⟨heq, -⟩ | ⟨w, woken, hk, -, heq⟩
  · rw [heq]
    exact Calm.steady ⟨rfl, rfl, rfl⟩ hn
  · rw [heq]
    exact (hn.steady_offer hk fun i hi => absurd hi (hsender i)).calm ⟨rfl, rfl, rfl⟩

/-- Whoever is admitted enters with its own mail, and a timer has news of one deadline only. -/
theorem Booked.expects_enter {book : Nat → Nat × DeadlineId} (hbook : n.Booked book)
    (hk : n.workers.get? k = some w) {sender : Actor} {mailbox : Mailbox Actor Mail}
    (henter : w.mailbox.enter sender = some mailbox) (h : w.Expects id) :
    Worker.Expects { w with mailbox } id := by
  obtain ⟨hqueue, -, hothers, mail, hown, hplaced⟩ := Mailbox.enter_line henter
  rcases h with hread | ⟨i, hwaits⟩
  · exact .inl (hqueue hread)
  · by_cases hsender : sender = .timer i
    · -- what it waited in line with now lies in the mailbox
      subst hsender
      obtain ⟨-, hmail⟩ := hbook.lined k w i _ hk hwaits
      obtain ⟨-, hown⟩ := hbook.lined k w i _ hk hown
      exact .inl (by rw [hmail, ← hown]; exact hplaced)
    · exact .inr ⟨i, hothers _ hwaits (Ne.symm hsender)⟩

theorem Punctual.steady_enter (hn : n.Punctual) (k : Nat) (sender : Actor) :
    n.Steady (n.enter k sender).1 := by
  rcases n.enter_cases k sender with ⟨heq, -⟩ | ⟨w, mailbox, woken, hk, -, henter, heq⟩
  · rw [heq]
    exact Calm.steady ⟨rfl, rfl, rfl⟩ hn
  · obtain ⟨⟨book, hbook⟩, -⟩ := id hn
    obtain ⟨-, hline, -⟩ := Mailbox.enter_line henter
    have hset : n.Steady (n.setWorker k { w with mailbox }) :=
      hn.steady_setWorker hk rfl hline
        (fun hrunning hkept => ⟨hrunning, (Mailbox.kept_enter henter).symm.trans hkept⟩)
        fun _ => hbook.expects_enter hk henter
    rw [heq]
    exact hset.calm ⟨rfl, rfl, rfl⟩

theorem Punctual.steady_release (hn : n.Punctual) (k : Nat) : n.Steady (n.release k) := by
  unfold release
  split
  · exact Calm.steady ⟨rfl, rfl, rfl⟩ hn
  next w hw =>
    have hset : n.Steady (n.setWorker k { w with mailbox := { w.mailbox with kept := false } }) :=
      hn.steady_setWorker hw rfl (List.Subset.refl _) (fun _ hkept => nomatch hkept) fun _ h => h
    exact hset.calm ⟨rfl, rfl, rfl⟩

theorem Punctual.steady_stepReporter (hn : n.Punctual) {number : Nat}
    (h : n.stepReporter number = some n') : n.Steady n' := by
  obtain ⟨r, -, ⟨-, rfl⟩ | ⟨f, m, delivery, -, hpassed, hdone⟩⟩ := stepReporter_cases h
  · exact Calm.steady ⟨rfl, rfl, rfl⟩ hn
  · have hm : _ = m := congrArg Prod.fst hpassed
    have hsteady : n.Steady m := by
      rw [← hm]
      split
      · exact hn.steady_enter _ _
      · unfold deliverIfReachable
        split
        · exact hn.steady_deliver _ _ _ nofun
        · exact Calm.steady ⟨rfl, rfl, rfl⟩ hn
    -- what follows concerns the reporter alone
    rcases hdone with ⟨-, rfl⟩ | ⟨-, -, rfl⟩ <;> exact hsteady.calm ⟨rfl, rfl, rfl⟩

/-! ## Timers -/

theorem Punctual.timers (hn : n.Punctual) {timers : Dict Nat Timer}
    (htimers : ∀ i timer, timers.get? i = some timer →
      ∃ before, n.timers.get? i = some before ∧ timer.worker = before.worker ∧
        timer.id = before.id) : Punctual { n with timers } := by
  obtain ⟨⟨book, hbook⟩, hregistered⟩ := hn
  exact ⟨⟨book, hbook.timers htimers⟩, hregistered.timers htimers⟩

/-- A timer is done with once its deadline is minded otherwise, or the worker is not there for it.
-/
theorem Steady.timerDone (h : n.Steady m) {number : Nat} {timer : Timer}
    (htimer : m.timers.get? number = some timer)
    (hminded : m.IsOpen timer.worker → timer.sending = false →
      ∃ w, m.workers.get? timer.worker = some w ∧ w.Expects timer.id) :
    n.Steady { m with timers := m.timers.erase number } where
  punctual := h.punctual.timers fun i timer htimer =>
    ⟨timer, (of_get?_erase_timer htimer).2, rfl, rfl⟩
  times k id := by
    rintro ⟨i, timer, htimer, hworker, hid⟩
    exact h.times k id ⟨i, timer, (of_get?_erase_timer htimer).2, hworker, hid⟩
  opens k hopen := h.opens k hopen
  minds k id hopen hm := by
    rcases h.minds k id hopen hm with ⟨i, timer', htimer', hworker, hid, hruns⟩ | hexpects
    · by_cases hi : i = number
      · rw [hi, htimer] at htimer'
        cases htimer'
        rw [← hworker] at hopen
        rw [← hworker, ← hid]
        exact .inr (hminded hopen hruns)
      · exact .inl ⟨i, timer', (m.get?_erase_timer number i).trans ((if_neg hi).trans htimer'),
          hworker, hid, hruns⟩
    · exact .inr hexpects

/-- A timer waits in line with its news. -/
theorem Steady.timerWaits (h : n.Steady m) {number : Nat} {timer : Timer}
    (htimer : m.timers.get? number = some timer)
    (hminded : ∃ w, m.workers.get? timer.worker = some w ∧ w.Expects timer.id) :
    n.Steady { m with timers := m.timers.insert number { timer with sending := true } } := by
  have hinsert (i : Nat) : (m.timers.insert number { timer with sending := true }).get? i =
      if i = number then some { timer with sending := true } else m.timers.get? i := by
    simp [Dict.get?_insert]
  have hbefore (i : Nat) (timer' : Timer)
      (htimer' : (m.timers.insert number { timer with sending := true }).get? i = some timer') :
      ∃ before, m.timers.get? i = some before ∧ timer'.worker = before.worker ∧
        timer'.id = before.id := by
    rw [hinsert] at htimer'
    split at htimer'
    next heq =>
      cases htimer'
      exact ⟨timer, heq ▸ htimer, rfl, rfl⟩
    next => exact ⟨timer', htimer', rfl, rfl⟩
  refine ⟨h.punctual.timers hbefore, ?_, fun k hopen => h.opens k hopen, fun k id hopen hm => ?_⟩
  · rintro k id ⟨i, timer', htimer', hworker, hid⟩
    obtain ⟨before, hbefore, hworker', hid'⟩ := hbefore i timer' htimer'
    exact h.times k id ⟨i, before, hbefore, hworker'.symm.trans hworker, hid'.symm.trans hid⟩
  · rcases h.minds k id hopen hm with ⟨i, timer', htimer', hworker, hid, hruns⟩ | hexpects
    · by_cases hi : i = number
      · rw [hi, htimer] at htimer'
        cases htimer'
        rw [← hworker, ← hid]
        exact .inr hminded
      · exact .inl ⟨i, timer', (hinsert i).trans ((if_neg hi).trans htimer'), hworker, hid, hruns⟩
    · exact .inr hexpects

theorem deliverIfReachable_cases (n : Node) (k : Nat) (sender : Actor) (mail : Mail) :
    (n.deliverIfReachable k sender mail = (n, .refused) ∧ ¬n.IsOpen k) ∨
      n.deliverIfReachable k sender mail = n.deliver k sender mail := by
  unfold deliverIfReachable
  split
  · exact .inr rfl
  next hunreachable =>
    refine .inl ⟨rfl, ?_⟩
    rintro ⟨w, hk, -, hkept⟩
    exact hunreachable (by simp [hk, Mailbox.isReachable, hkept])

/-- The news of a timer in line have been placed, or the worker is not there for them. -/
theorem Punctual.steady_entered (hn : n.Punctual) {number : Nat} {timer : Timer}
    (htimer : n.timers.get? number = some timer) (hsending : timer.sending = true) :
    let m := (n.enter timer.worker (.timer number)).1
    n.Steady { m with timers := m.timers.erase number } := by
  have hsteady := hn.steady_enter timer.worker (.timer number)
  have htimers : (n.enter timer.worker (.timer number)).1.timers = n.timers := by
    rcases n.enter_cases timer.worker (.timer number) with
      ⟨heq, -⟩ | ⟨w, mailbox, woken, -, -, -, heq⟩
    · rw [heq]
    · rw [heq]
      rfl
  refine hsteady.timerDone (htimers ▸ htimer) fun _ hruns => ?_
  rw [hsending] at hruns
  cases hruns

/-- The news of a timer that is due are placed or wait in line, unless nobody is there to hear
them. -/
theorem Punctual.steady_told (hn : n.Punctual) {number : Nat} {timer : Timer}
    (htimer : n.timers.get? number = some timer) :
    let told := n.deliverIfReachable timer.worker (.timer number) (.alarm timer.id)
    (told.2 ≠ .waiting → n.Steady { told.1 with timers := told.1.timers.erase number }) ∧
      (told.2 = .waiting → n.Steady { told.1 with
        timers := told.1.timers.insert number { timer with sending := true } }) := by
  intro told
  -- a worker that reads its mailbox does not refuse news
  have hrefused (hclosed : ¬n.IsOpen timer.worker) :
      n.Steady { n with timers := n.timers.erase number } :=
    (Calm.steady ⟨rfl, rfl, rfl⟩ hn).timerDone htimer fun hopen => absurd hopen hclosed
  rcases n.deliverIfReachable_cases timer.worker (.timer number) (.alarm timer.id) with
    ⟨heq, hclosed⟩ | heq
  · rw [show told = _ from heq]
    exact ⟨fun _ => hrefused hclosed, fun hwaits => by cases hwaits⟩
  rcases n.deliver_cases timer.worker (.timer number) (.alarm timer.id) with
    ⟨heq', hstopped⟩ | ⟨w, woken, hk, -, heq'⟩
  · rw [show told = _ from heq.trans heq']
    refine ⟨fun _ => hrefused ?_, fun hwaits => by cases hwaits⟩
    rintro ⟨w, hk, hrunning, -⟩
    exact hstopped w hk hrunning
  · rw [show told = _ from heq.trans heq']
    have hoffered : n.Steady { n.setWorker timer.worker { w with
        mailbox := (w.mailbox.offer (.timer number) (.alarm timer.id)).1 } with woken } := by
      refine (hn.steady_offer hk fun i hi => ?_).calm ⟨rfl, rfl, rfl⟩
      cases hi
      exact ⟨timer, htimer, rfl⟩
    have hexpects (h : Worker.Expects { w with
        mailbox := (w.mailbox.offer (.timer number) (.alarm timer.id)).1 } timer.id) :
        ∃ w', (n.setWorker timer.worker { w with
          mailbox := (w.mailbox.offer (.timer number) (.alarm timer.id)).1 }).workers.get?
            timer.worker = some w' ∧ w'.Expects timer.id :=
      ⟨_, (get?_setWorker ..).trans (if_pos rfl), h⟩
    rcases w.mailbox.delivered_or_waiting (.timer number) (.alarm timer.id) with
      ⟨hresult, hplaced⟩ | ⟨hresult, hwaits⟩
    · refine ⟨fun _ => ?_, fun hwaits => ?_⟩
      · exact hoffered.timerDone htimer fun _ _ => hexpects (.inl hplaced)
      · rw [hresult] at hwaits
        cases hwaits
    · refine ⟨fun hplaced => absurd hresult hplaced, fun _ => ?_⟩
      exact hoffered.timerWaits htimer (hexpects (.inr ⟨number, hwaits⟩))

/-- A timer that is due tells its worker, and minds its deadline until it has. -/
theorem Punctual.steady_stepTimer (hn : n.Punctual) {now : Time} {number : Nat}
    (h : n.stepTimer now number = some n') : n.Steady n' := by
  obtain ⟨timer, m, delivery, htimer, hpassed, hdone⟩ := stepTimer_cases h
  cases hsending : timer.sending with
  | true =>
    rw [hsending, if_pos rfl] at hpassed
    rcases hdone with ⟨-, rfl⟩ | ⟨-, hnot, -⟩
    · have hentered := hn.steady_entered htimer hsending
      rwa [hpassed] at hentered
    · rw [hsending] at hnot
      cases hnot
  | false =>
    rw [hsending, if_neg Bool.false_ne_true] at hpassed
    obtain ⟨hplaced, hwaits⟩ := hn.steady_told htimer
    rw [Mail.alarm, hpassed] at hplaced hwaits
    rcases hdone with ⟨hdelivered, rfl⟩ | ⟨hwaiting, -, rfl⟩
    · exact hplaced hdelivered
    · exact hwaits hwaiting

/-! ## Workers -/

theorem Tick.of_before {moves : List DeadlineMove} {heard : Option Mail}
    (h : m.Tick n' k moves heard) (htimes : ∀ id, m.Times k id → n.Times k id)
    (hopens : m.IsOpen k → n.IsOpen k) (hminds : ∀ id, n.Minds k id → m.Minds k id) :
    n.Tick n' k moves heard where
  times id ht := (h.times id ht).imp_right fun ⟨hbefore, hmoves⟩ => ⟨htimes id hbefore, hmoves⟩
  arms := h.arms
  opens hopen := hopens (h.opens hopen)
  minds hopen id hm := h.minds hopen id (hminds id hm)

theorem forall_kind_ne_iff {move : DeadlineMove} :
    (∀ m ∈ (if k' = k then [move] else []), m.kind ≠ id.kind) ↔
      (k' = k → id.kind ≠ move.kind) := by
  split
  next heq => simp [heq, eq_comm]
  next hne => simp [hne]

theorem Punctual.tick_startTimer (hn : n.Punctual) (now : Time) (id : DeadlineId) (after : Duration)
    (hk : n.workers.get? k = some w) :
    (n.startTimer now k id after).Punctual ∧ ∀ k',
      n.Tick (n.startTimer now k id after) k' (if k' = k then [armed id] else []) none := by
  obtain ⟨⟨book, hbook⟩, hregistered⟩ := hn
  obtain ⟨hbook', hregistered', hnew, htimes, hopens, hminds⟩ :=
    hbook.startTimer hregistered now id after hk
  refine ⟨⟨hbook', hregistered'⟩, fun k' =>
    ⟨fun id' ht => ?_, fun id' hid => ?_, hopens k', ?_⟩⟩
  · rcases htimes k' id' ht with ⟨rfl, rfl⟩ | ⟨hbefore, hother⟩
    · exact .inl (by simp)
    · exact .inr ⟨hbefore, forall_kind_ne_iff.2 hother⟩
  · split at hid
    next heq =>
      cases List.mem_singleton.1 hid
      exact heq ▸ hnew
    next => cases hid
  · exact fun _ id' hm hmoves _ => hminds k' id' hm (forall_kind_ne_iff.1 hmoves)

theorem Punctual.tick_stopTimer (hn : n.Punctual) (k : Nat) (kind : DeadlineKind) :
    (n.stopTimer k kind).Punctual ∧ ∀ k',
      n.Tick (n.stopTimer k kind) k' (if k' = k then [cleared kind] else []) none := by
  obtain ⟨⟨book, hbook⟩, hregistered⟩ := hn
  refine ⟨⟨⟨book, hbook.stopTimer k kind⟩, hregistered.stopTimer k kind⟩, fun k' =>
    ⟨fun id ht => ?_, fun id hid => ?_, fun hopen => hopen.of_stopTimer,
      fun _ id hm hmoves _ => ?_⟩⟩
  · obtain ⟨hbefore, hother⟩ := hregistered.times_of_stopTimer ht
    exact .inr ⟨hbefore, forall_kind_ne_iff.2 hother⟩
  · split at hid
    · cases List.mem_singleton.1 hid
    · cases hid
  · exact hm.stopTimer hbook (forall_kind_ne_iff.1 hmoves)

/-- A chore that neither starts nor stops a timer leaves all of them alone. -/
theorem calm_perform (n : Node) (now : Time) (k : Nat) (t : Trade) {chore : Chore}
    (h : Effect.moves chore.effect?.toList = []) : n.Calm (n.perform now k t chore) := by
  cases chore with
  | startTimer id after => cases h
  | stopTimer kind => cases h
  | persist attempt => exact ⟨rfl, rfl, rfl⟩
  | post happening => exact ⟨rfl, rfl, rfl⟩
  | send message =>
    show n.Calm (n.send t message)
    unfold send
    split <;> exact ⟨rfl, rfl, rfl⟩
  | answer caller outcome => exact ⟨rfl, rfl, rfl⟩

theorem Punctual.tick_perform (hn : n.Punctual) (now : Time) (hk : n.workers.get? k = some w)
    (t : Trade) (chore : Chore) :
    (n.perform now k t chore).Punctual ∧ ∀ k', n.Tick (n.perform now k t chore) k'
      (if k' = k then Effect.moves chore.effect?.toList else []) none := by
  have hcalm (h : Effect.moves chore.effect?.toList = []) :
      (n.perform now k t chore).Punctual ∧ ∀ k', n.Tick (n.perform now k t chore) k'
        (if k' = k then Effect.moves chore.effect?.toList else []) none := by
    have hsteady := (n.calm_perform now k t h).steady hn
    refine ⟨hsteady.punctual, fun k' => ?_⟩
    rw [h, ite_self]
    exact hsteady.tick k' none
  cases chore with
  | startTimer id after => exact hn.tick_startTimer now id after hk
  | stopTimer kind => exact hn.tick_stopTimer k kind
  | persist attempt => exact hcalm rfl
  | post happening => exact hcalm rfl
  | send message => exact hcalm rfl
  | answer caller outcome => exact hcalm rfl

/-- A worker does a chore. -/
theorem Punctual.tick_chore (hn : n.Punctual) (now : Time) (hk : n.workers.get? k = some w)
    (chore : Chore) (chores : List Chore) :
    ((n.setWorker k { w with chores }).perform now k w.trade chore).Punctual ∧ ∀ k',
      n.Tick ((n.setWorker k { w with chores }).perform now k w.trade chore) k'
        (if k' = k then Effect.moves chore.effect?.toList else []) none := by
  -- crossing the chore off the list is nothing to the timers
  have hset : n.Steady (n.setWorker k { w with chores }) :=
    hn.steady_setWorker hk rfl (List.Subset.refl _) (fun hrunning hkept => ⟨hrunning, hkept⟩)
      fun _ h => h
  obtain ⟨hpunctual, htick⟩ :=
    hset.punctual.tick_perform now ((get?_setWorker ..).trans (if_pos rfl)) w.trade chore
  refine ⟨hpunctual, fun k' => ?_⟩
  exact (htick k').of_before (fun _ ht => ht) (hset.opens k') fun _ hm =>
    hm.setWorker hk fun _ h => h

/-- Whoever waits for a worker that breaks down is told so, and its timers run on. -/
theorem calm_breakDown (n : Node) (k : Nat) (w : Worker) (caller : Option Nat) :
    Calm (n.setWorker k { w with
      phase := .broken
      mailbox := { w.mailbox with queue := [], waiting := [], admitted := [] } })
      (n.breakDown k w caller) := by
  have hfold : ∀ (lost : List Nat) (n : Node),
      n.Calm (lost.foldl (fun n c => n.reply c .stopped) n) := by
    intro lost
    induction lost with
    | nil => exact fun n => ⟨rfl, rfl, rfl⟩
    | cons c rest ih =>
      intro n
      obtain ⟨htimers, htimed, hworkers⟩ := ih (n.reply c .stopped)
      exact ⟨htimers, htimed, hworkers⟩
  obtain ⟨htimers, htimed, hworkers⟩ := hfold (caller.toList ++ w.mailbox.queue.filterMap
    Mail.caller?) (n.setWorker k { w with
      phase := .broken
      mailbox := { w.mailbox with queue := [], waiting := [], admitted := [] } })
  exact ⟨htimers, htimed, hworkers⟩

/-- A worker reads a mail, or breaks down over it. -/
theorem Punctual.tick_read (hn : n.Punctual) (now : Time) (hk : n.workers.get? k = some w)
    {mail : Mail} {mailbox : Mailbox Actor Mail} {admitted : Option Actor}
    (hrunning : w.phase = .running) (htake : w.mailbox.take = some (mail, mailbox, admitted)) :
    (n.read now k { w with mailbox } mail).Punctual ∧ ∀ k',
      n.Tick (n.read now k { w with mailbox } mail) k' []
        (if k' = k then if n.breaksOn w.trade mail then none else some mail else none) := by
  obtain ⟨hqueue, hline⟩ := Mailbox.take_eq htake
  -- all mail but the one that is read stays where it is
  have hset (w' : Worker) (htimers : w'.timers = w.timers) (hmailbox : w'.mailbox = mailbox) :
      (n.setWorker k w').Punctual ∧ ∀ k',
        n.Tick (n.setWorker k w') k' [] (if k' = k then some mail else none) := by
    refine ⟨hn.setWorker hk htimers (by rw [hmailbox, hline]; exact List.Subset.refl _), fun k' => ?_⟩
    refine tick_setWorker k' hk (fun _ hkept => ?_) fun _ id hheard h => ?_
    · rw [hmailbox, Mailbox.kept_take htake] at hkept
      exact ⟨hrunning, hkept⟩
    rw [Worker.Expects, hmailbox, hline]
    refine h.imp_left fun hread => ?_
    rw [hqueue] at hread
    rcases List.mem_cons.1 hread with rfl | hread
    · exact absurd rfl hheard
    · exact hread
  cases mail with
  | event e caller =>
    rw [read, breaksOn]
    split
    next =>
      have hcalm := n.calm_breakDown k { w with mailbox } caller
      have hbroken (w' : Worker) (hphase : w'.phase = .broken) (k' : Nat) :
          n.Tick (n.setWorker k w') k' [] (if k' = k then none else none) := by
        have hstopped : w'.phase ≠ .running := by rw [hphase]; decide
        exact tick_setWorker k' hk (fun hrunning => absurd hrunning hstopped)
          fun hrunning => absurd hrunning hstopped
      refine ⟨hcalm.punctual (hn.setWorker hk rfl (List.nil_subset _)), fun k' => ?_⟩
      exact (hbroken _ rfl k').calm hcalm
    next => exact hset _ rfl rfl
  | inspect c =>
    obtain ⟨hpunctual, htick⟩ := hset { w with mailbox } rfl rfl
    have hcalm : Calm (n.setWorker k { w with mailbox })
        (n.read now k { w with mailbox } (.inspect c)) := ⟨rfl, rfl, rfl⟩
    exact ⟨hcalm.punctual hpunctual, fun k' => (htick k').calm hcalm⟩
  | persistFailed f attempt =>
    obtain ⟨-, -, hmailbox⟩ :=
      Worker.hear_same { w with mailbox } n.settings.persistRetryLimit f attempt
    refine hset _ ?_ hmailbox
    unfold Worker.hear
    split <;> rfl

/-- Taking timers of one worker away is nothing to the others. -/
theorem Booked.cancelTimers {book : Nat → Nat × DeadlineId} (hbook : n.Booked book)
    (hregistered : n.Registered) {numbers : List Nat} (howned : ∀ i ∈ numbers, (book i).1 = k) :
    let n' := numbers.foldl Node.cancelTimer n
    n'.Booked book ∧ n'.Registered ∧ (∀ k' id, n'.Times k' id → n.Times k' id) ∧
      (∀ k', n'.IsOpen k' → n.IsOpen k') ∧ ∀ k' id, k' ≠ k → n.Minds k' id → n'.Minds k' id := by
  induction numbers generalizing n with
  | nil =>
    exact ⟨hbook, hregistered, fun _ _ ht => ht, fun _ hopen => hopen, fun _ _ _ hm => hm⟩
  | cons i rest ih =>
    obtain ⟨hbook', hregistered', htimes, hopens, hminds⟩ := ih (hbook.cancelTimer i)
      (hregistered.cancelTimer i) fun i' hi' => howned i' (List.mem_cons_of_mem _ hi')
    refine ⟨hbook', hregistered', fun k' id ht => (htimes k' id ht).of_cancelTimer,
      fun k' hopen => (hopens k' hopen).of_cancelTimer, fun k' id hne hm => hminds k' id hne ?_⟩
    refine hm.cancelTimer hbook fun timer htimer hworker => ?_
    obtain ⟨-, hentry⟩ := hbook.timer i timer htimer
    have howner := howned i List.mem_cons_self
    rw [hentry] at howner
    exact absurd (hworker.symm.trans howner) hne

/-- A worker ends, which concerns no timers but its own. -/
theorem Punctual.tick_retire (hn : n.Punctual) (hk : n.workers.get? k = some w) :
    (n.retire k w).Punctual ∧ ∀ k', n.Tick (n.retire k w) k' [] none := by
  obtain ⟨⟨book, hbook⟩, hregistered⟩ := hn
  have hset : (n.setWorker k { w with phase := .ended }).Booked book :=
    hbook.setWorker hk (fun _ _ hi => hi) fun _ _ h => .inl h
  have howned : ∀ i ∈ w.timers.values, (book i).1 = k := by
    intro i hi
    obtain ⟨⟨kind, i⟩, hentry, rfl⟩ := List.mem_map.1 hi
    exact (hbook.listed k w kind i hk (Dict.get?_eq_some_iff.2 hentry)).2.1
  obtain ⟨hbook', hregistered', htimes, hopens, hminds⟩ :=
    hset.cancelTimers (hregistered.setWorker hk rfl) howned
  refine ⟨⟨⟨book, hbook'⟩, hregistered'⟩, fun k' => ⟨fun id ht => ?_,
    fun _ hid => absurd hid List.not_mem_nil, fun hopen => ?_,
    fun hopen id hm _ _ => hminds k' id ?_ ?_⟩⟩
  · exact .inr ⟨htimes k' id ht, fun _ hm => absurd hm List.not_mem_nil⟩
  · exact (hopens k' hopen).of_setWorker hk fun hrunning => nomatch hrunning
  · rintro rfl
    -- the worker itself does not run any more
    obtain ⟨w', hk', hrunning, -⟩ := hopen
    have hstill : Still (n.setWorker k' { w with phase := .ended }) (n.retire k' w) :=
      still_foldl still_cancelTimer _ _
    obtain ⟨w'', hk'', hw⟩ := hstill.present k' _ ((get?_setWorker ..).trans (if_pos rfl))
    cases hk'.symm.trans hk''
    exact absurd (hw.phase.symm.trans hrunning) nofun
  · exact hm.setWorker hk fun _ h => h

/-- A step of a worker is nothing to the others. -/
theorem tick_of_self {now : Time} {moves : List DeadlineMove} {heard : Option Mail}
    (hdone : Effect.moves (n.done k (.step now (.worker k))) = moves)
    (hheard : (n.heard k (.step now (.worker k))).map (·.2) = heard)
    (htick : ∀ k', n.Tick n' k' (if k' = k then moves else []) (if k' = k then heard else none))
    (k' : Nat) :
    n.Tick n' k' (Effect.moves (n.done k' (.step now (.worker k))))
      ((n.heard k' (.step now (.worker k))).map (·.2)) := by
  have hself := htick k'
  by_cases heq : k' = k
  · subst heq
    rw [if_pos rfl, if_pos rfl] at hself
    rw [hdone, hheard]
    exact hself
  · rw [if_neg heq, if_neg heq] at hself
    rw [n.done_of_ne (Ne.symm heq), n.heard_of_ne (Ne.symm heq)]
    exact hself

theorem Punctual.tick_stepWorker (hn : n.Punctual) {now : Time}
    (h : n.stepWorker now k = some n') : n'.Punctual ∧ ∀ k',
      n.Tick n' k' (Effect.moves (n.done k' (.step now (.worker k))))
        ((n.heard k' (.step now (.worker k))).map (·.2)) := by
  unfold stepWorker at h
  obtain ⟨w, hk, h⟩ := Option.bind_eq_some_iff.1 h
  split at h
  · cases h
  next hrunning =>
    have hrunning : w.phase = .running := Decidable.not_not.1 hrunning
    split at h
    next chore chores hchores =>
      cases h
      have hdone : n.done k (.step now (.worker k)) = chore.effect?.toList := by
        simp [done, hk, hrunning, hchores]
      have hheard : n.heard k (.step now (.worker k)) = none := by simp [heard, hk, hchores]
      obtain ⟨hpunctual, htick⟩ := hn.tick_chore now hk chore chores
      refine ⟨hpunctual, tick_of_self (congrArg _ hdone) (congrArg _ hheard) fun k' => ?_⟩
      rw [Option.map_none, ite_self]
      exact htick k'
    next hchores =>
      have hdone : n.done k (.step now (.worker k)) = [] := by simp [done, hk, hchores]
      split at h
      next mail mailbox admitted htake =>
        cases h
        have hheard : (n.heard k (.step now (.worker k))).map (·.2) =
            if n.breaksOn w.trade mail then none else some mail := by
          rw [heard_eq now hk hrunning hchores (Mailbox.take_eq htake).1]
          split <;> rfl
        obtain ⟨hpunctual, htick⟩ := hn.tick_read now hk hrunning htake
        have hcalm : Calm (n.read now k { w with mailbox } mail)
            ((n.read now k { w with mailbox } mail).wake admitted.toList) := ⟨rfl, rfl, rfl⟩
        refine ⟨hcalm.punctual hpunctual, tick_of_self (congrArg _ hdone) hheard fun k' => ?_⟩
        rw [show Effect.moves [] = [] from rfl, ite_self]
        exact (htick k').calm hcalm
      next htake =>
        split at h
        · cases h
        · cases h
          have hheard : n.heard k (.step now (.worker k)) = none := by
            simp [heard, hk, Mailbox.queue_of_take_eq_none htake]
          obtain ⟨hpunctual, htick⟩ := hn.tick_retire hk
          refine ⟨hpunctual, tick_of_self (congrArg _ hdone) (congrArg _ hheard) fun k' => ?_⟩
          rw [show Effect.moves [] = [] from rfl, Option.map_none, ite_self, ite_self]
          exact htick k'

/-! ## Beginning -/

/-- Deadlines of different kinds, one timer for each. -/
theorem Punctual.startTimers (hn : n.Punctual) (now : Time) (hk : n.workers.get? k = some w)
    (deadlines : List Deadline) :
    let n' := deadlines.foldl
      (fun n d => n.startTimer now k d.id (d.expiresAt.remaining now.date)) n
    n'.Punctual ∧ (deadlines.Pairwise (fun d d' => d.id.kind ≠ d'.id.kind) →
        ∀ d ∈ deadlines, n'.Minds k d.id) ∧
      (∀ k', n'.IsOpen k' → n.IsOpen k') ∧
      (∀ k' id, n'.Times k' id → (k' = k ∧ ∃ d ∈ deadlines, d.id = id) ∨ n.Times k' id) ∧
      ∀ k' id, n.Minds k' id → (k' = k → ∀ d ∈ deadlines, d.id.kind ≠ id.kind) → n'.Minds k' id := by
  induction deadlines generalizing n w with
  | nil =>
    exact ⟨hn, fun _ d hd => absurd hd List.not_mem_nil, fun _ hopen => hopen,
      fun _ _ ht => .inr ht, fun _ _ hm _ => hm⟩
  | cons d rest ih =>
    -- the timer that is started first is left alone by those of other kinds
    obtain ⟨⟨book, hbook⟩, hregistered⟩ := hn
    let after := d.expiresAt.remaining now.date
    obtain ⟨hbook', hregistered', hnew, htimes, hopens, hminds⟩ :=
      hbook.startTimer hregistered now d.id after hk
    obtain ⟨w', hk', -⟩ := (n.still_startTimer now k d.id after).present k w hk
    obtain ⟨hpunctual, hall, hopens', htimes', hminds'⟩ := ih ⟨hbook', hregistered'⟩ hk'
    refine ⟨hpunctual, fun hkinds d' hd' => ?_, fun k' hopen => hopens k' (hopens' k' hopen),
      fun k' id ht => ?_, fun k' id hm hkind => ?_⟩
    · obtain ⟨hfirst, hrest⟩ := List.pairwise_cons.1 hkinds
      rcases List.mem_cons.1 hd' with rfl | hd'
      · exact hminds' k _ hnew fun _ d'' hd'' => Ne.symm (hfirst d'' hd'')
      · exact hall hrest d' hd'
    · rcases htimes' k' id ht with ⟨heq, d', hd', hid⟩ | ht
      · exact .inl ⟨heq, d', List.mem_cons_of_mem _ hd', hid⟩
      · rcases htimes k' id ht with ⟨heq, hid⟩ | ⟨ht, -⟩
        · exact .inl ⟨heq, d, List.mem_cons_self, hid.symm⟩
        · exact .inr ht
    · refine hminds' k' id (hminds k' id hm fun heq => ?_) fun heq d' hd' => ?_
      · exact (hkind heq d List.mem_cons_self).symm
      · exact hkind heq d' (List.mem_cons_of_mem _ hd')

/-- A worker that has just begun has started no timer yet. -/
theorem Punctual.begin (hn : n.Punctual) (hnew : n.workers.get? n.started = none) (w : Worker)
    (htimers : w.timers = {}) (hline : w.mailbox.line = []) :
    (n.setWorker n.started w).Punctual ∧ (∀ id, ¬(n.setWorker n.started w).Times n.started id) ∧
      ∀ k id, k ≠ n.started → n.Minds k id → (n.setWorker n.started w).Minds k id := by
  obtain ⟨⟨book, hbook⟩, hregistered⟩ := hn
  refine ⟨⟨⟨book, hbook.timer, fun k' w' kind i hk' hi => ?_, fun k' w' i mail hk' hmail => ?_⟩,
    fun i timer htimer => ?_⟩, ?_, fun k id hne hm => ?_⟩
  · rw [get?_setWorker] at hk'
    split at hk'
    · cases hk'
      rw [htimers] at hi
      cases hi
    · exact hbook.listed k' w' kind i hk' hi
  · rw [get?_setWorker] at hk'
    split at hk'
    · cases hk'
      rw [hline] at hmail
      cases hmail
    · exact hbook.lined k' w' i mail hk' hmail
  · obtain ⟨w', hk', hi⟩ := hregistered i timer htimer
    have hne : timer.worker ≠ n.started := by
      intro heq
      rw [heq, hnew] at hk'
      cases hk'
    exact ⟨w', (get?_setWorker ..).trans ((if_neg hne).trans hk'), hi⟩
  · rintro id ⟨i, timer, htimer, hworker, -⟩
    obtain ⟨w', hk', -⟩ := hregistered i timer htimer
    rw [hworker, hnew] at hk'
    cases hk'
  · rcases hm with hruns | ⟨w', hk', hexpects⟩
    · exact .inl hruns
    · exact .inr ⟨w', (get?_setWorker ..).trans ((if_neg hne).trans hk'), hexpects⟩

/-- A new worker starts its timers before anything else happens. -/
theorem exists_foldl_of_start {now : Time} {t : Trade} {isStored : Bool}
    (h : n.start now t isStored = .ok n') :
    ∃ m, Calm (n.setWorker n.started
        { trade := t, mailbox := .new n.settings.mailboxCapacity.toNat }) m ∧
      Calm (t.deadlines.values.foldl
        (fun m d => m.startTimer now n.started d.id (d.expiresAt.remaining now.date)) m) n' := by
  unfold start at h
  split at h
  · cases h
  · cases h
    refine ⟨_, ?_, ⟨rfl, rfl, rfl⟩⟩
    cases isStored <;> exact ⟨rfl, rfl, rfl⟩

/-- There is one armed deadline of a kind. -/
theorem pairwise_values {t : Trade} (hkeyed : ∀ k id, t.liveId? k = some id → id.kind = k) :
    t.deadlines.values.Pairwise fun d d' => d.id.kind ≠ d'.id.kind := by
  have hkind {e : DeadlineKind × Deadline} (he : e ∈ t.deadlines.entries) : e.2.id.kind = e.1 :=
    hkeyed e.1 e.2.id (Trade.liveId?_of_mem_entries he)
  have hkeys := List.pairwise_map.1 t.deadlines.nodup_keys
  refine List.pairwise_map.2 (hkeys.imp_of_mem fun {e e'} he he' hne => ?_)
  rwa [hkind he, hkind he']

theorem Punctual.start (hn : n.Punctual) (hnew : n.workers.get? n.started = none) {now : Time}
    {t : Trade} {isStored : Bool} (h : n.start now t isStored = .ok n') :
    n'.Punctual ∧ (∀ k heard, k ≠ n.started → n.Tick n' k [] heard) ∧
      ((∀ k id, t.liveId? k = some id → id.kind = k) →
        (∀ id, n'.Times n.started id → t.liveId? id.kind = some id) ∧
          ∀ id, t.liveId? id.kind = some id → n'.Minds n.started id) := by
  obtain ⟨m, hbegin, hend⟩ := exists_foldl_of_start h
  obtain ⟨hpunctual, hnone, hothers⟩ := hn.begin hnew
    { trade := t, mailbox := .new n.settings.mailboxCapacity.toNat } rfl rfl
  have hk : m.workers.get? n.started =
      some { trade := t, mailbox := .new n.settings.mailboxCapacity.toNat } := by
    rw [hbegin.workers]
    exact (get?_setWorker ..).trans (if_pos rfl)
  obtain ⟨hpunctual', hall, hopens, htimes, hminds⟩ :=
    (hbegin.punctual hpunctual).startTimers now hk t.deadlines.values
  refine ⟨hend.punctual hpunctual', fun k heard hne => ⟨fun id ht => ?_,
    fun _ hid => absurd hid List.not_mem_nil, fun hopen => ?_, fun _ id hm _ _ => ?_⟩, fun hkeyed =>
    ⟨fun id ht => ?_, fun id hlive => ?_⟩⟩
  · rcases htimes k id (hend.times_iff.1 ht) with ⟨heq, -⟩ | hbefore
    · exact absurd heq hne
    · exact .inr ⟨hbegin.times_iff.1 hbefore, fun _ hm => absurd hm List.not_mem_nil⟩
  · -- whoever was there before is the same
    obtain ⟨w, hw, hopen⟩ := hbegin.isOpen_iff.1 (hopens k (hend.isOpen_iff.1 hopen))
    exact ⟨w, ((get?_setWorker ..).trans (if_neg hne)).symm.trans hw, hopen⟩
  · refine hend.minds_iff.2 (hminds k id (hbegin.minds_iff.2 (hothers k id hne hm)) fun heq => ?_)
    exact absurd heq hne
  · rcases htimes n.started id (hend.times_iff.1 ht) with ⟨-, hmem⟩ | hbefore
    · exact (Trade.mem_armed_iff hkeyed).1 (List.mem_map.2 hmem)
    · exact absurd (hbegin.times_iff.1 hbefore) (hnone id)
  · obtain ⟨d, hd, rfl⟩ := List.mem_map.1 ((Trade.mem_armed_iff hkeyed).2 hlive)
    exact hend.minds_iff.2 (hall (pairwise_values hkeyed) d hd)

/-! ## Every action -/

/-- Whatever happens, a worker minds what it minded, but for what its own effects say and for what
it reads. -/
theorem Punctual.act (hn : n.Punctual) (hnew : n.workers.get? n.started = none)
    (hact : n.act a = some n') :
    n'.Punctual ∧ ∀ k w, n.workers.get? k = some w →
      n.Tick n' k (Effect.moves (n.done k a)) ((n.heard k a).map (·.2)) := by
  have hsteady (h : n.Steady n') (hdone : ∀ k, n.done k a = []) :
      n'.Punctual ∧ ∀ k w, n.workers.get? k = some w →
        n.Tick n' k (Effect.moves (n.done k a)) ((n.heard k a).map (·.2)) :=
    ⟨h.punctual, fun k w _ => by rw [hdone]; exact h.tick k _⟩
  have hstart {now : Time} {t : Trade} {isStored : Bool} (h : n.start now t isStored = .ok n')
      (hdone : ∀ k, n.done k a = []) : n'.Punctual ∧ ∀ k w, n.workers.get? k = some w →
        n.Tick n' k (Effect.moves (n.done k a)) ((n.heard k a).map (·.2)) := by
    obtain ⟨hpunctual, hothers, -⟩ := hn.start hnew h
    refine ⟨hpunctual, fun k w hk => ?_⟩
    rw [hdone]
    refine hothers k _ ?_
    rintro rfl
    rw [hnew] at hk
    cases hk
  cases a with
  | step now actor =>
    cases actor with
    | writer =>
      obtain ⟨⟨s, b⟩, -, h⟩ := Option.bind_eq_some_iff.1 hact
      cases h
      exact hsteady (Calm.steady ⟨rfl, rfl, rfl⟩ hn) fun _ => rfl
    | worker k =>
      obtain ⟨hpunctual, htick⟩ := hn.tick_stepWorker hact
      exact ⟨hpunctual, fun k' _ _ => htick k'⟩
    | reporter number => exact hsteady (hn.steady_stepReporter hact) fun _ => rfl
    | timer number => exact hsteady (hn.steady_stepTimer hact) fun _ => rfl
    | carrier source => cases hact
    | caller number => cases hact
  | call k request =>
    cases hact
    have hcalled : n.Calm { n with called := n.called + 1 } := ⟨rfl, rfl, rfl⟩
    exact hsteady (hcalled.trans_steady
      ((hcalled.punctual hn).steady_deliver k (.caller n.called) _ nofun)) fun _ => rfl
  | carry k source m =>
    cases hact
    exact hsteady (hn.steady_deliver k (.carrier source) _ nofun) fun _ => rfl
  | enter k sender =>
    cases hact
    exact hsteady (hn.steady_enter k sender) fun _ => rfl
  | launch now t => exact hstart (Checks.toOption_eq_some_iff.1 hact) fun _ => rfl
  | resume now s =>
    obtain ⟨t, -, h⟩ := Option.bind_eq_some_iff.1 hact
    exact hstart (Checks.toOption_eq_some_iff.1 h) fun _ => rfl
  | release k =>
    cases hact
    exact hsteady (hn.steady_release k) fun _ => rfl
  | forget =>
    cases hact
    exact hsteady (Calm.steady ⟨rfl, rfl, rfl⟩ hn) fun _ => rfl
  | flush =>
    cases hact
    exact hsteady (Calm.steady ⟨rfl, rfl, rfl⟩ hn) fun _ => rfl
  | close =>
    cases hact
    exact hsteady (Calm.steady ⟨rfl, rfl, rfl⟩ hn) fun _ => rfl
  | behave b =>
    cases hact
    exact hsteady (Calm.steady ⟨rfl, rfl, rfl⟩ hn) fun _ => rfl
  | link l =>
    cases hact
    exact hsteady (Calm.steady ⟨rfl, rfl, rfl⟩ hn) fun _ => rfl
  | rouse woken =>
    cases hact
    exact hsteady (Calm.steady ⟨rfl, rfl, rfl⟩ hn) fun _ => rfl

/-- A new worker has a timer for each deadline that is armed in its trade, and no other timers. -/
theorem Punctual.begins (hn : n.Punctual) (hnew : n.workers.get? n.started = none)
    (hact : n.act a = some n') (hbegins : Begins n a k w)
    (hkeyed : ∀ k id, w.trade.liveId? k = some id → id.kind = k) :
    (∀ id, n'.Times k id → w.trade.liveId? id.kind = some id) ∧
      ∀ id, w.trade.liveId? id.kind = some id → n'.Minds k id := by
  cases hbegins with
  | launched ha hk =>
    subst ha hk
    exact (hn.start hnew (Checks.toOption_eq_some_iff.1 hact)).2.2 hkeyed
  | resumed ha hrestore hk =>
    subst ha hk
    obtain ⟨t, ht, h⟩ := Option.bind_eq_some_iff.1 hact
    cases hrestore.symm.trans (Checks.toOption_eq_some_iff.1 ht)
    exact (hn.start hnew (Checks.toOption_eq_some_iff.1 h)).2.2 hkeyed

end PeerTrade.Node
