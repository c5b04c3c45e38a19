import PeerTrade.Proofs.Node.Deadlines
import PeerTrade.Proofs.Node.Resumption

/-!
# When timers are due

The time at which a timer is due is settled when it is set: by a worker that carries out an effect, or
by the node when it takes a trade on. Whatever else happens leaves it alone, until the timer has told
its worker or is taken away (`Node.Punctual.keepsTime`).
-/

namespace PeerTrade

/-- A timer later on; it may have got in line with its news. -/
def Timer.Like (before timer : Timer) : Prop := ∃ sending, timer = { before with sending }

namespace Node

variable {n n' n'' m : Node} {a : Action} {k i : Nat} {w : Worker} {now : Time} {timer : Timer}

/-! ## Nothing is set -/

/-- There are no timers but those from before, and they are due as before. -/
structure Sheds (n n' : Node) : Prop where
  timed : n'.timed = n.timed
  timers : ∀ i timer, n'.timers.get? i = some timer →
    ∃ before, n.timers.get? i = some before ∧ before.Like timer

theorem sheds_of_eq (htimers : n'.timers = n.timers) (htimed : n'.timed = n.timed) :
    n.Sheds n' :=
  ⟨htimed, fun _ timer htimer => ⟨timer, htimers ▸ htimer, timer.sending, rfl⟩⟩

theorem Sheds.refl (n : Node) : n.Sheds n := sheds_of_eq rfl rfl

theorem Sheds.trans (h : n.Sheds n') (h' : n'.Sheds n'') : n.Sheds n'' := by
  refine ⟨h'.timed.trans h.timed, fun i timer htimer => ?_⟩
  obtain ⟨between, hbetween, sending, rfl⟩ := h'.timers i timer htimer
  obtain ⟨before, hbefore, sending', rfl⟩ := h.timers i between hbetween
  exact ⟨before, hbefore, sending, rfl⟩

theorem Calm.sheds (h : n.Calm n') : n.Sheds n' := sheds_of_eq h.timers h.timed

theorem sheds_setWorker (n : Node) (k : Nat) (w : Worker) : n.Sheds (n.setWorker k w) :=
  sheds_of_eq rfl rfl

theorem sheds_foldl {α : Type} {f : Node → α → Node} (hf : ∀ (n : Node) a, n.Sheds (f n a))
    (l : List α) (n : Node) : n.Sheds (l.foldl f n) := by
  induction l generalizing n with
  | nil => exact .refl n
  | cons a rest ih => exact (hf n a).trans (ih (f n a))

theorem sheds_cancelTimer (n : Node) (number : Nat) : n.Sheds (n.cancelTimer number) := by
  refine ⟨?_, fun i timer htimer => ?_⟩
  · rcases n.cancelTimer_cases number with ⟨-, heq⟩ | ⟨_, -, ⟨-, hcalm⟩ | ⟨_, -, hcalm⟩⟩
    · rw [heq]
    · exact hcalm.timed
    · exact hcalm.timed
  · rw [get?_timers_cancelTimer] at htimer
    split at htimer
    · cases htimer
    · exact ⟨timer, htimer, timer.sending, rfl⟩

theorem sheds_deliver (n : Node) (k : Nat) (sender : Actor) (mail : Mail) :
    n.Sheds (n.deliver k sender mail).1 := by
  rcases n.deliver_cases k sender mail with ⟨heq, -⟩ | ⟨_, _, -, -, heq⟩
  · rw [heq]
    exact .refl n
  · rw [heq]
    exact sheds_of_eq rfl rfl

theorem sheds_enter (n : Node) (k : Nat) (sender : Actor) : n.Sheds (n.enter k sender).1 := by
  rcases n.enter_cases k sender with ⟨heq, -⟩ | ⟨_, _, _, -, -, -, heq⟩
  · rw [heq]
    exact .refl n
  · rw [heq]
    exact sheds_of_eq rfl rfl

/-- A reporter or a timer passes its news on. -/
theorem sheds_passing (n : Node) (k : Nat) (sender : Actor) (mail : Mail) (isSending : Bool) :
    n.Sheds (if isSending then n.enter k sender else n.deliverIfReachable k sender mail).1 := by
  split
  · exact n.sheds_enter k sender
  · rcases n.deliverIfReachable_cases k sender mail with ⟨heq, -⟩ | heq
    · rw [heq]
      exact .refl n
    · rw [heq]
      exact n.sheds_deliver k sender mail

theorem sheds_release (n : Node) (k : Nat) : n.Sheds (n.release k) := by
  unfold release
  split
  · exact .refl n
  · exact sheds_of_eq rfl rfl

theorem sheds_stepReporter {number : Nat} (h : n.stepReporter number = some n') : n.Sheds n' := by
  obtain ⟨r, -, ⟨-, rfl⟩ | ⟨f, m, delivery, -, hpassed, hdone⟩⟩ := stepReporter_cases h
  · exact sheds_of_eq rfl rfl
  · have hm := n.sheds_passing r.worker (.reporter number) (.persistFailed f r.attempt) r.sending
    rw [hpassed] at hm
    refine hm.trans ?_
    rcases hdone with ⟨-, rfl⟩ | ⟨-, -, rfl⟩ <;> exact sheds_of_eq rfl rfl

theorem sheds_stepTimer {number : Nat} (h : n.stepTimer now number = some n') : n.Sheds n' := by
  obtain ⟨timer, m, delivery, htimer, hpassed, hdone⟩ := stepTimer_cases h
  have hm := n.sheds_passing timer.worker (.timer number) (.alarm timer.id) timer.sending
  rw [Mail.alarm, hpassed] at hm
  -- the timer itself is done, or gets in line
  rcases hdone with ⟨-, rfl⟩ | ⟨-, -, rfl⟩
  · exact ⟨hm.timed, fun i other hother => hm.timers i other (of_get?_erase_timer hother).2⟩
  · refine ⟨hm.timed, fun i other hother => ?_⟩
    have hinsert : (m.timers.insert number { timer with sending := true }).get? i =
        if i = number then some { timer with sending := true } else m.timers.get? i := by
      simp [Dict.get?_insert]
    rw [show _ = _ from hinsert] at hother
    split at hother
    next heq =>
      cases hother
      exact ⟨timer, heq ▸ htimer, true, rfl⟩
    next => exact hm.timers i other hother

theorem sheds_read (n : Node) (now : Time) (k : Nat) (w : Worker) (mail : Mail) :
    n.Sheds (n.read now k w mail) := by
  cases mail with
  | event e caller =>
    rw [read]
    split
    · exact (n.sheds_setWorker k _).trans (n.calm_breakDown k w caller).sheds
    · exact n.sheds_setWorker k _
  | inspect c => exact sheds_of_eq rfl rfl
  | persistFailed f attempt => exact sheds_of_eq rfl rfl

theorem sheds_retire (n : Node) (k : Nat) (w : Worker) : n.Sheds (n.retire k w) :=
  (n.sheds_setWorker k _).trans (sheds_foldl sheds_cancelTimer w.timers.values _)

/-! ## What is set -/

/-- A timer is set in an action: with the length of an effect that is carried out, or with what is
left of a deadline when its trade is taken on. -/
inductive Sets (n : Node) (a : Action) (timer : Timer) : Prop where
  | armed {now : Time} {k : Nat} {id : DeadlineId} {after : Duration} :
      a = .step now (.worker k) → .arm id after ∈ n.done k a →
      timer = ⟨id, k, now.due after, false⟩ → Sets n a timer
  | launched {now : Time} {t : Trade} {d : Deadline} :
      a = .launch now t → d ∈ t.deadlines.values → timer = timerFor now n.started d → Sets n a timer
  | resumed {now : Time} {s : Snapshot} {t : Trade} {d : Deadline} :
      a = .resume now s → n.engine.restore s = .ok t → d ∈ t.deadlines.values →
      timer = timerFor now n.started d → Sets n a timer

/-- Every timer was there before the action, due at the same time and for a deadline about which its
worker has done nothing, or has been set in it under a new number. -/
structure KeepsTime (n : Node) (a : Action) (n' : Node) : Prop where
  timed : n.timed ≤ n'.timed
  timers : ∀ i timer, n'.timers.get? i = some timer →
    (∃ before, n.timers.get? i = some before ∧ before.Like timer ∧
      ∀ m ∈ Effect.moves (n.done timer.worker a), m.kind ≠ timer.id.kind) ∨
    (n.timed ≤ i ∧ n.Sets a timer)

theorem Sheds.keepsTime (h : n.Sheds n') (hdone : ∀ k, n.done k a = []) : n.KeepsTime a n' := by
  refine ⟨Nat.le_of_eq h.timed.symm, fun i timer htimer => .inl ?_⟩
  obtain ⟨before, hbefore, hlike⟩ := h.timers i timer htimer
  refine ⟨before, hbefore, hlike, ?_⟩
  rw [hdone]
  exact fun m hm => absurd hm List.not_mem_nil

theorem timed_stopTimer (n : Node) (k : Nat) (kind : DeadlineKind) :
    (n.stopTimer k kind).timed = n.timed := by
  rcases n.stopTimer_cases k kind with ⟨heq, -⟩ | ⟨w, i, -, -, heq⟩
  · rw [heq]
  · rw [heq, (sheds_cancelTimer _ i).timed]
    rfl

theorem of_get?_stopTimer {kind : DeadlineKind}
    (h : (n.stopTimer k kind).timers.get? i = some timer) : n.timers.get? i = some timer := by
  rcases n.stopTimer_cases k kind with ⟨heq, -⟩ | ⟨w, i', -, -, heq⟩
  · rwa [heq] at h
  · rw [heq, get?_timers_cancelTimer] at h
    split at h
    · cases h
    · exact h

/-- The timer that is started takes the place of the one of its kind. -/
theorem Registered.of_startTimer (h : n.Registered) (hk : n.workers.get? k = some w)
    {id : DeadlineId} {after : Duration}
    (htimer : (n.startTimer now k id after).timers.get? i = some timer) :
    (n.timers.get? i = some timer ∧ (timer.worker = k → timer.id.kind ≠ id.kind)) ∨
      (i = n.timed ∧ timer = ⟨id, k, now.due after, false⟩) := by
  obtain ⟨w', -, hcalm⟩ := exists_calm_startTimer now id after hk
  rw [hcalm.timers, get?_timers_withTimer, timed_stopTimer] at htimer
  split at htimer
  next heq => exact .inr ⟨heq, (Option.some.inj htimer).symm⟩
  next => exact .inl (h.of_stopTimer htimer)

theorem timed_startTimer (now : Time) (id : DeadlineId) (after : Duration)
    (hk : n.workers.get? k = some w) : (n.startTimer now k id after).timed = n.timed + 1 := by
  obtain ⟨w', -, hcalm⟩ := exists_calm_startTimer now id after hk
  rw [hcalm.timed]
  show (n.stopTimer k id.kind).timed + 1 = _
  rw [timed_stopTimer]

/-- What a chore does to the timers: one that it starts takes the place of the one of its kind. -/
theorem Registered.timers_of_perform (h : n.Registered) (hk : n.workers.get? k = some w)
    (now : Time) (t : Trade) (chore : Chore) :
    n.timed ≤ (n.perform now k t chore).timed ∧
      ∀ i timer, (n.perform now k t chore).timers.get? i = some timer →
        (n.timers.get? i = some timer ∧
          (timer.worker = k → ∀ m ∈ Effect.moves chore.effect?.toList, m.kind ≠ timer.id.kind)) ∨
        (n.timed ≤ i ∧ ∃ id after, chore = .startTimer id after ∧
          timer = ⟨id, k, now.due after, false⟩) := by
  by_cases hmoves : Effect.moves chore.effect?.toList = []
  · have hsame := n.calm_perform now k t hmoves
    rw [hmoves, hsame.timers, hsame.timed]
    exact ⟨Nat.le_refl _, fun i timer htimer =>
      .inl ⟨htimer, fun _ m hm => absurd hm List.not_mem_nil⟩⟩
  -- a timer of before is not of the kind that the chore is about
  have hother {timer : Timer} {move : DeadlineMove} (hne : timer.worker = k →
      timer.id.kind ≠ move.kind) : timer.worker = k → ∀ m ∈ [move], m.kind ≠ timer.id.kind :=
    fun hworker m hm => List.mem_singleton.1 hm ▸ (hne hworker).symm
  cases chore with
  | startTimer id after =>
    refine ⟨?_, fun i timer htimer => ?_⟩
    · show n.timed ≤ (n.startTimer now k id after).timed
      rw [timed_startTimer now id after hk]
      exact Nat.le_succ _
    · rcases h.of_startTimer hk htimer with ⟨hbefore, hne⟩ | ⟨rfl, rfl⟩
      · exact .inl ⟨hbefore, hother hne⟩
      · exact .inr ⟨Nat.le_refl _, id, after, rfl, rfl⟩
  | stopTimer kind =>
    refine ⟨Nat.le_of_eq (n.timed_stopTimer k kind).symm, fun i timer htimer => .inl ?_⟩
    obtain ⟨hbefore, hne⟩ := h.of_stopTimer htimer
    exact ⟨hbefore, hother hne⟩
  | persist | post | send | answer => exact absurd rfl hmoves

/-- The timers of a trade that is taken on, one after the other. -/
theorem timers_of_startTimers (now : Time) (ds : List Deadline) (hk : n.workers.get? k = some w) :
    let n' := ds.foldl (fun n d => n.startTimer now k d.id (d.expiresAt.remaining now.date)) n
    n.timed ≤ n'.timed ∧ ∀ i timer, n'.timers.get? i = some timer →
      n.timers.get? i = some timer ∨ (n.timed ≤ i ∧ ∃ d ∈ ds, timer = timerFor now k d) := by
  induction ds generalizing n w with
  | nil => exact ⟨Nat.le_refl _, fun _ _ htimer => .inl htimer⟩
  | cons d rest ih =>
    let after := d.expiresAt.remaining now.date
    obtain ⟨w', -, hcalm⟩ := exists_calm_startTimer now d.id after hk
    obtain ⟨w'', hk'', -⟩ := (n.still_startTimer now k d.id after).present k w hk
    obtain ⟨hle, hrest⟩ := ih hk''
    rw [timed_startTimer now d.id after hk] at hle hrest
    refine ⟨Nat.le_of_succ_le hle, fun i timer htimer => ?_⟩
    rcases hrest i timer htimer with hbefore | ⟨hi, d', hd', rfl⟩
    · rw [hcalm.timers, get?_timers_withTimer, timed_stopTimer] at hbefore
      split at hbefore
      next heq =>
        exact .inr ⟨Nat.le_of_eq heq.symm, d, List.mem_cons_self, (Option.some.inj hbefore).symm⟩
      next => exact .inl (of_get?_stopTimer hbefore)
    · exact .inr ⟨Nat.le_of_succ_le hi, d', List.mem_cons_of_mem _ hd', rfl⟩

theorem timers_of_start {t : Trade} {isStored : Bool} (h : n.start now t isStored = .ok n') :
    n.timed ≤ n'.timed ∧ ∀ i timer, n'.timers.get? i = some timer →
      n.timers.get? i = some timer ∨
        (n.timed ≤ i ∧ ∃ d ∈ t.deadlines.values, timer = timerFor now n.started d) := by
  obtain ⟨m, hbegin, hend⟩ := exists_foldl_of_start h
  have hk : m.workers.get? n.started =
      some { trade := t, mailbox := .new n.settings.mailboxCapacity.toNat } := by
    rw [hbegin.workers]
    exact (get?_setWorker ..).trans (if_pos rfl)
  have hset := timers_of_startTimers now t.deadlines.values hk
  dsimp only at hset
  rwa [← hend.timed, ← hend.timers, hbegin.timed, hbegin.timers] at hset

/-! ## Every action -/

theorem Punctual.keepsTime_stepWorker (hn : n.Punctual) (h : n.stepWorker now k = some n') :
    n.KeepsTime (.step now (.worker k)) n' := by
  unfold stepWorker at h
  obtain ⟨w, hk, h⟩ := Option.bind_eq_some_iff.1 h
  have hdone (hchores : w.chores = []) (k' : Nat) : n.done k' (.step now (.worker k)) = [] := by
    by_cases heq : k = k'
    · subst heq
      simp [done, hk, hchores]
    · exact n.done_of_ne heq
  split at h
  · cases h
  next hrunning =>
    have hrunning : w.phase = .running := Decidable.not_not.1 hrunning
    split at h
    next chore chores hchores =>
      cases h
      have hchore : n.done k (.step now (.worker k)) = chore.effect?.toList := by
        simp [done, hk, hrunning, hchores]
      -- crossing the chore off the list is nothing to the timers
      have hset : (n.setWorker k { w with chores }).Registered := hn.2.setWorker hk rfl
      obtain ⟨htimed, htimers⟩ := hset.timers_of_perform
        ((get?_setWorker ..).trans (if_pos rfl)) now w.trade chore
      refine ⟨htimed, fun i timer htimer => ?_⟩
      rcases htimers i timer htimer with ⟨hbefore, hother⟩ | ⟨hi, id, after, rfl, rfl⟩
      · refine .inl ⟨timer, hbefore, ⟨timer.sending, rfl⟩, ?_⟩
        by_cases heq : k = timer.worker
        · rw [← heq, hchore]
          exact hother heq.symm
        · rw [n.done_of_ne heq]
          exact fun m hm => absurd hm List.not_mem_nil
      · exact .inr ⟨hi, .armed rfl (by rw [hchore]; exact List.mem_singleton.2 rfl) rfl⟩
    next hchores =>
      split at h
      next mail mailbox admitted htake =>
        cases h
        have hread := n.sheds_read now k { w with mailbox } mail
        have hwake (m : Node) : m.Sheds (m.wake admitted.toList) := sheds_of_eq rfl rfl
        exact (hread.trans (hwake _)).keepsTime (hdone hchores)
      next htake =>
        split at h
        · cases h
        · cases h
          exact (n.sheds_retire k w).keepsTime (hdone hchores)

theorem keepsTime_of_start {t : Trade} {isStored : Bool} (h : n.start now t isStored = .ok n')
    (hdone : ∀ k, n.done k a = [])
    (hsets : ∀ d ∈ t.deadlines.values, n.Sets a (timerFor now n.started d)) :
    n.KeepsTime a n' := by
  obtain ⟨htimed, htimers⟩ := timers_of_start h
  refine ⟨htimed, fun i timer htimer => ?_⟩
  rcases htimers i timer htimer with hbefore | ⟨hi, d, hd, rfl⟩
  · refine .inl ⟨timer, hbefore, ⟨timer.sending, rfl⟩, ?_⟩
    rw [hdone]
    exact fun m hm => absurd hm List.not_mem_nil
  · exact .inr ⟨hi, hsets d hd⟩

/-- Only what a worker does about its deadlines, and taking a trade on, sets a timer. -/
theorem Punctual.keepsTime (hn : n.Punctual) (hact : n.act a = some n') : n.KeepsTime a n' := by
  have hsame (htimers : n'.timers = n.timers) (htimed : n'.timed = n.timed)
      (hdone : ∀ k, n.done k a = []) : n.KeepsTime a n' :=
    (sheds_of_eq htimers htimed).keepsTime hdone
  cases a with
  | step now actor =>
    cases actor with
    | writer =>
      obtain ⟨⟨s, b⟩, -, h⟩ := Option.bind_eq_some_iff.1 hact
      cases h
      exact hsame rfl rfl fun _ => rfl
    | worker k => exact hn.keepsTime_stepWorker hact
    | reporter number => exact (sheds_stepReporter hact).keepsTime fun _ => rfl
    | timer number => exact (sheds_stepTimer hact).keepsTime fun _ => rfl
    | carrier source => cases hact
    | caller number => cases hact
  | call k request =>
    cases hact
    have hcalled : n.Sheds { n with called := n.called + 1 } := sheds_of_eq rfl rfl
    exact (hcalled.trans (sheds_deliver _ k _ _)).keepsTime fun _ => rfl
  | carry k source m =>
    cases hact
    exact (n.sheds_deliver k _ _).keepsTime fun _ => rfl
  | enter k sender =>
    cases hact
    exact (n.sheds_enter k sender).keepsTime fun _ => rfl
  | launch now t =>
    exact keepsTime_of_start (Checks.toOption_eq_some_iff.1 hact) (fun _ => rfl) fun d hd =>
      .launched rfl hd rfl
  | resume now s =>
    obtain ⟨t, ht, h⟩ := Option.bind_eq_some_iff.1 hact
    exact keepsTime_of_start (Checks.toOption_eq_some_iff.1 h) (fun _ => rfl) fun d hd =>
      .resumed rfl (Checks.toOption_eq_some_iff.1 ht) hd rfl
  | release k =>
    cases hact
    exact (n.sheds_release k).keepsTime fun _ => rfl
  | forget | flush | close | behave | link | rouse =>
    cases hact
    exact hsame rfl rfl fun _ => rfl

theorem Watched.keepsTime_of_act {x x' : Watched} (hn : x.node.Punctual)
    (hact : x.act a = some x') : x.node.KeepsTime a x'.node := by
  obtain ⟨n', hn', rfl⟩ := Option.map_eq_some_iff.1 hact
  exact hn.keepsTime hn'

end Node

end PeerTrade
