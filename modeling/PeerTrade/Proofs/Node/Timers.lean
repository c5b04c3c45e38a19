import PeerTrade.Proofs.Engine.Moves
import PeerTrade.Proofs.Node.Journal

/-!
# Timers of workers

A timer that has been started for a deadline runs until it is stopped, or until it passes the news on
that the deadline has expired. These go through the mailbox of the worker like any other mail, and may
have to wait in line for it. As long as one or the other holds, the deadline is minded (`Node.Minds`).
What an action does about that can be told from the chore that a worker does in it and from the mail
that it reads (`Node.Tick`).
-/

namespace PeerTrade

open DeadlineMove

/-! ## Effects and news -/

/-- The effect that is carried out by a chore. -/
def Chore.effect? : Chore → Option Effect
  | startTimer id after => some (.arm id after)
  | stopTimer kind => some (.clear kind)
  | send m => some (.send m)
  | persist _ | post _ | answer .. => none

@[simp] theorem Chore.effect?_chore (e : Effect) : Chore.effect? e.chore = some e := by
  cases e <;> rfl

/-- The effects that a worker has not carried out yet. -/
def Worker.pending (w : Worker) : List Effect := w.chores.filterMap Chore.effect?

/-- The news that a deadline has expired, as a timer brings them. -/
abbrev Mail.alarm (id : DeadlineId) : Mail := .event (.timeout id) none

/-- The news that a deadline has expired lie in the mailbox of a worker, or a timer waits in line
with them. -/
def Worker.Expects (w : Worker) (id : DeadlineId) : Prop :=
  .alarm id ∈ w.mailbox.queue ∨ ∃ i, (.timer i, .alarm id) ∈ w.mailbox.line

/-! ## Lines -/

namespace Mailbox

variable {σ α : Type} {m m' : Mailbox σ α} {sender : σ} {message : α}

theorem mem_line_offer {e : σ × α} (h : e ∈ (m.offer sender message).1.line) :
    e ∈ m.line ∨ e = (sender, message) := by
  unfold offer at h
  split at h
  · exact .inl h
  · simpa [line, or_assoc] using h

theorem subset_offer (m : Mailbox σ α) (sender : σ) (message : α) :
    m.queue ⊆ (m.offer sender message).1.queue ∧ m.line ⊆ (m.offer sender message).1.line := by
  unfold offer
  split
  · exact ⟨List.subset_append_left .., List.Subset.refl _⟩
  · refine ⟨List.Subset.refl _, ?_⟩
    rw [line, line, ← List.append_assoc]
    exact List.subset_append_left ..

theorem delivered_or_waiting (m : Mailbox σ α) (sender : σ) (message : α) :
    ((m.offer sender message).2 = .delivered ∧ message ∈ (m.offer sender message).1.queue) ∨
      ((m.offer sender message).2 = .waiting ∧
        (sender, message) ∈ (m.offer sender message).1.line) := by
  unfold offer
  split
  · exact .inl ⟨rfl, by simp⟩
  · exact .inr ⟨rfl, by simp [line]⟩

@[simp] theorem kept_offer (m : Mailbox σ α) (sender : σ) (message : α) :
    (m.offer sender message).1.kept = m.kept := by
  unfold offer
  split <;> rfl

@[simp] theorem kept_promise (m : Mailbox σ α) : m.promise.1.kept = m.kept := by
  unfold promise
  split
  · rfl
  · split <;> rfl

theorem kept_take {admitted : Option σ} (h : m.take = some (message, m', admitted)) :
    m'.kept = m.kept := by
  unfold take at h
  split at h
  · cases h
  next first rest _ =>
    have hpromised : { m with queue := rest }.promise.1 = m' := by
      injection h with h
      exact congrArg (fun p => p.2.1) h
    rw [← hpromised, kept_promise]

variable [BEq σ]

@[simp] theorem kept_withdraw (m : Mailbox σ α) (sender : σ) :
    (m.withdraw sender).1.kept = m.kept :=
  kept_promise _

theorem kept_enter (h : m.enter sender = some m') : m'.kept = m.kept := by
  obtain ⟨message, -, rfl⟩ := Option.map_eq_some_iff.1 h
  rfl

variable [LawfulBEq σ]

/-- Whoever enters takes nothing out of line but what is its own. -/
theorem enter_line (h : m.enter sender = some m') :
    m.queue ⊆ m'.queue ∧ m'.line ⊆ m.line ∧ (∀ e ∈ m.line, e.1 ≠ sender → e ∈ m'.line) ∧
      ∃ message, (sender, message) ∈ m.line ∧ message ∈ m'.queue := by
  obtain ⟨message, hlookup, rfl⟩ := Option.map_eq_some_iff.1 h
  obtain ⟨front, back, hadmitted, -⟩ := List.lookup_eq_some_iff.1 hlookup
  refine ⟨List.subset_append_left .., fun e he => ?_, fun e he hne => ?_, message, ?_, by simp⟩
  · rcases List.mem_append.1 he with he | he
    · exact List.mem_append_left _ (List.mem_filter.1 he).1
    · exact List.mem_append_right _ he
  · rcases List.mem_append.1 he with he | he
    · exact List.mem_append_left _ (List.mem_filter.2 ⟨he, by simpa using hne⟩)
    · exact List.mem_append_right _ he
  · exact List.mem_append_left _ (by simp [hadmitted])

theorem mem_line_withdraw {e : σ × α} (h : e ∈ m.line) (hne : e.1 ≠ sender) :
    e ∈ (m.withdraw sender).1.line := by
  rw [withdraw, (promise_still _).2]
  rcases List.mem_append.1 h with h | h
  · exact List.mem_append_left _ (List.mem_filter.2 ⟨h, by simpa using hne⟩)
  · exact List.mem_append_right _ (List.mem_filter.2 ⟨h, by simpa using hne⟩)

end Mailbox

namespace Node

variable {n n' m : Node} {book : Nat → Nat × DeadlineId} {k k' i : Nat} {w w' : Worker}
  {id id' : DeadlineId} {kind : DeadlineKind}

/-! ## Deadlines that are minded -/

/-- There is a timer of a worker for a deadline. -/
def Times (n : Node) (k : Nat) (id : DeadlineId) : Prop :=
  ∃ i timer, n.timers.get? i = some timer ∧ timer.worker = k ∧ timer.id = id

/-- A timer of a worker runs for a deadline, or the worker is going to read that it has expired. -/
def Minds (n : Node) (k : Nat) (id : DeadlineId) : Prop :=
  (∃ i timer, n.timers.get? i = some timer ∧ timer.worker = k ∧ timer.id = id ∧
    timer.sending = false) ∨
    ∃ w, n.workers.get? k = some w ∧ w.Expects id

/-- A worker runs, and its mailbox has not been let go of. -/
def IsOpen (n : Node) (k : Nat) : Prop :=
  ∃ w, n.workers.get? k = some w ∧ w.phase = .running ∧ w.mailbox.kept = true

/-- Every number that was given to a timer belongs to one deadline of one worker for good, by the
book of an observer. -/
structure Booked (n : Node) (book : Nat → Nat × DeadlineId) : Prop where
  timer : ∀ i timer, n.timers.get? i = some timer →
    i < n.timed ∧ book i = (timer.worker, timer.id)
  listed : ∀ k w kind i, n.workers.get? k = some w → w.timers.get? kind = some i →
    i < n.timed ∧ (book i).1 = k ∧ (book i).2.kind = kind
  lined : ∀ k w i mail, n.workers.get? k = some w → (.timer i, mail) ∈ w.mailbox.line →
    i < n.timed ∧ mail = .alarm (book i).2

/-- Every timer is the last one that its worker started for that kind of deadline. -/
def Registered (n : Node) : Prop :=
  ∀ i timer, n.timers.get? i = some timer →
    ∃ w, n.workers.get? timer.worker = some w ∧ w.timers.get? timer.id.kind = some i

/-! ## What does not concern timers -/

/-- Timers and workers are the same. -/
structure Calm (n n' : Node) : Prop where
  timers : n'.timers = n.timers
  timed : n'.timed = n.timed
  workers : n'.workers = n.workers

theorem Calm.booked (h : n.Calm n') (hbook : n.Booked book) : n'.Booked book := by
  refine ⟨?_, ?_, ?_⟩
  · rw [h.timers, h.timed]
    exact hbook.timer
  · rw [h.workers, h.timed]
    exact hbook.listed
  · rw [h.workers, h.timed]
    exact hbook.lined

theorem Calm.registered (h : n.Calm n') (hregistered : n.Registered) : n'.Registered := by
  rw [Registered, h.timers, h.workers]
  exact hregistered

theorem Calm.times_iff (h : n.Calm n') : n'.Times k id ↔ n.Times k id := by
  rw [Times, Times, h.timers]

theorem Calm.isOpen_iff (h : n.Calm n') : n'.IsOpen k ↔ n.IsOpen k := by
  rw [IsOpen, IsOpen, h.workers]

theorem Calm.minds_iff (h : n.Calm n') : n'.Minds k id ↔ n.Minds k id := by
  rw [Minds, Minds, h.timers, h.workers]

/-! ## One worker -/

/-- A worker may forget timers, and a timer may join its line with its own news. -/
theorem Booked.setWorker (h : n.Booked book) (hk : n.workers.get? k = some w)
    (htimers : ∀ kind i, w'.timers.get? kind = some i → w.timers.get? kind = some i)
    (hline : ∀ i mail, (.timer i, mail) ∈ w'.mailbox.line →
      (.timer i, mail) ∈ w.mailbox.line ∨ (i < n.timed ∧ mail = .alarm (book i).2)) :
    (n.setWorker k w').Booked book where
  timer := h.timer
  listed k' w'' kind i hk' hi := by
    rw [get?_setWorker] at hk'
    split at hk'
    next heq =>
      cases hk'
      exact heq ▸ h.listed k w kind i hk (htimers kind i hi)
    next => exact h.listed k' w'' kind i hk' hi
  lined k' w'' i mail hk' hmail := by
    rw [get?_setWorker] at hk'
    split at hk'
    next =>
      cases hk'
      rcases hline i mail hmail with hold | hnew
      · exact h.lined k w i mail hk hold
      · exact hnew
    next => exact h.lined k' w'' i mail hk' hmail

theorem Registered.setWorker (h : n.Registered) (hk : n.workers.get? k = some w)
    (htimers : w'.timers = w.timers) : (n.setWorker k w').Registered := by
  intro i timer htimer
  obtain ⟨w₀, hw₀, hi⟩ := h i timer htimer
  rw [get?_setWorker]
  split
  next heq =>
    rw [heq, hk] at hw₀
    cases hw₀
    exact ⟨w', rfl, by rwa [htimers]⟩
  next => exact ⟨w₀, hw₀, hi⟩

theorem Minds.setWorker (h : n.Minds k' id) (hk : n.workers.get? k = some w)
    (hexpects : k' = k → w.Expects id → w'.Expects id) : (n.setWorker k w').Minds k' id := by
  rcases h with hruns | ⟨w₀, hw₀, hw⟩
  · exact .inl hruns
  · refine .inr ?_
    rw [get?_setWorker]
    split
    next heq =>
      rw [heq, hk] at hw₀
      cases hw₀
      exact ⟨w', rfl, hexpects heq hw⟩
    next => exact ⟨w₀, hw₀, hw⟩

theorem IsOpen.of_setWorker (h : (n.setWorker k w').IsOpen k') (hk : n.workers.get? k = some w)
    (hw : w'.phase = .running → w'.mailbox.kept = true →
      w.phase = .running ∧ w.mailbox.kept = true) : n.IsOpen k' := by
  obtain ⟨w₀, hk', hrunning, hkept⟩ := h
  rw [get?_setWorker] at hk'
  split at hk'
  next heq =>
    cases hk'
    exact ⟨w, heq ▸ hk, hw hrunning hkept⟩
  next => exact ⟨w₀, hk', hrunning, hkept⟩

/-! ## Fewer timers -/

theorem Booked.timers (h : n.Booked book) {timers : Dict Nat Timer}
    (htimers : ∀ i timer, timers.get? i = some timer →
      ∃ before, n.timers.get? i = some before ∧ timer.worker = before.worker ∧
        timer.id = before.id) : Booked { n with timers } book where
  timer i timer htimer := by
    obtain ⟨before, hbefore, hworker, hid⟩ := htimers i timer htimer
    obtain ⟨hi, hbook⟩ := h.timer i before hbefore
    exact ⟨hi, by rw [hbook, hworker, hid]⟩
  listed := h.listed
  lined := h.lined

theorem Registered.timers (h : n.Registered) {timers : Dict Nat Timer}
    (htimers : ∀ i timer, timers.get? i = some timer →
      ∃ before, n.timers.get? i = some before ∧ timer.worker = before.worker ∧
        timer.id = before.id) : Registered { n with timers } := by
  intro i timer htimer
  obtain ⟨before, hbefore, hworker, hid⟩ := htimers i timer htimer
  rw [hworker, hid]
  exact h i before hbefore

@[simp] theorem get?_erase_timer (n : Node) (i i' : Nat) :
    (n.timers.erase i).get? i' = if i' = i then none else n.timers.get? i' := by
  simp [Dict.get?_erase]

theorem of_get?_erase_timer {timer : Timer} (h : (n.timers.erase i).get? i' = some timer) :
    i' ≠ i ∧ n.timers.get? i' = some timer := by
  rw [get?_erase_timer] at h
  split at h
  · cases h
  next hne => exact ⟨hne, h⟩

/-! ## Stopping and starting timers -/

/-- A timer that is taken away leaves the line of its worker, and nothing else happens. -/
theorem cancelTimer_cases (n : Node) (i : Nat) :
    (n.timers.get? i = none ∧ n.cancelTimer i = n) ∨ ∃ timer, n.timers.get? i = some timer ∧
      ((n.workers.get? timer.worker = none ∧
          Calm { n with timers := n.timers.erase i } (n.cancelTimer i)) ∨
        ∃ w, n.workers.get? timer.worker = some w ∧
          Calm (setWorker { n with timers := n.timers.erase i } timer.worker
            { w with mailbox := (w.mailbox.withdraw (.timer i)).1 }) (n.cancelTimer i)) := by
  unfold cancelTimer
  split
  next hnone => exact .inl ⟨hnone, rfl⟩
  next timer htimer =>
    refine .inr ⟨timer, htimer, ?_⟩
    dsimp only
    split
    next hnone => exact .inl ⟨hnone, rfl, rfl, rfl⟩
    next w hw => exact .inr ⟨w, hw, rfl, rfl, rfl⟩

theorem get?_timers_cancelTimer (n : Node) (i i' : Nat) :
    (n.cancelTimer i).timers.get? i' = if i' = i then none else n.timers.get? i' := by
  rcases n.cancelTimer_cases i with ⟨hnone, heq⟩ | ⟨timer, -, ⟨-, hcalm⟩ | ⟨w, -, hcalm⟩⟩
  · rw [heq]
    split
    next hi => rw [hi, hnone]
    next => rfl
  · rw [hcalm.timers]
    exact n.get?_erase_timer i i'
  · rw [hcalm.timers]
    exact n.get?_erase_timer i i'

theorem get?_workers_cancelTimer (i : Nat) (hk : n.workers.get? k = some w) :
    ∃ mailbox, (n.cancelTimer i).workers.get? k = some { w with mailbox } := by
  rcases n.cancelTimer_cases i with ⟨-, heq⟩ | ⟨timer, -, ⟨-, hcalm⟩ | ⟨w₀, hw₀, hcalm⟩⟩
  · exact ⟨w.mailbox, by rw [heq, hk]⟩
  · exact ⟨w.mailbox, by rw [hcalm.workers, hk]⟩
  · rw [hcalm.workers, get?_setWorker]
    split
    next heq =>
      rw [heq, hw₀] at hk
      cases hk
      exact ⟨_, rfl⟩
    next => exact ⟨w.mailbox, hk⟩

theorem Booked.cancelTimer (h : n.Booked book) (i : Nat) : (n.cancelTimer i).Booked book := by
  have herased : Booked { n with timers := n.timers.erase i } book :=
    h.timers fun i' timer htimer => ⟨timer, (of_get?_erase_timer htimer).2, rfl, rfl⟩
  rcases n.cancelTimer_cases i with ⟨-, heq⟩ | ⟨timer, -, ⟨-, hcalm⟩ | ⟨w, hw, hcalm⟩⟩
  · rwa [heq]
  · exact hcalm.booked herased
  · refine hcalm.booked (herased.setWorker hw (fun _ _ hi => hi) fun i' mail hmail => .inl ?_)
    exact (Mailbox.withdraw_still w.mailbox (.timer i)).2.subset hmail

theorem Registered.cancelTimer (h : n.Registered) (i : Nat) : (n.cancelTimer i).Registered := by
  intro i' timer htimer
  rw [get?_timers_cancelTimer] at htimer
  split at htimer
  · cases htimer
  next =>
    obtain ⟨w, hw, hi'⟩ := h i' timer htimer
    obtain ⟨mailbox, hw'⟩ := get?_workers_cancelTimer i hw
    exact ⟨_, hw', hi'⟩

theorem Times.of_cancelTimer (h : (n.cancelTimer i).Times k id) : n.Times k id := by
  obtain ⟨i', timer, htimer, hworker, hid⟩ := h
  rw [get?_timers_cancelTimer] at htimer
  split at htimer
  · cases htimer
  next => exact ⟨i', timer, htimer, hworker, hid⟩

/-- Only the deadline of a timer that is taken away can come to harm by that. -/
theorem Minds.cancelTimer (h : n.Minds k id) (hbook : n.Booked book)
    (hother : ∀ timer, n.timers.get? i = some timer → timer.worker = k → timer.id ≠ id) :
    (n.cancelTimer i).Minds k id := by
  have herased : Minds { n with timers := n.timers.erase i } k id := by
    rcases h with ⟨i', timer, htimer, hworker, hid, hruns⟩ | hexpects
    · refine .inl ⟨i', timer, ?_, hworker, hid, hruns⟩
      have hne : i' ≠ i := by
        rintro rfl
        exact hother timer htimer hworker hid
      exact (n.get?_erase_timer i i').trans ((if_neg hne).trans htimer)
    · exact .inr hexpects
  rcases n.cancelTimer_cases i with ⟨-, heq⟩ | ⟨timer, htimer, ⟨-, hcalm⟩ | ⟨w, hw, hcalm⟩⟩
  · rwa [heq]
  · exact hcalm.minds_iff.2 herased
  · refine hcalm.minds_iff.2 (herased.setWorker hw fun hk hexpects => ?_)
    obtain ⟨hqueue, -⟩ := Mailbox.withdraw_still w.mailbox (.timer i)
    rcases hexpects with hread | ⟨i', hline⟩
    · exact .inl (hqueue ▸ hread)
    · -- what is withdrawn is news about the deadline of the timer
      refine .inr ⟨i', Mailbox.mem_line_withdraw hline ?_⟩
      rintro heq
      cases heq
      obtain ⟨-, hmail⟩ := hbook.lined timer.worker w i _ hw hline
      obtain ⟨-, hentry⟩ := hbook.timer i timer htimer
      rw [hentry] at hmail
      cases hmail
      exact hother timer htimer hk.symm rfl

theorem IsOpen.of_cancelTimer (h : (n.cancelTimer i).IsOpen k) : n.IsOpen k := by
  rcases n.cancelTimer_cases i with ⟨-, heq⟩ | ⟨timer, -, ⟨-, hcalm⟩ | ⟨w, hw, hcalm⟩⟩
  · rwa [heq] at h
  · exact hcalm.isOpen_iff.1 h
  · have herased : IsOpen { n with timers := n.timers.erase i } k :=
      (hcalm.isOpen_iff.1 h).of_setWorker hw fun hrunning hkept =>
        ⟨hrunning, (Mailbox.kept_withdraw ..).symm.trans hkept⟩
    exact herased

/-- The timer that a worker has stopped is the one it started last for that kind. -/
theorem stopTimer_cases (n : Node) (k : Nat) (kind : DeadlineKind) :
    (n.stopTimer k kind = n ∧ ∀ w, n.workers.get? k = some w → w.timers.get? kind = none) ∨
      ∃ w i, n.workers.get? k = some w ∧ w.timers.get? kind = some i ∧
        n.stopTimer k kind =
          (n.setWorker k { w with timers := w.timers.erase kind }).cancelTimer i := by
  cases hk : n.workers.get? k with
  | none => exact .inl ⟨by simp [stopTimer, hk], fun w hw => nomatch hw⟩
  | some w =>
    cases hi : w.timers.get? kind with
    | none =>
      refine .inl ⟨by simp [stopTimer, hk, hi], fun w' hw' => ?_⟩
      cases hw'
      exact hi
    | some i => exact .inr ⟨w, i, rfl, hi, by simp [stopTimer, hk, hi]⟩

theorem get?_timers_erase (w : Worker) (kind kind' : DeadlineKind) :
    (w.timers.erase kind).get? kind' = if kind' = kind then none else w.timers.get? kind' := by
  simp [Dict.get?_erase]

theorem Booked.forget (h : n.Booked book) (hk : n.workers.get? k = some w) (kind : DeadlineKind) :
    (n.setWorker k { w with timers := w.timers.erase kind }).Booked book := by
  refine h.setWorker hk (fun kind' i hi => ?_) fun _ _ hmail => .inl hmail
  rw [get?_timers_erase] at hi
  split at hi
  · cases hi
  next => exact hi

theorem Booked.stopTimer (h : n.Booked book) (k : Nat) (kind : DeadlineKind) :
    (n.stopTimer k kind).Booked book := by
  rcases n.stopTimer_cases k kind with ⟨heq, -⟩ | ⟨w, i, hk, -, heq⟩
  · rwa [heq]
  · rw [heq]
    exact (h.forget hk kind).cancelTimer i

/-- Stopping a timer leaves none of its kind behind. -/
theorem Registered.of_stopTimer (h : n.Registered) {timer : Timer}
    (htimer : (n.stopTimer k kind).timers.get? i = some timer) :
    n.timers.get? i = some timer ∧ (timer.worker = k → timer.id.kind ≠ kind) := by
  rcases n.stopTimer_cases k kind with ⟨heq, hnone⟩ | ⟨w, i₀, hk, hi₀, heq⟩
  · rw [heq] at htimer
    refine ⟨htimer, fun hworker hkind => ?_⟩
    obtain ⟨w, hw, hi⟩ := h i timer htimer
    rw [hkind, hnone w (hworker ▸ hw)] at hi
    cases hi
  · rw [heq, get?_timers_cancelTimer] at htimer
    split at htimer
    · cases htimer
    next hne =>
      -- another one of that kind would be registered in its place
      refine ⟨htimer, fun hworker hkind => hne ?_⟩
      obtain ⟨w', hw', hi⟩ := h i timer htimer
      rw [hworker, hk] at hw'
      cases hw'
      rw [hkind, hi₀] at hi
      exact (Option.some.inj hi).symm

theorem Registered.stopTimer (h : n.Registered) (k : Nat) (kind : DeadlineKind) :
    (n.stopTimer k kind).Registered := by
  intro i timer htimer
  obtain ⟨hbefore, hother⟩ := h.of_stopTimer htimer
  obtain ⟨w₀, hw₀, hi⟩ := h i timer hbefore
  rcases n.stopTimer_cases k kind with ⟨heq, -⟩ | ⟨w, i₀, hk, -, heq⟩
  · rw [heq]
    exact ⟨w₀, hw₀, hi⟩
  · rw [heq]
    have hset := n.get?_setWorker k timer.worker { w with timers := w.timers.erase kind }
    -- what is left to this worker is of another kind, and still registered
    by_cases hworker : timer.worker = k
    · have hsame : w₀ = w := Option.some.inj (hw₀.symm.trans (hworker ▸ hk))
      obtain ⟨mailbox, hw'⟩ := get?_workers_cancelTimer i₀ (hset.trans (if_pos hworker))
      refine ⟨_, hw', (get?_timers_erase ..).trans ?_⟩
      rw [if_neg (hother hworker), ← hsame, hi]
    · obtain ⟨mailbox, hw'⟩ := get?_workers_cancelTimer i₀
        (hset.trans ((if_neg hworker).trans hw₀))
      exact ⟨_, hw', hi⟩

theorem Registered.times_of_stopTimer (h : n.Registered) (htimes : (n.stopTimer k kind).Times k' id) :
    n.Times k' id ∧ (k' = k → id.kind ≠ kind) := by
  obtain ⟨i, timer, htimer, rfl, rfl⟩ := htimes
  obtain ⟨hbefore, hother⟩ := h.of_stopTimer htimer
  exact ⟨⟨i, timer, hbefore, rfl, rfl⟩, hother⟩

theorem Minds.stopTimer (h : n.Minds k' id) (hbook : n.Booked book)
    (hother : k' = k → id.kind ≠ kind) : (n.stopTimer k kind).Minds k' id := by
  rcases n.stopTimer_cases k kind with ⟨heq, -⟩ | ⟨w, i, hk, hi, heq⟩
  · rwa [heq]
  · rw [heq]
    have hforgotten : (n.setWorker k { w with timers := w.timers.erase kind }).Minds k' id :=
      h.setWorker hk fun _ hw => hw
    refine hforgotten.cancelTimer (hbook.forget hk kind) ?_
    -- the timer that is taken away is the worker's, and of that kind
    rintro timer htimer rfl rfl
    obtain ⟨-, hentry⟩ := hbook.timer i timer htimer
    obtain ⟨-, hworker, hkind⟩ := hbook.listed k w kind i hk hi
    rw [hentry] at hworker hkind
    exact hother hworker hkind

theorem IsOpen.of_stopTimer (h : (n.stopTimer k kind).IsOpen k') : n.IsOpen k' := by
  rcases n.stopTimer_cases k kind with ⟨heq, -⟩ | ⟨w, i, hk, -, heq⟩
  · rwa [heq] at h
  · rw [heq] at h
    exact h.of_cancelTimer.of_setWorker hk fun hrunning hkept => ⟨hrunning, hkept⟩

/-- One more timer, which its worker has registered. -/
def withTimer (n : Node) (k : Nat) (w : Worker) (id : DeadlineId) (due : Nat) : Node :=
  { n.setWorker k { w with timers := w.timers.insert id.kind n.timed } with
    timers := n.timers.insert n.timed ⟨id, k, due, false⟩
    timed := n.timed + 1 }

/-- A book with the entry for the next timer. -/
def enterInBook (book : Nat → Nat × DeadlineId) (i k : Nat) (id : DeadlineId) (i' : Nat) :
    Nat × DeadlineId :=
  if i' = i then (k, id) else book i'

theorem get?_timers_withTimer (n : Node) (k : Nat) (w : Worker) (id : DeadlineId) (due i : Nat) :
    (n.withTimer k w id due).timers.get? i =
      if i = n.timed then some ⟨id, k, due, false⟩ else n.timers.get? i := by
  simp [withTimer, Dict.get?_insert]

theorem get?_workers_withTimer (n : Node) (k : Nat) (w : Worker) (id : DeadlineId) (due k' : Nat) :
    (n.withTimer k w id due).workers.get? k' =
      if k' = k then some { w with timers := w.timers.insert id.kind n.timed }
      else n.workers.get? k' :=
  n.get?_setWorker k k' _

theorem get?_timers_insert (w : Worker) (kind kind' : DeadlineKind) (i : Nat) :
    (w.timers.insert kind i).get? kind' = if kind' = kind then some i else w.timers.get? kind' := by
  simp [Dict.get?_insert]

theorem Booked.withTimer (h : n.Booked book) (hk : n.workers.get? k = some w) (id : DeadlineId)
    (due : Nat) : (n.withTimer k w id due).Booked (enterInBook book n.timed k id) := by
  -- what is in the book already is about earlier numbers
  have hold {i : Nat} (hi : i < n.timed) : i < n.timed + 1 ∧
      enterInBook book n.timed k id i = book i :=
    ⟨Nat.lt_succ_of_lt hi, if_neg (Nat.ne_of_lt hi)⟩
  have hnew : n.timed < n.timed + 1 ∧ enterInBook book n.timed k id n.timed = (k, id) :=
    ⟨Nat.lt_succ_self _, if_pos rfl⟩
  refine ⟨fun i timer htimer => ?_, fun k' w' kind i hk' hi => ?_, fun k' w' i mail hk' hmail => ?_⟩
  · rw [get?_timers_withTimer] at htimer
    split at htimer
    next heq =>
      subst heq
      cases htimer
      exact hnew
    next =>
      obtain ⟨hi, hentry⟩ := h.timer i timer htimer
      exact ⟨(hold hi).1, (hold hi).2.trans hentry⟩
  · rw [get?_workers_withTimer] at hk'
    have hlisted {w₀ : Worker} (hw₀ : n.workers.get? k' = some w₀)
        (hi : w₀.timers.get? kind = some i) : i < n.timed + 1 ∧
          (enterInBook book n.timed k id i).1 = k' ∧
          (enterInBook book n.timed k id i).2.kind = kind := by
      obtain ⟨hlt, hentry⟩ := h.listed k' w₀ kind i hw₀ hi
      exact ⟨(hold hlt).1, by rw [(hold hlt).2]; exact hentry⟩
    split at hk'
    next heq =>
      cases hk'
      change (w.timers.insert id.kind n.timed).get? kind = some i at hi
      rw [get?_timers_insert] at hi
      split at hi
      next hkind =>
        cases hi
        exact ⟨hnew.1, by rw [hnew.2]; exact ⟨heq.symm, hkind.symm⟩⟩
      next => exact hlisted (heq ▸ hk) hi
    next => exact hlisted hk' hi
  · rw [get?_workers_withTimer] at hk'
    have hlined {w₀ : Worker} (hw₀ : n.workers.get? k' = some w₀)
        (hmail : (.timer i, mail) ∈ w₀.mailbox.line) : i < n.timed + 1 ∧
          mail = .alarm (enterInBook book n.timed k id i).2 := by
      obtain ⟨hlt, hentry⟩ := h.lined k' w₀ i mail hw₀ hmail
      exact ⟨(hold hlt).1, by rw [(hold hlt).2]; exact hentry⟩
    split at hk'
    next heq =>
      cases hk'
      have hbefore : (.timer i, mail) ∈ w.mailbox.line := hmail
      exact hlined (heq ▸ hk) hbefore
    next => exact hlined hk' hmail

/-- A timer can take the place of the one that was started last if that one is gone. -/
theorem Registered.withTimer (h : n.Registered) (hk : n.workers.get? k = some w) (due : Nat)
    (hgone : ∀ i timer, n.timers.get? i = some timer → timer.worker = k →
      timer.id.kind ≠ id.kind) : (n.withTimer k w id due).Registered := by
  intro i timer htimer
  rw [get?_timers_withTimer] at htimer
  rw [get?_workers_withTimer]
  split at htimer
  next heq =>
    cases htimer
    exact ⟨_, if_pos rfl, (get?_timers_insert ..).trans (by rw [if_pos rfl, heq])⟩
  next =>
    obtain ⟨w₀, hw₀, hi⟩ := h i timer htimer
    split
    next hworker =>
      rw [hworker, hk] at hw₀
      cases hw₀
      exact ⟨_, rfl, (get?_timers_insert ..).trans ((if_neg (hgone i timer htimer hworker)).trans hi)⟩
    next => exact ⟨w₀, hw₀, hi⟩

theorem Times.of_withTimer {due : Nat} (h : (n.withTimer k w id due).Times k' id') :
    (k' = k ∧ id' = id) ∨ n.Times k' id' := by
  obtain ⟨i, timer, htimer, rfl, rfl⟩ := h
  rw [get?_timers_withTimer] at htimer
  split at htimer
  next =>
    cases htimer
    exact .inl ⟨rfl, rfl⟩
  next => exact .inr ⟨i, timer, htimer, rfl, rfl⟩

theorem Minds.withTimer (h : n.Minds k' id') (hbook : n.Booked book)
    (hk : n.workers.get? k = some w) (id : DeadlineId) (due : Nat) :
    (n.withTimer k w id due).Minds k' id' := by
  rcases h with ⟨i, timer, htimer, hworker, hid, hruns⟩ | ⟨w', hk', hexpects⟩
  · refine .inl ⟨i, timer, ?_, hworker, hid, hruns⟩
    -- the next number is not in use yet
    have hne : i ≠ n.timed := Nat.ne_of_lt (hbook.timer i timer htimer).1
    exact (get?_timers_withTimer ..).trans ((if_neg hne).trans htimer)
  · refine .inr ?_
    rw [get?_workers_withTimer]
    split
    next heq =>
      rw [heq, hk] at hk'
      cases hk'
      exact ⟨_, rfl, hexpects⟩
    next => exact ⟨w', hk', hexpects⟩

theorem IsOpen.of_withTimer {due : Nat} (h : (n.withTimer k w id due).IsOpen k')
    (hk : n.workers.get? k = some w) : n.IsOpen k' := by
  have hset : (n.setWorker k { w with timers := w.timers.insert id.kind n.timed }).IsOpen k' := h
  exact hset.of_setWorker hk fun hrunning hkept => ⟨hrunning, hkept⟩

theorem minds_withTimer (n : Node) (k : Nat) (w : Worker) (id : DeadlineId) (due : Nat) :
    (n.withTimer k w id due).Minds k id :=
  .inl ⟨n.timed, ⟨id, k, due, false⟩, (get?_timers_withTimer ..).trans (if_pos rfl), rfl, rfl, rfl⟩

/-- A timer is started in the place of the one before. -/
theorem exists_calm_startTimer (now : Time) (id : DeadlineId) (after : Duration)
    (hk : n.workers.get? k = some w) :
    ∃ w', (n.stopTimer k id.kind).workers.get? k = some w' ∧
      Calm ((n.stopTimer k id.kind).withTimer k w' id (now.due after))
        (n.startTimer now k id after) := by
  obtain ⟨w', hk', -⟩ := (n.still_stopTimer k id.kind).present k w hk
  refine ⟨w', hk', ?_⟩
  unfold startTimer
  dsimp only
  rw [hk']
  exact ⟨rfl, rfl, rfl⟩

/-- What holds of timers after one has been started. -/
theorem Booked.startTimer (h : n.Booked book) (hregistered : n.Registered) (now : Time)
    (id : DeadlineId) (after : Duration) (hk : n.workers.get? k = some w) :
    (∃ book, (n.startTimer now k id after).Booked book) ∧
      (n.startTimer now k id after).Registered ∧ (n.startTimer now k id after).Minds k id ∧
      (∀ k' id', (n.startTimer now k id after).Times k' id' →
        (k' = k ∧ id' = id) ∨ (n.Times k' id' ∧ (k' = k → id'.kind ≠ id.kind))) ∧
      (∀ k', (n.startTimer now k id after).IsOpen k' → n.IsOpen k') ∧
      ∀ k' id', n.Minds k' id' → (k' = k → id'.kind ≠ id.kind) →
        (n.startTimer now k id after).Minds k' id' := by
  obtain ⟨w', hk', hcalm⟩ := exists_calm_startTimer now id after hk
  -- the old timer of that kind is gone before the new one is there
  have hstopped := h.stopTimer k id.kind
  refine ⟨⟨_, hcalm.booked (hstopped.withTimer hk' id _)⟩, ?_, ?_, fun k' id' htimes => ?_,
    fun k' hopen => ?_, fun k' id' hminds hother => ?_⟩
  · refine hcalm.registered ((hregistered.stopTimer k id.kind).withTimer hk' _ ?_)
    exact fun i timer htimer => (hregistered.of_stopTimer htimer).2
  · exact hcalm.minds_iff.2 (minds_withTimer ..)
  · exact (hcalm.times_iff.1 htimes).of_withTimer.imp_right hregistered.times_of_stopTimer
  · exact ((hcalm.isOpen_iff.1 hopen).of_withTimer hk').of_stopTimer
  · exact hcalm.minds_iff.2 ((hminds.stopTimer h hother).withTimer hstopped hk' id _)

end Node

end PeerTrade
