import PeerTrade.Proofs.Engine.Lengths
import PeerTrade.Proofs.Node.Dues

/-!
# Deadlines that are armed again

A worker sets the timer of a deadline with the length of the deadline, while the trade keeps the date
on which the deadline expires. A node that resumes the trade has only the date to go by, and sets a
timer for what is left until then. This module says how the two agree
(`Node.longer_lengths_last_longer`).

A timer goes by the time that has elapsed, and a date by the calendar. The two are compared between
moments at which both clocks have run at the same pace (`Time.Precedes`). The date of a deadline is
reckoned from the moment of its commit, but its timer is set only when the effects of the commit are
carried out. By as much as the worker is behind then, its timer is due later than the one of a node
that resumes the trade. Behind the end of the calendar the date is the one of the commit itself, and
the deadline has expired as soon as the trade is resumed.

What the clock of timers cannot name is not waited for. A length may be as long as that, but what is
left of a deadline never is on a clock whose range covers the calendar (`Time.Ample`).
-/

namespace PeerTrade

/-! ## Two clocks -/

namespace Time

/-- The clock of timers can name every moment that lies as far ahead as the calendar is long. -/
def Ample (t : Time) : Prop := Duration.calendar.nanos ≤ t.span.nanos

/-- A reading of both clocks and a later one, between which they have run at the same pace. What the
clock of timers can name reaches thirty years ahead at least, and no less far later on. -/
structure Precedes (a r : Time) : Prop where
  elapsed : a.elapsed ≤ r.elapsed
  date : r.date.nanos - a.date.nanos = r.elapsed - a.elapsed
  /-- The date is never read in a leap second. -/
  plain : a.date.leap = false ∧ r.date.leap = false
  span : Duration.farFuture.nanos ≤ a.span.nanos
  reach : a.elapsed + a.span.nanos ≤ r.elapsed + r.span.nanos

variable {a b r now : Time} {date expiresAt : Instant} {delay : Duration}

/-- What is left of a deadline is never too long for the clock of timers. -/
theorem Ample.due_remaining (h : now.Ample) (expiresAt date : Instant) :
    now.due (expiresAt.remaining date) = now.elapsed + (expiresAt.remaining date).nanos := by
  rw [due, if_pos (Nat.le_trans (expiresAt.nanos_remaining_le date) h)]

/-- A timer that is set later for what is left of a wait is due no earlier, but for the time by which
what is left falls short. -/
theorem Precedes.due_le_due {delay' : Duration} {behind : Nat} (h : a.Precedes r)
    (hleft : delay'.nanos = a.elapsed + delay.nanos - (r.elapsed + behind)) :
    a.due delay ≤ r.due delay' + behind := by
  obtain ⟨hpassed, -, -, hspan, hreach⟩ := h
  rw [due, due]
  -- if what is left cannot be named, then the whole wait could not be named either
  split <;> split <;> omega

/-- A timer that is set anew for what is left of a deadline is not due before one that was set with
its whole length, but for the time that had passed by then since the date from which it is
reckoned. -/
theorem Precedes.due_le_after (ha : a.Precedes r) (hb : b.Precedes r) (hdate : b.date = date)
    (hreaches : date.Reaches delay) (hlate : date.nanos ≤ a.date.nanos) :
    (a.due delay : Int) ≤ r.due ((date.after delay).remaining r.date) +
      (a.date.nanos - date.nanos) := by
  have hplain : date.leap = false := hdate ▸ hb.plain.1
  have hexpires : (date.after delay).nanos = date.nanos + delay.nanos := by
    rw [Instant.nanos_after hreaches, Instant.nanosAfter_of_plain hplain]
  have hleft : ((date.after delay).remaining r.date).nanos =
      (date.nanos + delay.nanos - r.date.nanos).toNat := by
    rw [Instant.nanos_remaining (Instant.leap_after hplain delay) ha.plain.2, hexpires]
  have hpace := ha.date
  have hdue : a.due delay ≤ r.due ((date.after delay).remaining r.date) +
      (a.date.nanos - date.nanos).toNat := ha.due_le_due (by omega)
  omega

/-- Setting a timer anew for what is left of a deadline does not make it due any earlier. -/
theorem Precedes.due_le_remaining (ha : a.Precedes r) (hplain : expiresAt.leap = false) :
    a.due (expiresAt.remaining a.date) ≤ r.due (expiresAt.remaining r.date) := by
  have hpassed := ha.elapsed
  have hpace := ha.date
  show _ ≤ r.due (expiresAt.remaining r.date) + 0
  refine ha.due_le_due ?_
  rw [Instant.nanos_remaining hplain ha.plain.1, Instant.nanos_remaining hplain ha.plain.2]
  omega

end Time

namespace Node

/-- The time of an action at which the clocks are read. -/
def Action.time? : Action → Option Time
  | .step now _ | .launch now _ | .resume now _ => some now
  | _ => none

/-- The times of some actions. -/
abbrev times (actions : List Action) : List Time := actions.filterMap Action.time?

theorem times_concat (actions : List Action) (a : Action) :
    times (actions ++ [a]) = times actions ++ a.time?.toList := by
  rw [times, List.filterMap_append, List.filterMap_cons]
  cases a.time? <;> rfl

variable {n : Node} {x x' y y' : Watched} {a : Action} {actions : List Action} {k i : Nat}
  {w w' : Worker} {t₀ v : Trade} {timer : Timer} {d : Deadline}

/-! ## A worker and its timers -/

/-- How it comes that a timer for a deadline is due at some time: a worker has set it with the
length of the deadline, which is reckoned from the date of an event, or it was set with what was left
when the trade was taken on. -/
inductive Reckoned (settings : DeadlineSettings) (times : List Time) (t₀ : Trade) (stream : Stream)
    (d : Deadline) (due : Nat) : Prop where
  | armed {a : Time} {date : Instant} {event : Event} : a ∈ times → (date, event) ∈ stream →
      d.expiresAt = date.after (settings.duration d.id.kind) →
      due = a.due (settings.duration d.id.kind) → Reckoned settings times t₀ stream d due
  | rearmed {a : Time} : a ∈ times → d ∈ t₀.deadlines.values →
      due = a.due (d.expiresAt.remaining a.date) → Reckoned settings times t₀ stream d due

theorem Reckoned.append {settings : DeadlineSettings} {ts : List Time} {stream : Stream} {due : Nat}
    (h : Reckoned settings ts t₀ stream d due) (ts' : List Time) (later : Stream) :
    Reckoned settings (ts ++ ts') t₀ (stream ++ later) d due := by
  cases h with
  | armed ha hevent hexpires hdue =>
    exact .armed (List.mem_append_left _ ha) (List.mem_append_left _ hevent) hexpires hdue
  | rearmed ha hd hdue => exact .rearmed (List.mem_append_left _ ha) hd hdue

/-- The timers of a worker agree with the deadlines of its trade, as far as it has carried out what
is to be done about them. -/
structure InTime (x : Watched) (ts : List Time) (k : Nat) (w : Worker) (t₀ : Trade) : Prop where
  /-- The worker reads its mail at the times of the run. -/
  dates : ∀ date event, (date, event) ∈ Mail.stream (x.journal k).read → ∃ a ∈ ts, a.date = date
  /-- What is still to be armed stands in the trade. -/
  arming : ∀ id after, .arm id after ∈ w.pending →
    after = x.node.engine.deadlines.duration id.kind ∧
      ∃ date event, (date, event) ∈ Mail.stream (x.journal k).read ∧
        w.trade.deadline? id.kind =
          some ⟨id, date.after (x.node.engine.deadlines.duration id.kind)⟩
  /-- A timer about which nothing is left to do is for the deadline of its kind. -/
  armed : ∀ i timer, x.node.timers.get? i = some timer → timer.worker = k →
    (∀ e ∈ w.pending, ¬e.Concerns timer.id.kind) → ∀ d, w.trade.deadline? timer.id.kind = some d →
      d.id = timer.id ∧ Reckoned x.node.engine.deadlines ts t₀ (Mail.stream (x.journal k).read) d
        timer.due

theorem date_of_heard {date : Instant} {mail : Mail} (h : n.heard k a = some (date, mail)) :
    ∃ now, a.time? = some now ∧ now.date = date := by
  cases a with
  | step now actor =>
    cases actor with
    | worker k' =>
      refine ⟨now, rfl, ?_⟩
      obtain ⟨w, -, h⟩ := Option.bind_eq_some_iff.1 h
      split at h
      · obtain ⟨mail', -, heq⟩ := Option.map_eq_some_iff.1 h
        cases heq
        rfl
      · cases h
    | _ => cases h
  | _ => cases h

/-- A worker carries something out and leaves its trade alone, or it commits an event. -/
theorem carries_or_commits (hlinear : Linear x) (hact : x.act a = some x')
    (hk : x.node.workers.get? k = some w) (hk' : x'.node.workers.get? k = some w') :
    (w'.trade = w.trade ∧ w.pending = x.node.done k a ++ w'.pending) ∨
      ∃ now event caller c, a.time? = some now ∧
        x.node.heard k a = some (now.date, .event event caller) ∧
        x.node.engine.handle now.date w.trade event = (w'.trade, .committed c) ∧
        w.pending = [] ∧ x.node.done k a = [] ∧ w'.pending = c.effects := by
  obtain ⟨w'', hk'', hturn⟩ := hlinear.turn hact hk
  cases hk'.symm.trans hk''
  obtain ⟨n', hn', rfl⟩ := Option.map_eq_some_iff.1 hact
  have hproceeds := proceeds_of_act hn' hlinear.get?_started hk hk'
  have htrade := hturn.trade_eq
  rw [Proceeds] at hproceeds
  cases hheard : x.node.heard k a with
  | none =>
    rw [hheard] at htrade hproceeds
    exact .inl ⟨htrade, (List.append_nil _).symm.trans hproceeds⟩
  | some entry =>
    obtain ⟨date, mail⟩ := entry
    obtain ⟨now, htime, rfl⟩ := date_of_heard hheard
    obtain ⟨hchores, hdone⟩ := chores_of_heard hheard hk
    rw [hheard] at htrade hproceeds
    cases mail with
    | inspect c => exact .inl ⟨htrade, (List.append_nil _).symm.trans hproceeds⟩
    | persistFailed f attempt => exact .inl ⟨htrade, (List.append_nil _).symm.trans hproceeds⟩
    | event e caller =>
      have hstream : Mail.stream (some (now.date, Mail.event e caller)).toList = [(now.date, e)] :=
        rfl
      rw [hstream] at htrade hproceeds
      cases houtcome : x.node.engine.handle now.date w.trade e with
      | mk t' o =>
        rw [Engine.run_cons, houtcome] at htrade
        obtain rfl : w'.trade = t' := htrade
        cases o with
        | rejected r =>
          rw [Engine.history_cons_of_rejected houtcome] at hproceeds
          exact .inl ⟨Engine.eq_of_rejected houtcome, (List.append_nil _).symm.trans hproceeds⟩
        | committed c =>
          have hpending : w.pending = [] := by rw [Worker.pending, hchores]; rfl
          rw [Engine.history_cons_of_committed houtcome, hpending, hdone] at hproceeds
          exact .inr ⟨now, e, caller, c, htime, rfl, houtcome, hpending, hdone,
            (hproceeds.symm.trans (List.append_nil _))⟩

/-- Nothing in a trade is armed by an effect that there is not. -/
theorem deadline?_of_quiet {e : Engine} {now : Instant} {t t' : Trade} {event : Event} {c : Commit}
    {kind : DeadlineKind} (hkeyed : Trade.Keyed t.deadlines)
    (hcommit : e.handle now t event = (t', .committed c))
    (hquiet : ∀ effect ∈ c.effects, ¬effect.Concerns kind) (hd : t'.deadline? kind = some d) :
    t.deadline? kind = some d := by
  have hkeyed' : Trade.Keyed t'.deadlines := by
    have hrun := Engine.keyed_run hkeyed e [(now, event)]
    rwa [Engine.run_cons, hcommit] at hrun
  have hentry := Dict.get?_eq_some_iff.1 hd
  have hkind : d.id.kind = kind := hkeyed' _ hentry
  obtain ⟨tr, -, rfl, rfl⟩ := Engine.exists_commit_of_handle hcommit
  rcases Engine.of_mem_values_commit (List.mem_map.2 ⟨_, hentry, rfl⟩) with hold | ⟨harm, -⟩
  · obtain ⟨⟨kind', d'⟩, hentry', rfl⟩ := List.mem_map.1 hold
    obtain rfl : kind' = kind := (hkeyed _ hentry').symm.trans hkind
    exact Dict.get?_eq_some_iff.2 hentry'
  · exact absurd hkind (hquiet _ harm)

/-- What a worker has still to arm stands in its trade. -/
theorem InTime.arming_act {ts : List Time} (h : InTime x ts k w t₀) (hlinear : Linear x)
    (hact : x.act a = some x') (hk : x.node.workers.get? k = some w)
    (hk' : x'.node.workers.get? k = some w') {id : DeadlineId} {after : Duration}
    (harm : .arm id after ∈ w'.pending) :
    after = x.node.engine.deadlines.duration id.kind ∧
      ∃ date event, (date, event) ∈ Mail.stream (x'.journal k).read ∧
        w'.trade.deadline? id.kind =
          some ⟨id, date.after (x.node.engine.deadlines.duration id.kind)⟩ := by
  rw [(journal_of_act hlinear hact hk).2, Mail.stream_append]
  rcases carries_or_commits hlinear hact hk hk' with
    ⟨htrade, hpending⟩ | ⟨now, event, caller, c, -, hheard, hcommit, -, -, hpending⟩
  · obtain ⟨hafter, date, event, hevent, hd⟩ :=
      h.arming id after (hpending ▸ List.mem_append_right _ harm)
    exact ⟨hafter, date, event, List.mem_append_left _ hevent, htrade ▸ hd⟩
  · obtain ⟨hafter, hd⟩ := Engine.deadline?_of_arm hcommit (hpending ▸ harm)
    refine ⟨hafter, now.date, event, List.mem_append_right _ ?_, hd⟩
    rw [hheard]
    exact List.mem_singleton.2 rfl

/-- A timer of before still agrees with what its worker has armed, unless something is to be done
about it. -/
theorem InTime.armed_before {ts : List Time} (h : InTime x ts k w t₀) (hlinear : Linear x)
    (hact : x.act a = some x') (hk : x.node.workers.get? k = some w)
    (hk' : x'.node.workers.get? k = some w') (hkeyed : Trade.Keyed w.trade.deadlines)
    (htimer : x.node.timers.get? i = some timer) (hworker : timer.worker = k)
    (huntouched : ∀ m ∈ Effect.moves (x.node.done k a), m.kind ≠ timer.id.kind)
    (hquiet : ∀ e ∈ w'.pending, ¬e.Concerns timer.id.kind)
    (hd : w'.trade.deadline? timer.id.kind = some d) :
    d.id = timer.id ∧ Reckoned x.node.engine.deadlines ts t₀ (Mail.stream (x.journal k).read) d
      timer.due := by
  rcases carries_or_commits hlinear hact hk hk' with
    ⟨htrade, hpending⟩ | ⟨now, event, caller, c, -, -, hcommit, hnone, -, hpending⟩
  · refine h.armed i timer htimer hworker (fun e he hconcerns => ?_) d (htrade ▸ hd)
    rw [hpending] at he
    rcases List.mem_append.1 he with hdone | hleft
    · obtain ⟨m, hm, hkind⟩ := Effect.concerns_iff.1 hconcerns
      exact huntouched m (List.mem_filterMap.2 ⟨e, hdone, hm⟩) hkind
    · exact hquiet e hleft hconcerns
  · rw [hpending] at hquiet
    refine h.armed i timer htimer hworker (fun e he => ?_) d
      (deadline?_of_quiet hkeyed hcommit hquiet hd)
    rw [hnone] at he
    exact absurd he List.not_mem_nil

/-- A timer that a worker sets is for a deadline of its trade, and due by the length of it. -/
theorem InTime.armed_anew {ts : List Time} (h : InTime x ts k w t₀) (hlinear : Linear x)
    (hact : x.act a = some x') (hk : x.node.workers.get? k = some w)
    (hk' : x'.node.workers.get? k = some w') (hsets : x.node.Sets a timer)
    (hworker : timer.worker = k) (hd : w'.trade.deadline? timer.id.kind = some d) :
    d.id = timer.id ∧ Reckoned x.node.engine.deadlines (ts ++ a.time?.toList) t₀
      (Mail.stream (x.journal k).read) d timer.due := by
  -- a trade that is taken on is not the one of this worker
  have hnew : timer.worker ≠ x.node.started := by
    rintro heq
    rw [← hworker, heq, hlinear.get?_started] at hk
    cases hk
  cases hsets with
  | @armed now k' id after ha hdone heq =>
    subst ha heq hworker
    rcases carries_or_commits hlinear hact hk hk' with
      ⟨htrade, hpending⟩ | ⟨_, _, _, _, -, -, -, -, hnone, -⟩
    · obtain ⟨rfl, date, event, hevent, harmed⟩ :=
        h.arming id after (hpending ▸ List.mem_append_left _ hdone)
      rw [htrade, harmed] at hd
      cases hd
      exact ⟨rfl, .armed (List.mem_append_right _ List.mem_cons_self) hevent rfl rfl⟩
    · rw [hnone] at hdone
      exact absurd hdone List.not_mem_nil
  | launched _ _ heq => exact absurd (congrArg Timer.worker heq) hnew
  | resumed _ _ _ heq => exact absurd (congrArg Timer.worker heq) hnew

/-- What a worker has read is from the times of the run. -/
theorem InTime.dates_act {ts : List Time} (h : InTime x ts k w t₀) (hlinear : Linear x)
    (hact : x.act a = some x') (hk : x.node.workers.get? k = some w) {date : Instant}
    {event : Event} (hevent : (date, event) ∈ Mail.stream (x'.journal k).read) :
    ∃ b ∈ ts ++ a.time?.toList, b.date = date := by
  rw [(journal_of_act hlinear hact hk).2, Mail.stream_append] at hevent
  rcases List.mem_append.1 hevent with hold | hnew
  · obtain ⟨b, hb, hdate⟩ := h.dates date event hold
    exact ⟨b, List.mem_append_left _ hb, hdate⟩
  · obtain ⟨⟨date', mail⟩, hmem, hmail⟩ := List.mem_filterMap.1 hnew
    obtain ⟨now, htime, hdate⟩ := date_of_heard (Option.mem_toList.1 hmem)
    refine ⟨now, List.mem_append_right _ (Option.mem_toList.2 htime), hdate.trans ?_⟩
    cases mail <;> cases hmail
    rfl

/-- A worker that goes on sets its timers by the deadlines that it has to arm. -/
theorem InTime.act {ts : List Time} (h : InTime x ts k w t₀) (hlinear : Linear x)
    (hpunctual : x.node.Punctual) (hact : x.act a = some x') (hk : x.node.workers.get? k = some w)
    (hk' : x'.node.workers.get? k = some w') (hkeyed : Trade.Keyed w.trade.deadlines) :
    InTime x' (ts ++ a.time?.toList) k w' t₀ := by
  have hengine := (hlinear.extends_of_act hact).engine
  refine ⟨fun date event hevent => h.dates_act hlinear hact hk hevent, fun id after harm => ?_,
    fun i timer htimer hworker hquiet d hd => ?_⟩
  · rw [hengine]
    exact h.arming_act hlinear hact hk hk' harm
  · rw [hengine, (journal_of_act hlinear hact hk).2, Mail.stream_append]
    rcases (Watched.keepsTime_of_act hpunctual hact).timers i timer htimer with
      ⟨before, hbefore, ⟨sending, rfl⟩, huntouched⟩ | ⟨-, hsets⟩
    · obtain ⟨hid, hreckoned⟩ :=
        h.armed_before hlinear hact hk hk' hkeyed hbefore hworker (hworker ▸ huntouched) hquiet hd
      exact ⟨hid, hreckoned.append _ _⟩
    · obtain ⟨hid, hreckoned⟩ := h.armed_anew hlinear hact hk hk' hsets hworker hd
      exact ⟨hid, List.append_nil (ts ++ _) ▸ hreckoned.append [] _⟩

theorem eq_of_kind_eq (hkeyed : Trade.Keyed v.deadlines) {d' : Deadline}
    (hd : d ∈ v.deadlines.values) (hd' : v.deadline? d.id.kind = some d') : d' = d := by
  obtain ⟨⟨kind, d⟩, hentry, rfl⟩ := List.mem_map.1 hd
  obtain rfl : d.id.kind = kind := hkeyed _ hentry
  exact Option.some.inj (hd'.symm.trans (Dict.get?_eq_some_iff.2 hentry))

/-- A worker that begins has the timers of the trade that was taken on. -/
theorem inTime_of_begins (ts : List Time) (hpunctual : x.node.Punctual)
    (hact : x.act a = some x') (hk : x.node.workers.get? k = none)
    (hk' : x'.node.workers.get? k = some w) (hkeyed : Trade.Keyed w.trade.deadlines) :
    InTime x' (ts ++ a.time?.toList) k w w.trade := by
  obtain ⟨hbegins, -, hchores, -⟩ := Watched.begins_of_act hact hk hk'
  have hkeeps := Watched.keepsTime_of_act hpunctual hact
  obtain ⟨n', -, rfl⟩ := Option.map_eq_some_iff.1 hact
  have hpending : w.pending = [] := by rw [Worker.pending, hchores]; rfl
  have hread : ((x.note a n').journal k).read = [] := by
    show ((x.journal k).note _ _ _).read = []
    rw [hk, show n'.workers.get? k = some w from hk']
    rfl
  refine ⟨fun date event hevent => ?_, fun id after harm => ?_,
    fun i timer htimer hworker _ d hd => ?_⟩
  · rw [hread] at hevent
    exact absurd hevent List.not_mem_nil
  · rw [hpending] at harm
    exact absurd harm List.not_mem_nil
  · rcases hkeeps.timers i timer htimer with
      ⟨before, hbefore, ⟨sending, rfl⟩, -⟩ | ⟨-, hsets⟩
    · -- there were no timers of a worker that was not there
      obtain ⟨w₀, hw₀, -⟩ := hpunctual.2 i before hbefore
      rw [show before.worker = k from hworker, hk] at hw₀
      cases hw₀
    · have hset {now : Time} {d' : Deadline} (htime : a.time? = some now)
          (hd' : d' ∈ w.trade.deadlines.values) (heq : timer = timerFor now x.node.started d') :
          d.id = timer.id ∧ Reckoned (x.note a n').node.engine.deadlines (ts ++ a.time?.toList)
            w.trade (Mail.stream ((x.note a n').journal k).read) d timer.due := by
        subst heq
        obtain rfl := eq_of_kind_eq hkeyed hd' hd
        exact ⟨rfl, .rearmed (List.mem_append_right _ (Option.mem_toList.2 htime)) hd' rfl⟩
      cases hsets with
      | armed ha hdone heq =>
        subst ha heq hworker
        rw [done, hk] at hdone
        exact absurd hdone List.not_mem_nil
      | launched ha hd' heq =>
        cases hbegins with
        | launched ha' _ =>
          cases ha.symm.trans ha'
          exact hset (ha ▸ rfl) hd' heq
        | resumed ha' _ _ => cases ha.symm.trans ha'
      | resumed ha hrestore hd' heq =>
        cases hbegins with
        | launched ha' _ => cases ha.symm.trans ha'
        | resumed ha' hrestore' _ =>
          cases ha.symm.trans ha'
          cases hrestore.symm.trans hrestore'
          exact hset (ha ▸ rfl) hd' heq

/-- In every run, the timers of the workers agree with the deadlines of their trades. -/
theorem inTime_of_run {name : String} {engine : Engine} {settings : WorkerSettings}
    {backend : Backend} {identity : Peer}
    (h : (Watched.new name engine settings backend identity).Run actions x)
    (hk : x.node.workers.get? k = some w) (horigin : (x.journal k).origin = some t₀)
    (hkeyed : Trade.Keyed t₀.deadlines) : InTime x (times actions) k w t₀ := by
  induction h generalizing k w t₀ with
  | nil => cases hk
  | @concat actions x₁ x₂ a hrun hact ih =>
    have hontime : OnTime x₁ := Watched.Reachable.onTime ⟨_, _, _, _, _, _, hrun⟩
    rw [times_concat]
    cases hk₁ : x₁.node.workers.get? k with
    | none =>
      -- the worker has just begun, with the trade that was taken on
      obtain ⟨-, -, -, hbegun⟩ := Watched.begins_of_act hact hk₁ hk
      cases hbegun.symm.trans horigin
      exact inTime_of_begins _ hontime.punctual hact hk₁ hk hkeyed
    | some w₁ =>
      have horigin₁ := (journal_of_act hontime.linear hact hk₁).1.symm.trans horigin
      have hkeyed₁ : Trade.Keyed w₁.trade.deadlines := by
        obtain ⟨t₁, ht₁, hshown⟩ := (hontime.linear.straight k w₁ hk₁).follows.trade
        cases horigin₁.symm.trans ht₁
        rw [hshown]
        exact Engine.keyed_run hkeyed _ _
      exact (ih hk₁ horigin₁ hkeyed).act hontime.linear hontime.punctual hact hk₁ hk hkeyed₁

/-! ## Trades that are resumed -/

/-- A trade that is resumed has a timer for each of its deadlines, set to what is left of it. -/
theorem Watched.Reachable.exists_timer_of_resume {r : Time} (h : y.Reachable)
    (hkeyed : Trade.Keyed v.deadlines) (hact : y.act (.resume r v.toSnapshot) = some y')
    (hd : d ∈ v.deadlines.values) :
    ∃ i, y'.node.timers.get? i = some (timerFor r y.node.started d) := by
  obtain ⟨n', hn', rfl⟩ := Option.map_eq_some_iff.1 hact
  obtain ⟨t, ht, hstart⟩ := Option.bind_eq_some_iff.1 hn'
  -- a snapshot lists the deadlines without their kinds, under which they are put back
  have hdeadlines : t.deadlines = v.deadlines := by
    obtain ⟨-, -, protocol, -, -, rfl⟩ :=
      Trade.restore_eq_ok_iff.1 (Checks.toOption_eq_some_iff.1 ht)
    exact hkeyed.ofList_values
  rw [← hdeadlines] at hkeyed hd
  obtain ⟨timers, first, -, -, htimers⟩ :=
    (h.counted.takesOn hkeyed (Checks.toOption_eq_some_iff.1 hstart)).takenOn.worker
  obtain ⟨j, hj⟩ := List.mem_iff_getElem?.1 hd
  exact ⟨first + j, ((htimers _ _).2 ⟨j, d, hj, rfl, rfl⟩).1⟩

theorem due_le_of_stepTimer {now : Time} (h : (n.stepTimer now i).isSome = true) :
    ∃ timer, n.timers.get? i = some timer ∧ timer.due ≤ now.elapsed := by
  obtain ⟨n', hstep⟩ := Option.isSome_iff_exists.1 h
  obtain ⟨timer, htimer, hstep⟩ := Option.bind_eq_some_iff.1 hstep
  split at hstep
  · cases hstep
  next hdue => exact ⟨timer, htimer, Nat.not_lt.1 hdue⟩

theorem isSome_stepTimer {now : Time} (htimer : n.timers.get? i = some timer)
    (hsending : timer.sending = false) (hdue : timer.due ≤ now.elapsed) :
    (n.stepTimer now i).isSome = true := by
  unfold stepTimer
  rw [htimer, Option.bind_eq_bind, Option.bind_some, if_neg (Nat.not_lt.2 hdue), hsending]
  dsimp only
  split <;> rfl

/-- Nothing makes a timer fire earlier than it was set to. -/
theorem due_le_of_run {now : Time} {more : List Action} (hontime : OnTime x)
    (htimer : x.node.timers.get? i = some timer) (hrun : x.Run more y)
    (hstep : (y.node.act (.step now (.timer i))).isSome = true) : timer.due ≤ now.elapsed := by
  -- the place of a timer is not given to another one, and what it is set to does not change
  have hkept : OnTime y ∧ i < y.node.timed ∧
      ∀ later, y.node.timers.get? i = some later → later.due = timer.due := by
    refine hrun.keeps (P := fun y => OnTime y ∧ i < y.node.timed ∧
      ∀ later, y.node.timers.get? i = some later → later.due = timer.due) ?_ ?_
    · obtain ⟨book, hbook⟩ := hontime.punctual.1
      refine ⟨hontime, (hbook.timer i timer htimer).1, fun later hlater => ?_⟩
      cases htimer.symm.trans hlater
      rfl
    · rintro y a y' ⟨hontime, hlt, hdue⟩ hact
      have hkeeps := Watched.keepsTime_of_act hontime.punctual hact
      refine ⟨hontime.act hact, Nat.lt_of_lt_of_le hlt hkeeps.timed, fun later hlater => ?_⟩
      rcases hkeeps.timers i later hlater with ⟨before, hbefore, ⟨_, rfl⟩, -⟩ | ⟨hnew, -⟩
      · exact hdue before hbefore
      · exact absurd hlt (Nat.not_lt.2 hnew)
  obtain ⟨later, hlater, hdue⟩ := due_le_of_stepTimer hstep
  rwa [hkept.2.2 later hlater] at hdue

/-- Whoever resumes a trade that has some deadline, later on and at a node of its own, does not act on
the expiry of the deadline before some time. -/
def ResumesNoEarlier (ts : List Time) (d : Deadline) (earliest : Int) : Prop :=
  ∀ (y y' : Watched) (r : Time) (v : Trade), y.Reachable → Trade.Keyed v.deadlines →
    d ∈ v.deadlines.values → (∀ a ∈ ts, a.Precedes r) →
    y.act (.resume r v.toSnapshot) = some y' →
    ∃ i, y'.node.timers.get? i = some (timerFor r y.node.started d) ∧
      ∀ more z now, y'.Run more z → (z.node.act (.step now (.timer i))).isSome = true →
        earliest ≤ now.elapsed

/-- It is enough that the timer is set to no earlier time. -/
theorem resumesNoEarlier_of_due {ts : List Time} {earliest : Int}
    (hdue : ∀ r k, (∀ a ∈ ts, a.Precedes r) → earliest ≤ (timerFor r k d).due) :
    ResumesNoEarlier ts d earliest := by
  intro y y' r v hy hkeyed hd hprecedes hact
  have hontime : OnTime y' := hy.onTime.act hact
  obtain ⟨i, htimer⟩ := hy.exists_timer_of_resume hkeyed hact hd
  refine ⟨i, htimer, fun more z now hrun hstep => ?_⟩
  exact Int.le_trans (hdue r _ hprecedes)
    (Int.ofNat_le.2 (due_le_of_run hontime htimer hrun hstep))

/-! ## Longer lengths -/

/-- A deadline that was armed on a date, under some settings and under others with longer lengths. -/
structure LastsLonger (s s' : DeadlineSettings) (date : Instant) (d d' : Deadline) : Prop where
  id : d'.id = d.id
  shorter : d.expiresAt = date.after (s.duration d.id.kind)
  longer : d'.expiresAt = date.after (s'.duration d.id.kind)
  /-- The longer one expires no earlier, if the calendar reaches so far. -/
  expires : date.Reaches (s'.duration d.id.kind) → d.expiresAt ≤ d'.expiresAt
  /-- There is no moment at which less is left of it. No clock is read in a leap second. -/
  remaining : date.Reaches (s'.duration d.id.kind) → date.leap = false →
    ∀ now : Instant, now.leap = false → d.expiresAt.remaining now ≤ d'.expiresAt.remaining now
  /-- A timer that is set for it at the same moment is due no earlier. -/
  due : date.Reaches (s'.duration d.id.kind) → date.leap = false →
    ∀ now : Time, now.date.leap = false → now.Ample →
      ∀ k k', (timerFor now k d).due ≤ (timerFor now k' d').due
  /-- Behind the end of the calendar the length counts for nothing. -/
  unreached : ¬date.Reaches (s'.duration d.id.kind) → d'.expiresAt = date

section Lengths

variable {e : Engine} {s s' : DeadlineSettings} {stream : Stream} {date : Instant}

/-- What is armed on a date lasts longer if its length is longer. -/
theorem lastsLonger_of_le (hle : ∀ kind, s.secs kind ≤ s'.secs kind) (id : DeadlineId) :
    LastsLonger s s' date ⟨id, date.after (s.duration id.kind)⟩
      ⟨id, date.after (s'.duration id.kind)⟩ := by
  have hmono (hreaches : date.Reaches (s'.duration id.kind)) :
      date.after (s.duration id.kind) ≤ date.after (s'.duration id.kind) :=
    Instant.after_mono hreaches (DeadlineSettings.duration_mono (hle _))
  have hremaining (hreaches : date.Reaches (s'.duration id.kind)) (hplain : date.leap = false)
      {now : Instant} (hnow : now.leap = false) :
      ((date.after (s.duration id.kind)).remaining now).nanos ≤
        ((date.after (s'.duration id.kind)).remaining now).nanos :=
    Instant.remaining_mono (Instant.leap_after hplain _) (Instant.leap_after hplain _) hnow
      (hmono hreaches)
  refine ⟨rfl, rfl, rfl, hmono, fun hreaches hplain now hnow => hremaining hreaches hplain hnow,
    fun hreaches hplain now hnow hample k k' => ?_, Instant.after_of_not_reaches⟩
  -- both waits can be named, since no more can be left than the calendar is long
  simp only [timerFor, hample.due_remaining]
  exact Nat.add_le_add_left (hremaining hreaches hplain hnow) _

/-- The event that has armed a deadline arms it with a longer length as well. Whatever the guards
look at, the event was selected before it was armed. -/
theorem exists_lastsLonger_of_armedOn (hle : ∀ kind, s.secs kind ≤ s'.secs kind)
    (h : (e.under s).ArmedOn v stream date d) :
    ∃ before event after d', stream = before ++ (date, event) :: after ∧
      ((e.under s).handle date ((e.under s).run v before).1 event).1.deadline? d.id.kind = some d ∧
      ((e.under s').handle date ((e.under s).run v before).1 event).1.deadline? d.id.kind = some d' ∧
      LastsLonger s s' date d d' := by
  obtain ⟨before, event, after, hstream, harmed⟩ := h.under
  have hd : (⟨d.id, date.after (s.duration d.id.kind)⟩ : Deadline) = d :=
    congrArg (Deadline.mk d.id) h.expiresAt.symm
  refine ⟨before, event, after, _, hstream, hd ▸ harmed s, harmed s', ?_⟩
  exact hd ▸ lastsLonger_of_le hle d.id

/-- Every deadline that a trade has armed under some settings is armed under longer ones as well, if
no guard looks at the clock. -/
theorem exists_lastsLonger_of_timeless (hle : ∀ kind, s.secs kind ≤ s'.secs kind)
    {created : Instant} {id : String} {combination : Combination} {terms : Terms}
    {counterparty : Peer} (hcreate : e.create created id combination terms counterparty = .ok v)
    (htimeless : v.protocol.Timeless e.context) {kind : DeadlineKind}
    (hd : ((e.under s).run v stream).1.deadline? kind = some d) :
    ∃ date event d', (date, event) ∈ stream ∧
      ((e.under s').run v stream).1.deadline? kind = some d' ∧ LastsLonger s s' date d d' := by
  obtain ⟨date, event, hevent, hall⟩ := Engine.exists_date_of_run hcreate htimeless hd
  have hd : d = ⟨d.id, date.after (s.duration d.id.kind)⟩ := Option.some.inj (hd.symm.trans (hall s))
  refine ⟨date, event, _, hevent, hall s', ?_⟩
  rw [hd]
  exact lastsLonger_of_le hle d.id

end Lengths

/-! ## The result -/

/-- The timer of a worker waits no longer than those that are set for the deadline when its trade is
resumed afterwards. -/
inductive WaitsNoLonger (settings : DeadlineSettings) (ts : List Time) (t₀ : Trade)
    (stream : Stream) (d : Deadline) (due : Nat) : Prop where
  /-- The timer was set for what was left when the trade was taken on. No trade that was read from a
  record has a deadline that expires in a leap second. -/
  | rearmed {a : Time} : a ∈ ts → d ∈ t₀.deadlines.values →
      due = a.due (d.expiresAt.remaining a.date) →
      (d.expiresAt.leap = false → ResumesNoEarlier ts d due) →
      WaitsNoLonger settings ts t₀ stream d due
  /-- The timer was set with the length of the deadline. This is reckoned from the date of an event,
  so that whatever had passed since then is what the timer may be behind. -/
  | armed {a : Time} {date : Instant} {event : Event} : a ∈ ts → (date, event) ∈ stream →
      d.expiresAt = date.after (settings.duration d.id.kind) →
      due = a.due (settings.duration d.id.kind) →
      (date.Reaches (settings.duration d.id.kind) → date.nanos ≤ a.date.nanos →
        ResumesNoEarlier ts d (due - (a.date.nanos - date.nanos))) →
      WaitsNoLonger settings ts t₀ stream d due

theorem Reckoned.waitsNoLonger {settings : DeadlineSettings} {ts : List Time} {stream : Stream}
    {due : Nat} (h : Reckoned settings ts t₀ stream d due)
    (hdates : ∀ date event, (date, event) ∈ stream → ∃ b ∈ ts, b.date = date) :
    WaitsNoLonger settings ts t₀ stream d due := by
  cases h with
  | @rearmed a ha hold hdue =>
    refine .rearmed ha hold hdue fun hplain => resumesNoEarlier_of_due fun r k hprecedes => ?_
    rw [hdue]
    exact Int.ofNat_le.2 ((hprecedes a ha).due_le_remaining hplain)
  | @armed a date event ha hevent hexpires hdue =>
    refine .armed ha hevent hexpires hdue fun hreaches hlate =>
      resumesNoEarlier_of_due fun r k hprecedes => ?_
    obtain ⟨b, hb, hdate⟩ := hdates date event hevent
    have hle := (hprecedes a ha).due_le_after (hprecedes b hb) hdate hreaches hlate
    rw [hdue, timerFor, hexpires]
    exact Int.sub_right_le_of_le_add hle

/-- How long a deadline lasts. A shift of the clock is carried out exactly as far as the calendar
reaches, and as far as that a longer one leads to a later instant; any other is not carried out.
Whatever event has armed a deadline of a trade would have armed it under longer lengths too, and
unless the calendar ends first there would never be less left of it, so that its timer is due no
earlier whenever the trade is resumed. If no guard looks at the clock, a run under longer lengths
comes to the same trade with the same deadlines, each of them armed on the same date. A trade that is
resumed gets a timer for what is left of each of its deadlines. It does not fire before the timer that
a node had set for the deadline while it ran the trade, except by the time that had passed until then
since the date from which the deadline is reckoned. -/
theorem longer_lengths_last_longer :
    (∀ (t : Instant) (delay : Duration),
      (t.Reaches delay →
        (t.after delay).nanos = t.nanosAfter delay ∧ (t.after delay).leap = t.lingers delay) ∧
      (t.leap = false → t.nanosAfter delay = t.nanos + delay.nanos ∧ t.lingers delay = false) ∧
      (¬t.Reaches delay → t.after delay = t) ∧
      ∀ delay', delay ≤ delay' → t.Reaches delay' → t.after delay ≤ t.after delay') ∧
    (∀ (e : Engine) (s s' : DeadlineSettings) (created : Instant) (id : String)
        (combination : Combination) (terms : Terms) (counterparty : Peer) (t : Trade)
        (stream : Stream),
      (∀ kind, s.secs kind ≤ s'.secs kind) →
      e.create created id combination terms counterparty = .ok t →
      let u := ((e.under s).run t stream).1
      let u' := ((e.under s').run t stream).1
      Trade.Keyed u.deadlines ∧ Trade.Keyed u'.deadlines ∧
        (∀ d ∈ u.deadlines.values, ∃ before date event after d',
          stream = before ++ (date, event) :: after ∧
          let v := ((e.under s).run t before).1
          ((e.under s).handle date v event).1.deadline? d.id.kind = some d ∧
            ((e.under s').handle date v event).1.deadline? d.id.kind = some d' ∧
            LastsLonger s s' date d d') ∧
        (t.protocol.Timeless e.context → u.Retimed u' ∧
          ∀ kind d, u.deadline? kind = some d → ∃ date event d', (date, event) ∈ stream ∧
            u'.deadline? kind = some d' ∧ LastsLonger s s' date d d')) ∧
    (∀ (y y' : Watched) (r : Time) (v : Trade), y.Reachable → Trade.Keyed v.deadlines →
      y.act (.resume r v.toSnapshot) = some y' → ∀ d ∈ v.deadlines.values,
        ∃ i, y'.node.timers.get? i = some (timerFor r y.node.started d) ∧
          (r.Ample → (timerFor r y.node.started d).due =
            r.elapsed + (d.expiresAt.remaining r.date).nanos)) ∧
    ∀ (name : String) (engine : Engine) (settings : WorkerSettings) (backend : Backend)
        (identity : Peer) (actions : List Action) (x : Watched) (k : Nat) (w : Worker) (t₀ : Trade)
        (i : Nat) (timer : Timer) (d : Deadline),
      (Watched.new name engine settings backend identity).Run actions x →
      x.node.workers.get? k = some w → (x.journal k).origin = some t₀ →
      Trade.Keyed t₀.deadlines → x.node.timers.get? i = some timer → timer.worker = k →
      (∀ e ∈ w.pending, ¬e.Concerns timer.id.kind) →
      w.trade.deadline? timer.id.kind = some d →
      d.id = timer.id ∧ WaitsNoLonger x.node.engine.deadlines (times actions) t₀
        (Mail.stream (x.journal k).read) d timer.due := by
  refine ⟨fun t delay => ⟨fun hreaches => Instant.shift?_eq_some_iff.1 hreaches.shift?_eq,
    fun hplain => ⟨Instant.nanosAfter_of_plain hplain delay, Instant.lingers_of_plain hplain delay⟩,
    Instant.after_of_not_reaches, fun delay' hle hreaches => Instant.after_mono hreaches hle⟩,
    ?_, ?_, ?_⟩
  · intro e s s' created id combination terms counterparty t stream hle hcreate
    have hkeyed : Trade.Keyed t.deadlines := by
      obtain ⟨-, -, protocol, -, rfl⟩ := Trade.create_eq_ok_iff.1 hcreate
      exact Trade.keyed_empty
    refine ⟨Engine.keyed_run hkeyed _ _, Engine.keyed_run hkeyed _ _, fun d hd => ?_,
      fun htimeless => ⟨Engine.run_under_retimed hcreate htimeless s s' stream,
        fun kind d hd => exists_lastsLonger_of_timeless hle hcreate htimeless hd⟩⟩
    obtain ⟨date, harmed⟩ := Engine.exists_armedOn_of_create (e := e.under s) hcreate hd
    obtain ⟨before, event, after, d', hlasts⟩ := exists_lastsLonger_of_armedOn hle harmed
    exact ⟨before, date, event, after, d', hlasts⟩
  · intro y y' r v hy hkeyed hact d hd
    obtain ⟨i, htimer⟩ := hy.exists_timer_of_resume hkeyed hact hd
    exact ⟨i, htimer, fun hample => hample.due_remaining d.expiresAt r.date⟩
  · intro name engine settings backend identity actions x k w t₀ i timer d hrun hk horigin hkeyed
      htimer hworker hquiet hd
    have hintime := inTime_of_run hrun hk horigin hkeyed
    obtain ⟨hid, hreckoned⟩ := hintime.armed i timer htimer hworker hquiet d hd
    exact ⟨hid, hreckoned.waitsNoLonger hintime.dates⟩

/-! ## A timer that is set late -/

/-- Some seconds after the start of both clocks. -/
def atSecond (seconds : UInt64) : Time :=
  ⟨Instant.epoch.after (.ofSecs seconds), (Duration.ofSecs seconds).nanos, .longest⟩

/-- A new node with the default settings. -/
def newNode : Watched :=
  .new "a" { registry := .standard, verifier := { accepts := fun _ _ _ => true } } {} {} ⟨"taker"⟩

/-- The offer is taken. -/
def takeOffer : Event := .command ⟨"take", .takeOffer, [], []⟩

/-- The offer is taken, and a second passes before the timer for its answer is set. -/
def takenSlowly : List Action :=
  [.launch (atSecond 0) openOffer, .call 0 (.dispatch takeOffer)] ++
    List.replicate 3 (.step (atSecond 0) (.worker 0)) ++
      List.replicate 2 (.step (atSecond 1) (.worker 0))

/-- The deadline for the answer to the offer. -/
def answerDeadline : Deadline := ⟨answerDue, (atSecond 120).date⟩

theorem exists_takenSlowly :
    ∃ (x : Watched) (w : Worker), newNode.Run takenSlowly x ∧ x.node.workers.get? 0 = some w ∧
      (x.journal 0).origin = some openOffer ∧
      Mail.stream (x.journal 0).read = [(.epoch, takeOffer)] ∧ x.node.engine.deadlines = {} ∧
      x.node.timers.get? 0 = some ⟨answerDue, 0, 121000000000, false⟩ ∧ w.pending = [] ∧
      w.trade.deadline? .takeOfferResponse = some answerDeadline ∧
      Trade.Keyed w.trade.deadlines ∧
      ∀ r, ∃ y', newNode.act (.resume r w.trade.toSnapshot) = some y' := by
  obtain ⟨x, w, hplay, hk, horigin, hread, hsettings, htimer, hpending, hd, hshown⟩ :
      ∃ (x : Watched) (w : Worker), newNode.play takenSlowly = some x ∧
        x.node.workers.get? 0 = some w ∧ (x.journal 0).origin = some openOffer ∧
        Mail.stream (x.journal 0).read = [(.epoch, takeOffer)] ∧ x.node.engine.deadlines = {} ∧
        x.node.timers.get? 0 = some ⟨answerDue, 0, 121000000000, false⟩ ∧ w.pending = [] ∧
        w.trade.deadline? .takeOfferResponse = some answerDeadline ∧
        w.trade = (newNode.node.engine.run openOffer [(.epoch, takeOffer)]).1 :=
    ⟨_, _, rfl, rfl, rfl, rfl, rfl, rfl, rfl, rfl, rfl⟩
  have hrestorable : w.trade.Restorable .standard :=
    hshown ▸ (lived_openOffer.run _ _).restorable
  refine ⟨x, w, Watched.run_of_play hplay, hk, horigin, hread, hsettings, htimer, hpending, hd,
    hrestorable.keyed, fun r => ?_⟩
  have hact : newNode.node.act (.resume r w.trade.toSnapshot) =
      (newNode.node.start r w.trade true).toOption := by
    have hrestore : newNode.node.engine.restore w.trade.toSnapshot = .ok w.trade :=
      hrestorable.restore_toSnapshot
    rw [act, hrestore]
    rfl
  rw [Watched.act, hact]
  exact ⟨_, rfl⟩

theorem times_takenSlowly : times takenSlowly =
    List.replicate 4 (atSecond 0) ++ List.replicate 2 (atSecond 1) := rfl

theorem precedes_minute : ∀ a ∈ times takenSlowly, a.Precedes (atSecond 60) := by
  intro a ha
  rw [times_takenSlowly] at ha
  rcases List.mem_append.1 ha with ha | ha <;> cases List.eq_of_mem_replicate ha <;>
    exact ⟨by decide, by decide, by decide, by decide, by decide⟩

/-- A minute after the offer was taken, the trade is resumed: the timer for the answer is due two
minutes after it was taken, a second before the timer that was set late. With ten minutes for the
answer it would be due after ten minutes. -/
theorem answer_is_awaited_on :
    ∃ (x y' : Watched) (w : Worker) (i : Nat), newNode.Run takenSlowly x ∧
      x.node.workers.get? 0 = some w ∧
      x.node.timers.get? 0 = some ⟨answerDue, 0, 121000000000, false⟩ ∧
      newNode.act (.resume (atSecond 60) w.trade.toSnapshot) = some y' ∧
      y'.node.timers.get? i = some ⟨answerDue, 0, 120000000000, false⟩ ∧
      (∀ more z now, y'.Run more z → (z.node.act (.step now (.timer i))).isSome = true →
        120000000000 ≤ now.elapsed) ∧
      LastsLonger {} { takeOfferResponse := 600 } .epoch answerDeadline
        ⟨answerDue, (atSecond 600).date⟩ := by
  obtain ⟨x, w, hrun, hk, horigin, hread, hsettings, htimer, hpending, hd, hkeyed, hresume⟩ :=
    exists_takenSlowly
  obtain ⟨y', hact⟩ := hresume (atSecond 60)
  obtain ⟨-, hlonger, -, hlive⟩ := longer_lengths_last_longer
  -- what the run has set is no more than a second behind
  have hquiet : ∀ e ∈ w.pending, ¬e.Concerns .takeOfferResponse := by simp [hpending]
  obtain ⟨-, hwaits⟩ := hlive _ _ _ _ _ takenSlowly x 0 w openOffer 0 _ answerDeadline hrun hk
    horigin Trade.keyed_empty htimer rfl hquiet hd
  rw [hread, hsettings] at hwaits
  have hresumes : ResumesNoEarlier (times takenSlowly) answerDeadline 120000000000 := by
    cases hwaits with
    | rearmed _ hold => cases hold
    | @armed a date event ha hevent _ hdue hresumes =>
      cases List.mem_singleton.1 hevent
      rcases List.mem_append.1 (times_takenSlowly ▸ ha) with ha | ha <;>
        cases List.eq_of_mem_replicate ha
      · exact absurd hdue (by decide)
      · exact hresumes (Instant.reaches_iff.2 (by decide)) (by decide)
  obtain ⟨i, hresumed, hlater⟩ := hresumes newNode y' (atSecond 60) w.trade
    ⟨_, _, _, _, _, [], .nil⟩ hkeyed (List.mem_map.2 ⟨_, Dict.get?_eq_some_iff.1 hd, rfl⟩)
    precedes_minute hact
  have hcreate : newNode.node.engine.create .epoch "trade_1" ⟨.buyerAsTaker, .multisigEscrow⟩
      Trade.soundTerms ⟨"maker"⟩ = .ok openOffer :=
    Trade.create_soundTerms rfl Registry.lookup_multisigEscrow_buyerAsTaker
  have htimeless : openOffer.protocol.Timeless newNode.node.engine.context :=
    Protocol.BuiltIn.timeless (by decide) _
  obtain ⟨-, -, -, hlasts⟩ := hlonger newNode.node.engine {} { takeOfferResponse := 600 } .epoch
    "trade_1" _ _ _ openOffer [(.epoch, takeOffer)] (fun kind => by cases kind <;> decide) hcreate
  obtain ⟨date, event, d', hevent, hd', hlasts⟩ :=
    (hlasts htimeless).2 .takeOfferResponse answerDeadline rfl
  cases List.mem_singleton.1 hevent
  cases hd'
  exact ⟨x, y', w, i, hrun, hk, htimer, hact, hresumed,
    fun more z now hrun hstep => Int.ofNat_le.1 (hlater more z now hrun hstep), hlasts⟩

/-- A new node that resumes a trade acts on the expiry of the answer at a moment at which the first
timer of another node still waits for it. -/
def ActsAhead (x : Watched) (v : Trade) (r now : Time) : Prop :=
  ∃ y' i, newNode.act (.resume r v.toSnapshot) = some y' ∧
    (y'.node.timers.get? i).map (·.id) = some answerDue ∧
    (y'.node.act (.step now (.timer i))).isSome = true ∧
    (x.node.timers.get? 0).map (·.id) = some answerDue ∧
    x.node.act (.step now (.timer 0)) = none

theorem actsAhead_of_due {r now : Time}
    (htimer : x.node.timers.get? 0 = some ⟨answerDue, 0, 121000000000, false⟩)
    (hkeyed : Trade.Keyed v.deadlines)
    (hd : v.deadline? .takeOfferResponse = some answerDeadline)
    (hresume : ∃ y', newNode.act (.resume r v.toSnapshot) = some y')
    (hdue : (timerFor r 0 answerDeadline).due ≤ now.elapsed) (hlt : now.elapsed < 121000000000) :
    ActsAhead x v r now := by
  obtain ⟨y', hact⟩ := hresume
  have hnew : newNode.Reachable := ⟨_, _, _, _, _, [], .nil⟩
  have hmem : answerDeadline ∈ v.deadlines.values :=
    List.mem_map.2 ⟨_, Dict.get?_eq_some_iff.1 hd, rfl⟩
  obtain ⟨i, hresumed⟩ := hnew.exists_timer_of_resume hkeyed hact hmem
  refine ⟨y', i, hact, by rw [hresumed]; rfl, isSome_stepTimer hresumed rfl hdue,
    by rw [htimer]; rfl, ?_⟩
  cases hstep : x.node.act (.step now (.timer 0)) with
  | none => rfl
  | some n' =>
    obtain ⟨timer, htimer', hdue⟩ := due_le_of_stepTimer (Option.isSome_iff_exists.2 ⟨n', hstep⟩)
    cases htimer.symm.trans htimer'
    exact absurd hdue (Nat.not_le.2 hlt)

/-- With more seconds for the answer than the calendar reaches, the deadline expires as soon as the
offer is taken, and a trade that is resumed acts on that at once, where it would still wait with two
minutes. And without any of this, a trade that is resumed may act on the expiry at a moment at which
a timer that was set late still waits, and more so if its clock has been set ahead. -/
theorem more_seconds_can_be_less :
    Duration.ofSecs 120 ≤ .ofSecs 10000000000000 ∧
    ¬Instant.epoch.after (.ofSecs 120) ≤ Instant.epoch.after (.ofSecs 10000000000000) ∧
    (∃ d d' : Deadline,
      ((newNode.node.engine.under {}).run openOffer [(.epoch, takeOffer)]).1.deadline?
        .takeOfferResponse = some d ∧
      ((newNode.node.engine.under { takeOfferResponse := 10000000000000 }).run openOffer
        [(.epoch, takeOffer)]).1.deadline? .takeOfferResponse = some d' ∧
      (timerFor (atSecond 60) 0 d).due = (atSecond 120).elapsed ∧
      (timerFor (atSecond 60) 0 d').due = (atSecond 60).elapsed) ∧
    ∃ (x : Watched) (w : Worker), newNode.Run takenSlowly x ∧ x.node.workers.get? 0 = some w ∧
      ActsAhead x w.trade (atSecond 60) (atSecond 120) ∧
      ActsAhead x w.trade { atSecond 60 with date := (atSecond 120).date } (atSecond 60) := by
  have hle : (Duration.ofSecs 120).nanos ≤ (Duration.ofSecs 10000000000000).nanos := by decide
  refine ⟨hle, by decide, ⟨_, _, rfl, rfl, rfl, rfl⟩, ?_⟩
  obtain ⟨x, w, hrun, hk, -, -, -, htimer, -, hd, hkeyed, hresume⟩ := exists_takenSlowly
  exact ⟨x, w, hrun, hk,
    actsAhead_of_due htimer hkeyed hd (hresume _) (by decide) (by decide),
    actsAhead_of_due htimer hkeyed hd (hresume _) (by decide) (by decide)⟩

end Node

end PeerTrade
