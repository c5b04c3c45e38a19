import PeerTrade.Proofs.Engine.Overshoot
import PeerTrade.Proofs.Store.Periods
import PeerTrade.Proofs.Store.Requests

/-!
# One write for many requests

While a trade is pending, every request for it waits for the same write, which carries the newest of
its snapshots (`Store.Coalesced`). When its turn has come the writer takes the snapshot, and its next
step tells all of them what came of the write (`Store.Outcome`). Nobody is told twice, and nothing is
written that was not handed in again since it was last written (`Store.coalescing_is_exact_and_fair`).
A request whose snapshot has no stored form takes no part in any of this.
-/

namespace PeerTrade.Store

variable {s s' s₁ s₂ : Store} {b b' b₀ b₁ b₂ : Backend} {action : Action}
  {actions before during after : List Action} {id : String} {p : Pending} {held : Bool}

/-! ## Those who wait -/

/-- The tickets of the requests for a trade whose snapshots have a stored form, if the first request
of all gets a given number. -/
def covered (id : String) : Nat → List Trade → List Ticket
  | _, [] => []
  | number, t :: rs =>
    if t.id = id ∧ t.toSnapshot.encode.isOk = true then
      ⟨number, t.id, t.sequence⟩ :: covered id (number + 1) rs
    else covered id (number + 1) rs

theorem covered_append (id : String) (number : Nat) (rs rs' : List Trade) :
    covered id number (rs ++ rs') =
      covered id number rs ++ covered id (number + rs.length) rs' := by
  induction rs generalizing number with
  | nil => rfl
  | cons t rs ih =>
    have hnumber : number + (t :: rs).length = number + 1 + rs.length := by
      rw [List.length_cons]
      omega
    rw [hnumber, List.cons_append, covered, covered]
    split
    · rw [ih, List.cons_append]
    · exact ih _

theorem covered_singleton_of_ne {t : Trade} (hne : t.id ≠ id) (number : Nat) :
    covered id number [t] = [] := by
  simp [covered, hne]

/-- Every request gets a ticket, and nothing else does. -/
theorem issued_act (hact : s.act b action = some (s', b')) :
    s'.issued = s.issued + (requests [action]).length := by
  cases action with
  | schedule t =>
    cases hact
    exact (s.schedule_keeps t).2.2
  | flush =>
    cases hact
    unfold flush
    split <;> rfl
  | close =>
    cases hact
    rfl
  | behave b' =>
    cases hact
    rfl
  | write => exact issued_step hact

theorem Run.issued_eq (h : Run s b actions s' b') :
    s'.issued = s.issued + (requests actions).length := by
  induction h with
  | nil => rfl
  | concat _ hact ih =>
    rw [issued_act hact, ih, requests_append, List.length_append]
    omega

theorem waiters_schedule (hopen : s.closed = false) (t : Trade)
    (hsome : ((s.schedule t).1.pending.get? t.id).isSome) :
    waiters ((s.schedule t).1.pending.get? t.id) =
      waiters (s.pending.get? t.id) ++ covered t.id s.issued [t] := by
  by_cases hencode : ∃ record, t.toSnapshot.encode = .ok record
  · have hcovered : covered t.id s.issued [t] = [⟨s.issued, t.id, t.sequence⟩] := by
      simp [covered, isOk_encode_iff.2 hencode]
    obtain ⟨record, hrecord⟩ := hencode
    rw [hcovered]
    rw [(schedule_of_open hopen t).1 record hrecord] at hsome ⊢
    rcases enqueue_cases { s with issued := s.issued + 1 } ⟨s.issued, t.id, t.sequence⟩ record with
      ⟨-, p, hp, heq⟩ | ⟨-, hnone, heq⟩ | ⟨-, p, hp, heq⟩ | ⟨-, hnone, heq⟩
    · change s.pending.get? t.id = some p at hp
      rw [heq, Dict.get?_insert_self, hp]
      rfl
    · -- a superseded request does not make its trade pending
      rw [heq] at hsome
      exact absurd (hnone ▸ hsome) (by simp)
    · change s.pending.get? t.id = some p at hp
      rw [heq, Dict.get?_insert_self, hp]
      rfl
    · change s.pending.get? t.id = none at hnone
      rw [heq, Dict.get?_insert_self, hnone]
      rfl
  · have hcovered : covered t.id s.issued [t] = [] := by
      simp [covered, mt isOk_encode_iff.1 hencode]
    rw [hcovered, List.append_nil, (schedule_of_open hopen t).2 hencode]
    rfl

/-- A trade that is pending although it was not handed in was pending before, with the same snapshot
and the same requests. -/
theorem pending_act_of_ne (hother : ∀ t, action = .schedule t → t.id ≠ id)
    (hact : s.act b action = some (s', b')) (hsome : (s'.pending.get? id).isSome) :
    s'.pending.get? id = s.pending.get? id := by
  cases action with
  | schedule t =>
    cases hact
    exact (s.beside_schedule (hother t rfl)).pending
  | flush =>
    cases hact
    exact (s.beside_flush id).pending
  | close =>
    cases hact
    rfl
  | behave b' =>
    cases hact
    rfl
  | write =>
    rcases step_cases hact with ⟨hready, rfl, -⟩ | ⟨-, rfl, -⟩ | ⟨id', p, held, n, -, -, rfl⟩
    · have hcases : s.Beside (s.takeNext b) id ∨ ∃ p, s.Takes (s.takeNext b) id p :=
        beside_or_takes hready
      rcases hcases with hbeside | ⟨p, htakes⟩
      · exact hbeside.pending
      · rw [htakes.pending.2] at hsome
        cases hsome
    · rfl
    · obtain ⟨-, -, hpending, -⟩ :=
        s.finish_replies id' p ({ b with admitted := n }.write id' p.record).2
      rw [hpending]

theorem waiters_act (hopen : s.closed = false) (hact : s.act b action = some (s', b'))
    (hsome : (s'.pending.get? id).isSome) :
    waiters (s'.pending.get? id) =
      waiters (s.pending.get? id) ++ covered id s.issued (requests [action]) := by
  by_cases hscheduled : ∃ t, action = .schedule t ∧ t.id = id
  · obtain ⟨t, rfl, rfl⟩ := hscheduled
    cases hact
    exact waiters_schedule hopen t hsome
  · have hother : ∀ t, action = .schedule t → t.id ≠ id :=
      fun t ht hid => hscheduled ⟨t, ht, hid⟩
    have hnone : covered id s.issued (requests [action]) = [] := by
      cases action with
      | schedule t => exact covered_singleton_of_ne (hother t rfl) _
      | _ => rfl
    rw [pending_act_of_ne hother hact hsome, hnone, List.append_nil]

/-- In an open store all requests of a period wait that have a stored form, and nobody else does. -/
theorem Period.waiters_eq (h : Period id s b during s' b') (hopen : s'.closed = false) :
    waiters (s'.pending.get? id) = covered id s.issued (requests during) := by
  induction h with
  | begins hnone hact hsome =>
    have hopen := (Run.concat .nil hact).open_before hopen
    rw [waiters_act hopen hact hsome, hnone]
    rfl
  | goesOn hperiod hact hsome ih =>
    have hopen := (Run.concat .nil hact).open_before hopen
    rw [waiters_act hopen hact hsome, ih hopen, requests_append, covered_append,
      hperiod.run.issued_eq]

/-- A period begins with a request for its trade. -/
theorem Period.requested (h : Period id s b during s' b') :
    ∃ t rest, during = .schedule t :: rest ∧ t.id = id := by
  induction h with
  | @begins action s₁ b₁ hnone hact hsome =>
    by_contra hnot
    have hother : ∀ t, action = .schedule t → t.id ≠ id :=
      fun t ht hid => hnot ⟨t, [], by rw [ht], hid⟩
    rw [pending_act_of_ne hother hact hsome, hnone] at hsome
    cases hsome
  | goesOn _ _ _ ih =>
    obtain ⟨t, rest, rfl, hid⟩ := ih
    exact ⟨t, _, rfl, hid⟩

/-! ## The newest snapshot -/

/-- What is pending is the newest of all snapshots of its trade that can be stored. -/
theorem Run.newest_of_pending (h : Run {} b₀ actions s b) (hopen : s.closed = false)
    (hp : s.pending.get? id = some p) :
    ∃ t, Newest (storable (requests actions)) t ∧ t.id = id ∧ t.sequence = p.sequence ∧
      t.toSnapshot.encode = .ok p.record := by
  have hlatest := h.latest_storable hopen
  obtain ⟨hhighest, -⟩ := h.reachable.sound.pending id p hp
  cases hnewest : newest? (storable (requests actions)) id with
  | none =>
    rw [hlatest.unknown id hnewest] at hhighest
    cases hhighest
  | some t =>
    obtain ⟨hgreatest, record, hrecord, hholds⟩ := hlatest.newest id t hnewest
    obtain ⟨hid, hnewest⟩ := newest_of_newest?_eq_some hnewest
    rw [hhighest] at hgreatest
    refine ⟨t, hnewest, hid, (Option.some.inj hgreatest).symm, ?_⟩
    rw [hholds.pending p hp, hrecord]

/-! ## One answer for each ticket -/

/-- No ticket has two answers, or waits twice for the same snapshot. -/
structure Singly (s : Store) : Prop where
  answers : (s.answers.map (·.ticket.number)).Nodup
  pending : ∀ id p, s.pending.get? id = some p → (p.waiters.map (·.number)).Nodup
  writing : ∀ id p held, s.writer = .writing id p held → (p.waiters.map (·.number)).Nodup

theorem singly_new : Singly {} where
  answers := List.nodup_nil
  pending _ _ h := by cases h
  writing _ _ _ h := by cases h

/-- Answers may be added whose tickets had none. -/
theorem nodup_answers_append {given : List Answer} (h : (s.answers.map (·.ticket.number)).Nodup)
    (hgiven : (given.map (·.ticket.number)).Nodup)
    (hnew : ∀ a ∈ given, ¬s.Answered a.ticket.number) :
    ((s.answers ++ given).map (·.ticket.number)).Nodup := by
  rw [List.map_append]
  refine List.nodup_append.2 ⟨h, hgiven, fun n hn n' hn' heq => ?_⟩
  obtain ⟨a, ha, rfl⟩ := List.mem_map.1 hn
  obtain ⟨a', ha', rfl⟩ := List.mem_map.1 hn'
  exact hnew a' ha' ⟨a, ha, heq⟩

theorem Singly.reply (h : Singly s) (hapart : Apart s) (id : String) (sequence : UInt64)
    (result : Ticket → PersistResult) :
    Singly ({ s with issued := s.issued + 1 }.reply [⟨s.issued, id, sequence⟩] result) := by
  -- every ticket with an answer has a smaller number than the new one
  refine ⟨nodup_answers_append h.answers (List.pairwise_singleton _ _) fun a ha => ?_, h.pending,
    h.writing⟩
  rw [List.mem_singleton.1 ha]
  rintro ⟨a', ha', hnumber⟩
  exact absurd (hapart.given a' ha') (by simp [hnumber])

/-- A new ticket waits with those who wait already. -/
theorem Singly.join (h : Singly s) (hapart : Apart s) (ticket : Ticket) {q : Pending}
    (hnew : ticket.number = s.issued)
    (hq : q.waiters = waiters (s.pending.get? ticket.tradeId) ++ [ticket])
    (hpending : s'.pending = s.pending.insert ticket.tradeId q) (hwriter : s'.writer = s.writer)
    (hanswers : s'.answers = s.answers) : Singly s' := by
  have hjoined : (q.waiters.map (·.number)).Nodup := by
    rw [hq, List.map_append]
    cases hp : s.pending.get? ticket.tradeId with
    | none => exact List.pairwise_singleton _ _
    | some p =>
      refine List.nodup_append.2
        ⟨h.pending _ p hp, List.pairwise_singleton _ _, fun n hn n' hn' heq => ?_⟩
      obtain ⟨w, hw, rfl⟩ := List.mem_map.1 hn
      have hearlier : w.number < s.issued := (hapart.waiting w (.inl ⟨_, p, hp, hw⟩)).1
      have hlater : n' = s.issued := (List.mem_singleton.1 hn').trans hnew
      omega
  refine ⟨hanswers ▸ h.answers, fun id p hp => ?_, hwriter ▸ h.writing⟩
  rw [hpending, Dict.get?_insert] at hp
  split at hp
  · cases hp
    exact hjoined
  · exact h.pending id p hp

theorem Singly.schedule (h : Singly s) (hapart : Apart s) (t : Trade) :
    Singly (s.schedule t).1 := by
  rcases s.schedule_cases t with ⟨failure, heq⟩ | ⟨record, -, heq⟩
  · rw [heq]
    exact h.reply hapart _ _ _
  · rw [heq]
    -- the ticket waits with those who wait already, or alone, or is answered at once
    rcases enqueue_cases { s with issued := s.issued + 1 } ⟨s.issued, t.id, t.sequence⟩ record with
      ⟨-, p, hp, heq⟩ | ⟨-, -, heq⟩ | ⟨-, p, hp, heq⟩ | ⟨-, hnone, heq⟩
    · change s.pending.get? t.id = some p at hp
      rw [heq]
      exact h.join hapart ⟨s.issued, t.id, t.sequence⟩ rfl (by rw [hp]; rfl) rfl rfl rfl
    · rw [heq]
      exact h.reply hapart _ _ _
    · change s.pending.get? t.id = some p at hp
      rw [heq]
      exact h.join hapart ⟨s.issued, t.id, t.sequence⟩ rfl (by rw [hp]; rfl) rfl rfl rfl
    · change s.pending.get? t.id = none at hnone
      rw [heq]
      exact h.join hapart ⟨s.issued, t.id, t.sequence⟩ rfl (by rw [hnone]; rfl) rfl rfl rfl

theorem Singly.takeNext (h : Singly s) (b : Backend) : Singly (s.takeNext b) := by
  rcases s.takeNext_cases b with ⟨id, order, p, -, hp, heq⟩ | ⟨order, -, heq⟩
  · rw [heq]
    refine ⟨h.answers, fun id' q hq => ?_, fun id' q held hq => ?_⟩
    · rw [Dict.get?_erase] at hq
      split at hq
      · cases hq
      · exact h.pending id' q hq
    · -- those who wait for the write have waited for the pending snapshot
      cases hq
      exact h.pending id p hp
  · obtain ⟨flushing, writer, hquiet, -, hrest⟩ := rest_eq { s with order }
    rw [heq, hrest]
    refine ⟨h.answers, h.pending, fun id p held hwriter => ?_⟩
    rcases hquiet with rfl | rfl <;> cases hwriter

theorem Singly.finish (h : Singly s) (hapart : Apart s) (hwriter : s.writer = .writing id p held)
    (result : WriteResult) : Singly (s.finish id p result) := by
  obtain ⟨told, hanswers, hpending, -⟩ := s.finish_replies id p result
  refine ⟨?_, hpending ▸ h.pending, fun id' p' held' hwriter' => ?_⟩
  · -- who waits for the write has no answer yet
    rw [hanswers]
    refine nodup_answers_append h.answers ?_ fun a ha => ?_
    · rw [List.map_map]
      exact h.writing id p held hwriter
    · exact (hapart.waiting _ (.inr ⟨id, p, held, hwriter, (mem_replies ha).1⟩)).2
  · cases result <;> cases hwriter'

theorem Singly.act (h : Singly s) (hapart : Apart s) (hact : s.act b action = some (s', b')) :
    Singly s' := by
  cases action with
  | schedule t =>
    cases hact
    exact h.schedule hapart t
  | flush =>
    cases hact
    unfold flush
    split
    · exact h
    · exact ⟨h.answers, h.pending, h.writing⟩
  | close =>
    cases hact
    exact ⟨h.answers, h.pending, h.writing⟩
  | behave b' =>
    cases hact
    exact h
  | write =>
    rcases step_cases hact with ⟨-, rfl, -⟩ | ⟨-, rfl, -⟩ | ⟨id, p, held, n, hwriter, -, rfl⟩
    · exact h.takeNext b
    · exact ⟨h.answers, h.pending, nofun⟩
    · exact h.finish hapart hwriter _

theorem Reachable.singly (h : Reachable s b) : Singly s := by
  induction h with
  | start b => exact singly_new
  | act hreach hact ih => exact ih.act hreach.apart hact

/-! ## What comes of a write -/

/-- The backend has not answered a write yet, and neither has anybody been told who waits for it. -/
structure UnderWay (id : String) (p : Pending) (held : Bool) (s s' : Store) : Prop where
  writer : s'.writer = .writing id p held
  attempts : s'.attempts = s.attempts
  unanswered : ∀ w ∈ p.waiters, s'.answer? w = none

theorem Reachable.underWay (h : Reachable s' b') (hwriter : s'.writer = .writing id p held)
    (hattempts : s'.attempts = s.attempts) : UnderWay id p held s s' :=
  ⟨hwriter, hattempts, fun w hw =>
    answer?_eq_none_iff.2 (h.apart.waiting w (.inr ⟨id, p, held, hwriter, hw⟩)).2⟩

/-- All who wait for a write are told the same: that it succeeded, or why it failed, and then at the
sequence that was written. -/
def Told (id : String) (p : Pending) (succeeded : Bool) (s : Store) : Prop :=
  ∃ result, (∀ w ∈ p.waiters, s.answer? w = some result) ∧
    if succeeded then result = .ok () else ∃ cause, result = .error ⟨id, p.sequence, cause⟩

theorem Told.act {succeeded : Bool} (h : Told id p succeeded s)
    (hact : s.act b action = some (s', b')) : Told id p succeeded s' := by
  obtain ⟨result, htold, hresult⟩ := h
  obtain ⟨⟨given, hgiven⟩, -⟩ := answers_grow hact
  refine ⟨result, fun w hw => ?_, hresult⟩
  rw [answer?_append (answered_of_answer? (htold w hw)) hgiven, htold w hw]

/-- The backend answers a write: it has put the record in place, or left its records as they were. -/
structure Concludes (id : String) (p : Pending) (succeeded : Bool) (s s' : Store) (b b' : Backend) :
    Prop where
  finishes : s.Finishes s' id p succeeded
  records : b'.records = if succeeded then b.records.insert id p.record else b.records

theorem records_write (b : Backend) (id : String) (record : Bytes) :
    (b.write id record).1.records =
      if (b.write id record).2 = .written then b.records.insert id record else b.records := by
  unfold Backend.write
  split
  · rfl
  · split <;> rfl

theorem exists_concludes (hwriter : s.writer = .writing id p held) (hquiet : b.breaks = false)
    (hact : s.act b .write = some (s', b')) : ∃ succeeded, Concludes id p succeeded s s' b b' := by
  rcases step_cases hact with ⟨hready, -⟩ | ⟨hparked, -⟩ | ⟨id', p', held', n, hwriter', hb', hs'⟩
  · rw [hwriter] at hready
    cases hready
  · rw [hwriter] at hparked
    cases hparked
  · rw [hwriter] at hwriter'
    cases hwriter'
    have halive : s'.writer ≠ .dead := by
      rw [(finish_of_steady hquiet s id p n hs').1]
      exact nofun
    subst hs' hb'
    obtain ⟨succeeded, hfinishes, hsucceeded⟩ := finishes_of_finish hwriter halive
    refine ⟨succeeded, hfinishes, ?_⟩
    rw [records_write]
    exact if_congr hsucceeded.symm rfl rfl

/-- What has become of a write that was begun: it is under way until the writer takes a step, and that
step tells all who wait for it, and nobody else, what came of it. -/
inductive Outcome (id : String) (p : Pending) (held : Bool) (s : Store) (b : Backend)
    (after : List Action) (s' : Store) (b' : Backend) : Prop where
  | underWay : writes after = 0 → UnderWay id p held s s' → Outcome id p held s b after s' b'
  | over (early late : List Action) (s₁ s₂ : Store) (b₁ b₂ : Backend) (succeeded : Bool) :
      after = early ++ .write :: late → writes early = 0 →
      Run s b early s₁ b₁ → UnderWay id p held s s₁ →
      s₁.act b₁ .write = some (s₂, b₂) → Concludes id p succeeded s₁ s₂ b₁ b₂ →
      Run s₂ b₂ late s' b' → Told id p succeeded s' → Outcome id p held s b after s' b'

/-- Nobody but the writer touches its write. -/
theorem writer_act_of_ne (hact : s.act b action = some (s', b')) (hother : action ≠ .write) :
    s'.writer = s.writer ∧ s'.attempts = s.attempts := by
  cases action with
  | schedule t =>
    cases hact
    exact (s.schedule_same t).symm
  | flush =>
    cases hact
    unfold flush
    split <;> exact ⟨rfl, rfl⟩
  | close =>
    cases hact
    exact ⟨rfl, rfl⟩
  | behave b' =>
    cases hact
    exact ⟨rfl, rfl⟩
  | write => exact absurd rfl hother

theorem UnderWay.told {succeeded : Bool} (h : UnderWay id p held s s₁)
    (hfinishes : s₁.Finishes s₂ id p succeeded) : Told id p succeeded s₂ := by
  obtain ⟨result, hanswers, hresult⟩ := hfinishes.answers
  exact ⟨result, fun w hw => answer?_of_told (answer?_eq_none_iff.1 (h.unanswered w hw)) hw hanswers,
    hresult⟩

theorem Outcome.of_run (hrun : Run s b after s' b') (hreach : Reachable s b)
    (hwriter : s.writer = .writing id p held) (hsteady : Steady b after) :
    Outcome id p held s b after s' b' := by
  -- once the write is over only the answers matter, and these are final
  induction hrun with
  | nil => exact .underWay rfl (hreach.underWay hwriter rfl)
  | @concat actions s₁ s₂ b₁ b₂ action hrun hact ih =>
    rcases ih hsteady.of_append with ⟨hnone, hunderWay⟩ |
      ⟨early, late, s₃, s₄, b₃, b₄, succeeded, rfl, hnone, hearly, hunderWay, hwrite,
        hconcludes, hlate, htold⟩
    · by_cases hwrite : action = .write
      · subst hwrite
        obtain ⟨succeeded, hconcludes⟩ := exists_concludes hunderWay.writer
          (hrun.breaks_eq_false hsteady.of_append) hact
        exact .over actions [] s₁ s₂ b₁ b₂ succeeded rfl hnone hrun hunderWay hact hconcludes .nil
          (hunderWay.told hconcludes.finishes)
      · obtain ⟨hsame, hattempts⟩ := writer_act_of_ne hact hwrite
        have hstill : writes (actions ++ [action]) = 0 := by
          rw [writes_append, hnone]
          cases action with
          | write => exact absurd rfl hwrite
          | _ => rfl
        exact .underWay hstill ((hreach.trans (hrun.concat hact)).underWay
          (hsame.trans hunderWay.writer) (hattempts.trans hunderWay.attempts))
    · exact .over early (late ++ [action]) s₃ s₄ b₃ b₄ succeeded (by simp) hnone hearly hunderWay hwrite
        hconcludes (hlate.concat hact) (htold.act hact)

/-! ## Exactness and fairness -/

/-- How many writes the backend has not answered yet. -/
def inFlight (s : Store) : Nat :=
  match s.writer with
  | .writing .. => 1
  | _ => 0

/-- Whatever hands in a snapshot leaves the counter of the writes alone. -/
theorem physicalWrites_schedule (s : Store) (t : Trade) :
    (s.schedule t).1.physicalWrites = s.physicalWrites := by
  rcases s.schedule_cases t with ⟨failure, heq⟩ | ⟨record, -, heq⟩
  · rw [heq]
    rfl
  · rw [heq]
    rcases enqueue_cases { s with issued := s.issued + 1 } ⟨s.issued, t.id, t.sequence⟩ record with
      ⟨-, p, -, heq⟩ | ⟨-, -, heq⟩ | ⟨-, p, -, heq⟩ | ⟨-, -, heq⟩ <;> simp [heq, reply]

/-- The counter of the writes counts those that the backend has answered. -/
theorem Reachable.physicalWrites_eq (h : Reachable s b) :
    s.physicalWrites = s.attempts.length := by
  apply h.induction (P := fun s => s.physicalWrites = s.attempts.length) rfl
  intro s b action s' b' ih hact
  cases action with
  | schedule t =>
    cases hact
    rw [physicalWrites_schedule, (s.schedule_same t).1, ih]
  | flush =>
    cases hact
    unfold flush
    split <;> exact ih
  | close =>
    cases hact
    exact ih
  | behave b' =>
    cases hact
    exact ih
  | write =>
    rcases step_cases hact with ⟨-, rfl, -⟩ | ⟨-, rfl, -⟩ | ⟨id, p, held, n, -, -, rfl⟩
    · rcases s.takeNext_cases b with ⟨id, order, p, -, -, heq⟩ | ⟨order, -, heq⟩
      · rw [heq]
        exact ih
      · obtain ⟨flushing, writer, -, -, hrest⟩ := rest_eq { s with order }
        rw [heq, hrest]
        exact ih
    · exact ih
    · -- a write is counted when it is answered, and a broken one never is
      cases ({ b with admitted := n }.write id p.record).2 <;> simp [finish, ih, reply]

/-- The writes that were counted are those that were begun, up to the one under way. -/
theorem Reachable.length_started (h : Reachable s b) :
    s.started.length = s.physicalWrites + s.inFlight := by
  rw [h.physicalWrites_eq]
  unfold started begun inFlight
  cases s.writer <;> simp

/-- How a trade is pending in a period. A request for it has begun the period. What is pending is the
newest of its snapshots that can be stored, and exactly the requests of the period wait for it whose
snapshots can be. In front of the trade are those that were pending before it. As long as it is pending
the writer can go on, unless the backend holds its write back. -/
structure Coalesced (id : String) (before during : List Action) (s₀ s : Store) (b : Backend)
    (p : Pending) : Prop where
  requested : ∃ t rest, during = .schedule t :: rest ∧ t.id = id
  pending : s.pending.get? id = some p
  newest : ∃ t, Newest (storable (requests (before ++ during))) t ∧ t.id = id ∧
    t.sequence = p.sequence ∧ t.toSnapshot.encode = .ok p.record
  waiters : p.waiters = covered id (requests before).length (requests during)
  line : ∀ other, other ∈ s₀.order ↔ (s₀.pending.get? other).isSome
  turn : InTurn id s₀ during s
  awake : (s.act b .write).isSome ∨ b.admitted = 0 ∧ ∃ id p, s.writer = .writing id p true

/-- How a period ends: the writer takes the snapshot, after as many of its steps as it had left when
the period began. Since then it has begun a write for every trade that was in line, each once and in
their order, and then the one for this trade. -/
structure Ends (id : String) (during : List Action) (s₀ : Store) (p : Pending) (held : Bool)
    (action : Action) (s' : Store) (b' : Backend) : Prop where
  write : action = .write
  started : s'.started = s₀.started ++ s₀.order ++ [id]
  once : (s₀.order ++ [id]).Nodup
  steps : writes (during ++ [action]) = 2 * s₀.order.length + s₀.lag
  outcome : ∀ after s'' b'', Run s' b' after s'' b'' → Steady b' after →
    Outcome id p held s' b' after s'' b''

variable {s₀ : Store}

theorem Period.coalesced (hperiod : Period id s₀ b₁ during s b) (hbefore : Run {} b₀ before s₀ b₁)
    (hsteady : Steady b₀ (before ++ during)) (hopen : s.closed = false)
    (hp : s.pending.get? id = some p) : Coalesced id before during s₀ s b p := by
  have hrun := hbefore.trans hperiod.run
  have hwaiters := hperiod.waiters_eq hopen
  rw [hp, hbefore.issued_eq, Nat.zero_add] at hwaiters
  have hbusy : s.order ≠ [] := by
    have hin := (isSome_iff_mem_order hrun.reachable).1 hperiod.isSome
    exact List.ne_nil_of_mem hin
  exact {
    requested := hperiod.requested
    pending := hp
    newest := hrun.newest_of_pending hopen hp
    waiters := hwaiters
    line := fun other => (isSome_iff_mem_order hbefore.reachable).symm
    turn := hperiod.inTurn hbefore hsteady
    awake := hrun.reachable.goes_on hopen (hrun.alive hsteady) hbusy }

theorem Period.ends (hperiod : Period id s₀ b₁ during s b) (hbefore : Run {} b₀ before s₀ b₁)
    (hsteady : Steady b₀ (before ++ during)) (hp : s.pending.get? id = some p)
    (hact : s.act b action = some (s', b')) (hnone : s'.pending.get? id = none) :
    Ends id during s₀ p b.holds action s' b' := by
  have hrun := hbefore.trans hperiod.run
  have halive := alive_act hrun.reachable.lined (hrun.alive hsteady) (hrun.breaks_eq_false hsteady)
    hact
  obtain ⟨hwrite, hstarted, hsteps, q, hq, hwriter, -⟩ :=
    (hperiod.inTurn hbefore hsteady).taken hrun.reachable hact hnone halive
  rw [hp] at hq
  cases hq
  -- the trade was not in line when it became pending
  have hnew : id ∉ s₀.order := (not_mem_order_iff hbefore.reachable).2 hperiod.pending_eq_none
  have honce : (s₀.order ++ [id]).Nodup :=
    List.nodup_append.2 ⟨hbefore.reachable.lined.once, List.pairwise_singleton _ _,
      fun other hother id' hid' heq => hnew (List.mem_singleton.1 hid' ▸ heq ▸ hother)⟩
  exact ⟨hwrite, hstarted, honce, hsteps, fun after s'' b'' hafter hsteady' =>
    .of_run hafter (hrun.reachable.act hact) hwriter hsteady'⟩

/-- No write is begun but at the end of a period of its trade. -/
theorem Run.exists_period_of_started (h : Run {} b₀ actions s b) (hsteady : Steady b₀ actions)
    (hact : s.act b action = some (s', b')) (hbegun : s'.started ≠ s.started) :
    ∃ id before during s₀ b₁, actions = before ++ during ∧ Run {} b₀ before s₀ b₁ ∧
      Period id s₀ b₁ during s b ∧ s'.pending.get? id = none ∧ s'.started = s.started ++ [id] := by
  have hreach := h.reachable
  have halive := alive_act hreach.lined (h.alive hsteady) (h.breaks_eq_false hsteady) hact
  cases lineStep_of_act hreach.lined hact halive with
  | stays _ hstarted => exact absurd hstarted hbegun
  | grows t _ _ _ hstarted => exact absurd hstarted hbegun
  | moves id p _ _ horder hp _ _ hstarted =>
    obtain ⟨before, during, s₀, b₁, hactions, hbefore, hperiod⟩ :=
      h.exists_period (Dict.get?_empty id) (by rw [hp]; rfl)
    have honce := hreach.lined.once
    rw [horder] at honce
    have hnone : s'.pending.get? id = none :=
      (not_mem_order_iff (hreach.act hact)).1 (List.nodup_cons.1 honce).1
    exact ⟨id, before, during, s₀, b₁, hactions, hbefore, hperiod, hnone, hstarted⟩

/-- Coalescing is exact and fair, in every open store whose backend does not break down. In a period
during which a trade is pending, the newest of its snapshots that can be stored is pending, and exactly
the requests of the period wait for it whose snapshots can be stored. The period ends when the turn of
the trade has come, with one write; the next step of the writer tells all who wait what came of it, and
nobody else. No other write is ever begun, no ticket is answered twice, and every write counts that the
backend has answered. -/
theorem coalescing_is_exact_and_fair (h : Run {} b₀ actions s b) (hsteady : Steady b₀ actions)
    (hopen : s.closed = false) :
    (∀ id before during s₀ b₁, actions = before ++ during → Run {} b₀ before s₀ b₁ →
      Period id s₀ b₁ during s b → ∃ p, Coalesced id before during s₀ s b p ∧
        ∀ action s' b', s.act b action = some (s', b') → s'.pending.get? id = none →
          Ends id during s₀ p b.holds action s' b') ∧
    (∀ action s' b', s.act b action = some (s', b') → s'.started ≠ s.started →
      ∃ id before during s₀ b₁, actions = before ++ during ∧ Run {} b₀ before s₀ b₁ ∧
        Period id s₀ b₁ during s b ∧ s'.pending.get? id = none ∧
        s'.started = s.started ++ [id]) ∧
    (s.answers.map (·.ticket.number)).Nodup ∧
    s.started.length = s.physicalWrites + s.inFlight := by
  refine ⟨?_, fun action s' b' hact hbegun => h.exists_period_of_started hsteady hact hbegun,
    h.reachable.singly.answers, h.reachable.length_started⟩
  rintro id before during s₀ b₁ rfl hbefore hperiod
  obtain ⟨p, hp⟩ := Option.isSome_iff_exists.1 hperiod.isSome
  exact ⟨p, hperiod.coalesced hbefore hsteady hopen hp, fun action s' b' hact hnone =>
    hperiod.ends hbefore hsteady hp hact hnone⟩

/-- A trade becomes pending behind another one, and an older request joins it. The other one is written
first; then both requests are told that the write of the newer snapshot has failed. -/
theorem older_request_shares_failure :
    ∃ before during s₀ b₁ s b p s' b' s'' b'',
      Run {} { refusesWrites := some "disk full" } before s₀ b₁ ∧
      Period "trade_1" s₀ b₁ during s b ∧ Coalesced "trade_1" before during s₀ s b p ∧
      p.waiters = [⟨1, "trade_1", 2⟩, ⟨2, "trade_1", 1⟩] ∧ s.act b .write = some (s', b') ∧
      s'.started = ["trade_2", "trade_1"] ∧ Run s' b' [.write] s'' b'' ∧
      (∃ succeeded, Told "trade_1" p succeeded s'') ∧ s''.answers = [
        ⟨⟨0, "trade_2", 1⟩, .error ⟨"trade_2", 1, "backend failure: " ++ "disk full"⟩⟩,
        ⟨⟨1, "trade_1", 2⟩, .error ⟨"trade_1", 2, "backend failure: " ++ "disk full"⟩⟩,
        ⟨⟨2, "trade_1", 1⟩, .error ⟨"trade_1", 2, "backend failure: " ++ "disk full"⟩⟩] := by
  let before : List Action := [.schedule { tradeAt 1 with id := "trade_2" }]
  let during : List Action := [.schedule (tradeAt 2), .write, .schedule (tradeAt 1), .write]
  obtain ⟨s₀, b₁, s, b, s', b', s'', b'', hbefore, hperiod, hopen, hact, hnone, hquiet, hafter, hline,
      hanswers⟩ :
      ∃ s₀ b₁ s b s' b' s'' b'', Run {} { refusesWrites := some "disk full" } before s₀ b₁ ∧
        Period "trade_1" s₀ b₁ during s b ∧ s.closed = false ∧
        s.act b .write = some (s', b') ∧ s'.pending.get? "trade_1" = none ∧ b'.breaks = false ∧
        Run s' b' [.write] s'' b'' ∧ s₀.started ++ s₀.order = ["trade_2"] ∧ s''.answers = [
          ⟨⟨0, "trade_2", 1⟩, .error ⟨"trade_2", 1, "backend failure: " ++ "disk full"⟩⟩,
          ⟨⟨1, "trade_1", 2⟩, .error ⟨"trade_1", 2, "backend failure: " ++ "disk full"⟩⟩,
          ⟨⟨2, "trade_1", 1⟩, .error ⟨"trade_1", 2, "backend failure: " ++ "disk full"⟩⟩] :=
    ⟨_, _, _, _, _, _, _, _, .concat .nil rfl,
      .goesOn (.goesOn (.goesOn (.begins rfl rfl rfl) rfl rfl) rfl rfl) rfl rfl,
      rfl, rfl, rfl, rfl, .concat .nil rfl, rfl, rfl⟩
  have hsteady : Steady { refusesWrites := some "disk full" } (before ++ during) :=
    ⟨rfl, by simp [before, during]⟩
  obtain ⟨hperiods, -⟩ := coalescing_is_exact_and_fair (hbefore.trans hperiod.run) hsteady hopen
  obtain ⟨p, hcoalesced, hends⟩ := hperiods "trade_1" before during s₀ b₁ rfl hbefore hperiod
  have hend := hends .write s' b' hact hnone
  refine ⟨before, during, s₀, b₁, s, b, p, s', b', s'', b'', hbefore, hperiod, hcoalesced,
    hcoalesced.waiters.trans rfl, hact, ?_, hafter, ?_, hanswers⟩
  · rw [hend.started, hline]
    rfl
  · rcases hend.outcome [.write] s'' b'' hafter ⟨hquiet, by simp⟩ with
      ⟨hnone, -⟩ | ⟨_, _, _, _, _, _, succeeded, _, _, _, _, _, _, _, htold⟩
    · exact absurd hnone (by decide)
    · exact ⟨succeeded, htold⟩

/-- A request without stored form that is made in a period takes no part in it: it fails at once, and
the write carries the older snapshot and succeeds. -/
theorem request_without_stored_form_fails_alone :
    ∃ s b s' b', Period "trade_1" {} {} [.schedule (tradeAt 0), .schedule Engine.patientOffer] s b ∧
      s.closed = false ∧ Engine.patientOffer.id = "trade_1" ∧ Engine.patientOffer.sequence = 1 ∧
      s.attempts = [] ∧ s.Answered 1 ∧ Run s b [.write, .write] s' b' ∧
      s'.attempts = [⟨"trade_1", 0, true⟩] ∧ s'.answers = [
        ⟨⟨1, "trade_1", 1⟩, .error ⟨"trade_1", 1, "failed to encode snapshot: " ++
          "failed to encode timestamp. timestamp_nanos_opt returned None"⟩⟩,
        ⟨⟨0, "trade_1", 0⟩, .ok ()⟩] := by
  let s₁ : Store := (({} : Store).schedule (tradeAt 0)).1
  have hfails := (schedule_of_open (s := s₁) rfl Engine.patientOffer).2
    Engine.not_exists_encode_patientOffer
  have hact : s₁.act {} (.schedule Engine.patientOffer) = some (_, ({} : Backend)) :=
    congrArg (fun s => some (s, ({} : Backend))) hfails
  refine ⟨_, {}, _, _, .goesOn (.begins rfl rfl rfl) hact rfl, rfl, rfl, rfl, rfl,
    ⟨_, List.mem_cons_self, rfl⟩, .concat (.concat .nil rfl) rfl, rfl, rfl⟩

end PeerTrade.Store
