import PeerTrade.Proofs.Store.Moments

/-!
# Wake-ups

A request can come while the writer is about to wait, and several calls can share one stored wake-up.
The writer sleeps only while it has nothing to do, or until the call that gave it something to do goes
on and wakes it (`Store.wakeUps_are_not_lost`). So long a snapshot can be in line, or the store be
closed, while the writer sleeps (`Store.parked_with_work_in_line`).
-/

namespace PeerTrade.Store

variable {s s' : Store} {b b' b₀ : Backend} {t : Trade}

/-! ## Requests that wake nobody -/

theorem putInLine_of_not_wakes {ticket : Ticket} {record : Bytes}
    (h : (s.putInLine ticket record).2 = false) :
    (s.putInLine ticket record).1 = s.reply [ticket] fun _ => .ok () := by
  cases hstale : (s.highest.get? ticket.tradeId).any (ticket.sequence < ·) <;>
    cases hpending : s.pending.get? ticket.tradeId <;>
    simp [putInLine, hstale, hpending] at h ⊢

/-- A request that does not wake the writer is answered at once, and does nothing else. -/
theorem handIn_of_not_wakes (h : (s.handIn t).2 = false) :
    ∃ result, (s.handIn t).1 =
      { s with issued := s.issued + 1 }.reply [⟨s.issued, t.id, t.sequence⟩] result := by
  cases hencode : t.toSnapshot.encode with
  | error cause => exact ⟨_, congrArg Prod.fst (handIn_of_encode_error hencode s)⟩
  | ok record =>
    rw [handIn_of_encode_ok hencode] at h ⊢
    by_cases hclosed : s.closed = true
    · rw [if_pos hclosed]
      exact ⟨_, rfl⟩
    · rw [if_neg hclosed] at h ⊢
      exact ⟨_, putInLine_of_not_wakes h⟩

theorem AtRest.handIn (h : AtRest s) (hquiet : (s.handIn t).2 = false) : AtRest (s.handIn t).1 := by
  obtain ⟨result, heq⟩ := handIn_of_not_wakes hquiet
  rw [heq]
  exact ⟨h.order, h.writing, h.opened⟩

theorem AtRest.flush (h : AtRest s) : AtRest s.flush.1 := by
  unfold Store.flush
  split
  · exact h
  · exact ⟨h.order, h.writing, h.opened⟩

/-! ## A writer that sleeps -/

namespace Moment

variable {m m' : Moment} {move : Move} {moves : List Move}

/-- The writer waits, or is about to wait and will find no stored wake-up. -/
def Asleep (m : Moment) : Prop :=
  m.store.writer = .parked ∧
    (m.parking = .waiting ∨ m.parking = .leaving ∧ m.store.wake = false)

theorem not_asleep_notify (m : Moment) : ¬m.notify.Asleep := by
  rcases m.notify_cases with ⟨-, -, heq⟩ | ⟨hother, heq⟩
  · rw [heq]
    rintro ⟨-, hwaiting | ⟨hleaving, -⟩⟩
    · cases hwaiting
    · cases hleaving
  · rw [heq]
    rintro ⟨hwriter, hwaiting | ⟨-, hwake⟩⟩
    · exact hother hwriter hwaiting
    · cases hwake

theorem Asleep.congr (h : m.Asleep) (hwriter : m'.store.writer = m.store.writer)
    (hwake : m'.store.wake = m.store.wake) (hparking : m'.parking = m.parking) : m'.Asleep := by
  rw [Asleep, hwriter, hwake, hparking]
  exact h

/-- A call that does not wake the writer leaves it as it is. -/
theorem asleep_handIn_iff (m : Moment) (t : Trade) (owed : Nat) :
    Asleep { m with store := (m.store.handIn t).1, owed } ↔ m.Asleep := by
  rw [handIn_same]
  exact Iff.rfl

theorem asleep_flush_iff (m : Moment) : Asleep { m with store := m.store.flush.1 } ↔ m.Asleep := by
  unfold Store.flush
  split <;> exact Iff.rfl

/-- A writer sleeps only while there is nothing to do, or somebody is still to wake it. -/
def Heeded (m : Moment) : Prop := m.Asleep → m.store.AtRest ∨ 0 < m.owed + m.shutting

theorem Heeded.turn (h : m.Heeded) (hlined : Lined m.store) (hturn : m.turn b = some (m', b')) :
    m'.Heeded := by
  rcases turn_cases hturn with ⟨hbusy, store, hstep, rfl⟩ | ⟨-, -, -, rfl, -⟩ |
    ⟨hwriter, hleaving, hwake, rfl, -⟩ | ⟨-, -, rfl, -⟩
  · rintro ⟨hwriter, -⟩
    rcases step_cases hstep with ⟨-, rfl, -⟩ | ⟨hparked, -, -⟩ | ⟨id, p, held, n, -, -, rfl⟩
    · exact .inl ((hlined.looks b).parks hwriter)
    · exact absurd hparked hbusy
    · -- after a write the writer looks for work, or it is dead
      change (m.store.finish id p _).writer = .parked at hwriter
      cases hresult : ({ b with admitted := n }.write id p.record).2 <;>
        rw [hresult] at hwriter <;> cases hwriter
  · exact fun hasleep => nomatch hasleep.1
  · exact fun _ => h ⟨hwriter, .inr ⟨hleaving, hwake⟩⟩
  · exact fun hasleep => nomatch hasleep.1

theorem Heeded.act (h : m.Heeded) (hlined : Lined m.store)
    (hact : m.act b move = some (m', b')) : m'.Heeded := by
  cases move with
  | handIn t =>
    rw [act_handIn] at hact
    cases hact
    intro hasleep
    rcases h ((m.asleep_handIn_iff t _).1 hasleep) with hrest | howed
    · -- a request that ends the rest has still to wake the writer
      cases hwakes : (m.store.handIn t).2 with
      | true => exact .inr (Nat.lt_add_right _ (Nat.succ_pos _))
      | false => exact .inl (hrest.handIn hwakes)
    · exact .inr (Nat.lt_of_lt_of_le howed (Nat.add_le_add_right (Nat.le_add_right ..) _))
  | wake =>
    obtain ⟨owed, -, rfl, -⟩ := act_wake_eq_some hact
    exact fun hasleep => absurd (hasleep.congr rfl rfl rfl) m.not_asleep_notify
  | flush =>
    cases hact
    exact fun hasleep => (h (m.asleep_flush_iff.1 hasleep)).imp_left AtRest.flush
  | shut =>
    cases hact
    exact fun _ => .inr (Nat.lt_add_left _ (Nat.succ_pos _))
  | rouse =>
    obtain ⟨shutting, -, rfl, -⟩ := act_rouse_eq_some hact
    exact fun hasleep => absurd (hasleep.congr rfl rfl rfl) m.not_asleep_notify
  | claim =>
    obtain ⟨reaching, -, rfl, -⟩ := act_claim_eq_some hact
    refine fun hasleep => (h hasleep).imp_left fun hrest => ?_
    exact ⟨hrest.order, hrest.writing, hrest.opened⟩
  | turn => exact h.turn hlined hact
  | behave b' =>
    cases hact
    exact h

theorem Reachable.heeded (h : Reachable m b) : m.Heeded := by
  obtain ⟨b₀, moves, hrun⟩ := h
  induction hrun with
  | nil => exact fun hasleep => nomatch hasleep.1
  | concat hrun hact ih => exact ih.act (Reachable.lined ⟨b₀, _, hrun⟩) hact

/-- A call that is still to wake the writer can do so, and then the writer does not sleep. -/
theorem exists_act_of_owed (howed : 0 < m.owed + m.shutting) (b : Backend) :
    ∃ move m', (move = .wake ∨ move = .rouse) ∧ m.act b move = some (m', b) ∧ ¬m'.Asleep := by
  have hother (m' : Moment) (hstore : m'.store = m.notify.store)
      (hparking : m'.parking = m.notify.parking) : ¬m'.Asleep := fun hasleep =>
    m.not_asleep_notify (hasleep.congr (by rw [hstore]) (by rw [hstore]) hparking.symm)
  cases hwake : m.owed with
  | succ owed =>
    refine ⟨.wake, { m.notify with owed }, .inl rfl, ?_, hother _ rfl rfl⟩
    simp only [Moment.act, hwake]
  | zero =>
    cases hrouse : m.shutting with
    | succ shutting =>
      refine ⟨.rouse, { m.notify with shutting, reaching := m.reaching + 1 }, .inr rfl, ?_,
        hother _ rfl rfl⟩
      simp only [Moment.act, hrouse]
    | zero => simp [hwake, hrouse] at howed

end Moment

/-! ## No wake-up is lost -/

/-- Between any two steps of a store its tables agree with each other, and the writer would find a
pending snapshot for whatever is first in line and park only if there is nothing to do. If it is parked
without a stored wake-up the store is at rest; and as long as it is not, a writer that has not ended can
go on, unless the backend holds its write back.

The same holds at every moment, however the steps of the writer and the parts of the calls are
interleaved, but for a writer that waits, or is about to and will find no stored wake-up: it has nothing
to do, or a call is still to wake it. Such a call can go on at once, and the writer does not sleep
then. -/
theorem wakeUps_are_not_lost :
    (∀ s b, Reachable s b → s.Tidy ∧ s.Looks b ∧
      (s.writer = .parked → s.wake = false → s.AtRest) ∧
      (¬s.AtRest → s.writer.ended = false →
        (s.act b .write).isSome ∨ b.admitted = 0 ∧ ∃ id p, s.writer = .writing id p true)) ∧
    ∀ m b, Moment.Reachable m b → m.store.Tidy ∧ m.store.Looks b ∧
      (m.Asleep → m.store.AtRest ∨ 0 < m.owed + m.shutting) ∧
      (0 < m.owed + m.shutting → ∃ move m', (move = .wake ∨ move = .rouse) ∧
        m.act b move = some (m', b) ∧ ¬m'.Asleep) := by
  constructor
  · intro s b h
    exact ⟨h.tidy, h.lined.looks b, h.atRest, h.goes_on_of_not_atRest⟩
  · intro m b h
    exact ⟨h.tidy, h.lined.looks b, h.heeded, fun howed => Moment.exists_act_of_owed howed b⟩

/-- Two requests come while the writer is about to wait. They share one stored wake-up, and the writer,
which does not wait then, finds the trade. If it waits already when a request comes, the request wakes it.
A writer that nobody calls sleeps at rest, and so does one that has written everything. -/
theorem requests_in_between_are_noticed :
    (∃ m p, Moment.Run {} {} [.turn, .handIn (tradeAt 1), .handIn (tradeAt 2), .wake, .wake, .turn]
      m {} ∧ m.owed = 0 ∧ (m.store.takeNext {}).writer = .writing "trade_1" p false) ∧
    (∃ m move m', Moment.Run {} {} [.turn, .turn, .handIn (tradeAt 1)] m {} ∧ m.Asleep ∧
      m.act {} move = some (m', {}) ∧ ¬m'.Asleep) ∧
    (∃ m, Moment.Run {} {} [.turn, .turn] m {} ∧ m.Asleep ∧ m.store.AtRest) ∧
    ∃ s b, Reachable s b ∧ s.writer = .parked ∧ s.physicalWrites = 1 ∧ s.AtRest := by
  have hreach {moves : List Moment.Move} {m : Moment} (h : Moment.Run {} {} moves m {}) :
      Moment.Reachable m {} := ⟨{}, moves, h⟩
  refine ⟨?_, ?_, ?_, ?_⟩
  · obtain ⟨m, h, howed, horder⟩ : ∃ m, Moment.Run {} {}
        [.turn, .handIn (tradeAt 1), .handIn (tradeAt 2), .wake, .wake, .turn] m {} ∧
          m.owed = 0 ∧ m.store.order = ["trade_1"] :=
      ⟨_, .concat (.concat (.concat (.concat (.concat (.concat .nil rfl) rfl) rfl) rfl) rfl) rfl,
        rfl, rfl⟩
    obtain ⟨-, hlooks, -⟩ := wakeUps_are_not_lost.2 m {} (hreach h)
    obtain ⟨p, -, htakes, -⟩ := hlooks.takes "trade_1" [] horder
    exact ⟨m, p, h, howed, htakes⟩
  · obtain ⟨m, h, hasleep, howed⟩ : ∃ m, Moment.Run {} {}
        [.turn, .turn, .handIn (tradeAt 1)] m {} ∧ m.Asleep ∧ m.owed = 1 :=
      ⟨_, .concat (.concat (.concat .nil rfl) rfl) rfl, ⟨rfl, .inl rfl⟩, rfl⟩
    obtain ⟨-, -, -, hwakes⟩ := wakeUps_are_not_lost.2 m {} (hreach h)
    obtain ⟨move, m', -, hact, hawake⟩ := hwakes (by omega)
    exact ⟨m, move, m', h, hasleep, hact, hawake⟩
  · obtain ⟨m, h, hasleep, hnone⟩ : ∃ m, Moment.Run {} {} [.turn, .turn] m {} ∧ m.Asleep ∧
        m.owed + m.shutting = 0 :=
      ⟨_, .concat (.concat .nil rfl) rfl, ⟨rfl, .inl rfl⟩, rfl⟩
    obtain ⟨-, -, hrests, -⟩ := wakeUps_are_not_lost.2 m {} (hreach h)
    exact ⟨m, h, hasleep, (hrests hasleep).resolve_right (by simp [hnone])⟩
  · obtain ⟨s, b, h, hparked, hwake, hwrites⟩ : ∃ s b, Run {} {}
        [.schedule (tradeAt 1), .write, .write, .write, .write, .write] s b ∧
          s.writer = .parked ∧ s.wake = false ∧ s.physicalWrites = 1 :=
      ⟨_, _, .concat (.concat (.concat (.concat (.concat (.concat .nil rfl) rfl) rfl) rfl) rfl) rfl,
        rfl, rfl, rfl⟩
    obtain ⟨-, -, hrests, -⟩ := wakeUps_are_not_lost.1 s b h.reachable
    exact ⟨s, b, h.reachable, hparked, hwrites, hrests hparked hwake⟩

/-- Between the parts of a call the writer waits without a stored wake-up, although a snapshot is in line
or the store is closed. And after the wake-up, which finds it waiting and so is not stored, it is still
parked until it goes on. -/
theorem parked_with_work_in_line :
    (∃ m, Moment.Run {} {} [.turn, .turn, .handIn (tradeAt 1)] m {} ∧ m.store.writer = .parked ∧
      m.parking = .waiting ∧ m.store.wake = false ∧ m.store.order = ["trade_1"]) ∧
    (∃ m, Moment.Run {} {} [.turn, .turn, .shut] m {} ∧ m.store.writer = .parked ∧
      m.parking = .waiting ∧ m.store.wake = false ∧ m.store.closed = true) ∧
    ∃ m, Moment.Run {} {} [.turn, .turn, .handIn (tradeAt 1), .wake] m {} ∧
      m.store.writer = .parked ∧ m.parking = .woken ∧ m.store.wake = false ∧
      m.store.order = ["trade_1"] :=
  ⟨⟨_, .concat (.concat (.concat .nil rfl) rfl) rfl, rfl, rfl, rfl, rfl⟩,
    ⟨_, .concat (.concat (.concat .nil rfl) rfl) rfl, rfl, rfl, rfl, rfl⟩,
    _, .concat (.concat (.concat (.concat .nil rfl) rfl) rfl) rfl, rfl, rfl, rfl, rfl⟩

end PeerTrade.Store
