import PeerTrade.Store.Writer

/-!
# Steps of the store

The users of a store, its writer and its backend act in any order; a store is `Reachable` if some
order of their actions leads to it from a new one. The lemmas say what handing in a snapshot and
what the writer do to the pending snapshots, the greatest sequences and the answers.
-/

namespace PeerTrade.Store

/-! ## Actions -/

/-- What can happen to a store. -/
inductive Action where
  | schedule (t : Trade)
  | flush
  | close
  /-- The writer takes its next step. -/
  | write
  /-- The backend begins to behave differently; its records stay. -/
  | behave (b : Backend)

/-- The store and its backend after an action, if it is possible. -/
def act (s : Store) (b : Backend) : Action → Option (Store × Backend)
  | .schedule t => some ((s.schedule t).1, b)
  | .flush => some (s.flush.1, b)
  | .close => some (s.close.1, b)
  | .write => s.step b
  | .behave b' => some (s, { b' with records := b.records })

theorem act_flush (s : Store) (b : Backend) : s.act b .flush = some (s.flush.1, b) := rfl

/-- A store that some actions lead to from a new one. -/
inductive Reachable : Store → Backend → Prop where
  | start (b : Backend) : Reachable {} b
  | act {s s' : Store} {b b' : Backend} {a : Action} :
      Reachable s b → s.act b a = some (s', b') → Reachable s' b'

theorem Reachable.induction {P : Store → Prop} {s : Store} {b : Backend} (h : Reachable s b)
    (start : P {})
    (step : ∀ s b action s' b', P s → s.act b action = some (s', b') → P s') : P s := by
  induction h with
  | start b => exact start
  | act _ hact ih => exact step _ _ _ _ _ ih hact

/-! ## Handing in a snapshot -/

variable {s : Store} {ticket : Ticket} {record : Bytes}

/-- A request that is older than one made before for the same trade. -/
def Superseded (s : Store) (id : String) (sequence : UInt64) : Prop :=
  ∃ greatest, s.highest.get? id = some greatest ∧ sequence < greatest

theorem any_lt_iff_superseded (s : Store) (id : String) (sequence : UInt64) :
    (s.highest.get? id).any (sequence < ·) = true ↔ s.Superseded id sequence := by
  simp [Superseded, Option.any_eq_true]

/-- Puts a snapshot in line, and then wakes the writer if that gives it something to do. -/
def enqueue (s : Store) (ticket : Ticket) (record : Bytes) : Store :=
  let (s, wakes) := s.putInLine ticket record
  if wakes then s.notify else s

theorem handIn_of_encode_error {t : Trade} {cause : EncodeError}
    (hencode : t.toSnapshot.encode = .error cause) (s : Store) :
    s.handIn t = ({ s with issued := s.issued + 1 }.reply [⟨s.issued, t.id, t.sequence⟩]
      fun w => failure w (StoreError.encode cause).message, false) := by
  simp only [handIn, hencode]

theorem handIn_of_encode_ok {t : Trade} (hencode : t.toSnapshot.encode = .ok record)
    (s : Store) :
    s.handIn t = if s.closed then
        ({ s with issued := s.issued + 1 }.reply [⟨s.issued, t.id, t.sequence⟩] fun w =>
          failure w "store is closed", false)
      else { s with issued := s.issued + 1 }.putInLine ⟨s.issued, t.id, t.sequence⟩ record := by
  simp only [handIn, hencode]

theorem schedule_of_encode_error {t : Trade} {cause : EncodeError}
    (hencode : t.toSnapshot.encode = .error cause) (s : Store) :
    (s.schedule t).1 = { s with issued := s.issued + 1 }.reply [⟨s.issued, t.id, t.sequence⟩]
      fun w => failure w (StoreError.encode cause).message := by
  rw [schedule, handIn_of_encode_error hencode]
  rfl

theorem schedule_of_encode_ok {t : Trade} (hencode : t.toSnapshot.encode = .ok record)
    (s : Store) :
    (s.schedule t).1 = if s.closed then
        { s with issued := s.issued + 1 }.reply [⟨s.issued, t.id, t.sequence⟩] fun w =>
          failure w "store is closed"
      else { s with issued := s.issued + 1 }.enqueue ⟨s.issued, t.id, t.sequence⟩ record := by
  rw [schedule, handIn_of_encode_ok hencode]
  by_cases hclosed : s.closed = true
  · rw [if_pos hclosed, if_pos hclosed]
    rfl
  · rw [if_neg hclosed, if_neg hclosed]
    rfl

/-- The four things that can become of a snapshot: a superseded one joins the pending write or is
answered, any other takes the place of the pending one or is put in line. -/
theorem enqueue_cases (s : Store) (ticket : Ticket) (record : Bytes) :
    (s.Superseded ticket.tradeId ticket.sequence ∧
      ∃ p, s.pending.get? ticket.tradeId = some p ∧
        s.enqueue ticket record = { s with
          pending := s.pending.insert ticket.tradeId { p with waiters := p.waiters ++ [ticket] }
          wake := true }) ∨
    (s.Superseded ticket.tradeId ticket.sequence ∧ s.pending.get? ticket.tradeId = none ∧
      s.enqueue ticket record = s.reply [ticket] fun _ => .ok ()) ∨
    (¬s.Superseded ticket.tradeId ticket.sequence ∧
      ∃ p, s.pending.get? ticket.tradeId = some p ∧
        s.enqueue ticket record = { s with
          highest := s.highest.insert ticket.tradeId ticket.sequence
          pending := s.pending.insert ticket.tradeId
            ⟨record, ticket.sequence, p.waiters ++ [ticket]⟩
          wake := true }) ∨
    (¬s.Superseded ticket.tradeId ticket.sequence ∧ s.pending.get? ticket.tradeId = none ∧
      s.enqueue ticket record = { s with
        highest := s.highest.insert ticket.tradeId ticket.sequence
        pending := s.pending.insert ticket.tradeId ⟨record, ticket.sequence, [ticket]⟩
        order := s.order ++ [ticket.tradeId]
        wake := true }) := by
  cases hstale : (s.highest.get? ticket.tradeId).any (ticket.sequence < ·) with
  | true =>
    have hsuperseded := (any_lt_iff_superseded ..).1 hstale
    cases hpending : s.pending.get? ticket.tradeId with
    | some p =>
      refine .inl ⟨hsuperseded, p, rfl, ?_⟩
      simp [enqueue, putInLine, hstale, hpending, notify]
    | none =>
      refine .inr (.inl ⟨hsuperseded, rfl, ?_⟩)
      simp [enqueue, putInLine, hstale, hpending]
  | false =>
    have hnewest : ¬s.Superseded ticket.tradeId ticket.sequence := by
      rw [← any_lt_iff_superseded, hstale]
      decide
    cases hpending : s.pending.get? ticket.tradeId with
    | some p =>
      refine .inr (.inr (.inl ⟨hnewest, p, rfl, ?_⟩))
      simp [enqueue, putInLine, hstale, hpending, notify]
    | none =>
      refine .inr (.inr (.inr ⟨hnewest, rfl, ?_⟩))
      simp [enqueue, putInLine, hstale, hpending, notify]

theorem schedule_cases (s : Store) (t : Trade) :
    (∃ failure, (s.schedule t).1 =
      { s with issued := s.issued + 1 }.reply [⟨s.issued, t.id, t.sequence⟩] fun _ =>
        .error failure) ∨
    ∃ record, t.toSnapshot.encode = .ok record ∧ (s.schedule t).1 =
      { s with issued := s.issued + 1 }.enqueue ⟨s.issued, t.id, t.sequence⟩ record := by
  cases hencode : t.toSnapshot.encode with
  | error cause =>
    exact .inl ⟨⟨t.id, t.sequence, (StoreError.encode cause).message⟩,
      schedule_of_encode_error hencode s⟩
  | ok record =>
    have hschedule := schedule_of_encode_ok hencode s
    split at hschedule
    · exact .inl ⟨⟨t.id, t.sequence, "store is closed"⟩, hschedule⟩
    · exact .inr ⟨record, rfl, hschedule⟩

theorem enqueue_same (s : Store) (ticket : Ticket) (record : Bytes) :
    (s.enqueue ticket record).attempts = s.attempts ∧
      (s.enqueue ticket record).writer = s.writer := by
  rcases s.enqueue_cases ticket record with ⟨-, p, -, heq⟩ | ⟨-, -, heq⟩ | ⟨-, p, -, heq⟩ |
    ⟨-, -, heq⟩ <;> simp [heq, reply]

/-- Handing in a snapshot leaves the writer and its finished writes alone. -/
theorem schedule_same (s : Store) (t : Trade) :
    (s.schedule t).1.attempts = s.attempts ∧ (s.schedule t).1.writer = s.writer := by
  rcases s.schedule_cases t with ⟨failure, heq⟩ | ⟨record, -, heq⟩
  · simp [heq, reply]
  · rw [heq]
    exact enqueue_same _ _ _

/-! ## The writer -/

/-- A writer that finds nothing parks or stops. It releases those who wait for a flush only if
nothing is left in line. -/
theorem rest_eq (s : Store) : ∃ flushing writer, (writer = .parked ∨ writer = .stopped) ∧
    (s.order = [] ∨ flushing = s.flushing) ∧
    s.rest = { s with writing := false, flushing, writer } := by
  unfold rest
  dsimp only
  split
  next hempty =>
    refine ⟨[], if s.closed then .stopped else .parked, ?_, .inl (List.isEmpty_iff.1 hempty), rfl⟩
    cases s.closed <;> simp
  next => exact ⟨s.flushing, .parked, .inl rfl, .inr rfl, rfl⟩

/-- The writer takes a pending snapshot out of the line, or finds nothing. -/
theorem takeNext_cases (s : Store) (b : Backend) :
    (∃ id order p, s.order = id :: order ∧ s.pending.get? id = some p ∧ s.takeNext b = { s with
      order, pending := s.pending.erase id, writing := true, writer := .writing id p b.holds }) ∨
    ∃ order, (∀ id ∈ s.order, id ∈ order ∨ s.pending.get? id = none) ∧
      s.takeNext b = { s with order }.rest := by
  cases horder : s.order with
  | nil =>
    have hsame : { s with order := [] } = s := by rw [← horder]
    refine .inr ⟨[], fun id hid => absurd hid List.not_mem_nil, ?_⟩
    rw [hsame, takeNext, horder]
  | cons id order =>
    cases hpending : s.pending.get? id with
    | some p => exact .inl ⟨id, order, p, rfl, hpending, by simp [takeNext, horder, hpending]⟩
    | none =>
      -- a trade in line without a pending snapshot is passed over
      refine .inr ⟨order, fun id' hid' => ?_, by simp [takeNext, horder, hpending]⟩
      rcases List.mem_cons.1 hid' with rfl | hid'
      · exact .inr hpending
      · exact .inl hid'

/-- Looking for work neither answers nor finishes anything. -/
theorem takeNext_same (s : Store) (b : Backend) :
    (s.takeNext b).answers = s.answers ∧ (s.takeNext b).attempts = s.attempts ∧
      (s.takeNext b).issued = s.issued := by
  rcases s.takeNext_cases b with ⟨id, order, p, -, -, heq⟩ | ⟨order, -, heq⟩
  · rw [heq]
    exact ⟨rfl, rfl, rfl⟩
  · obtain ⟨flushing, writer, -, -, hrest⟩ := rest_eq { s with order }
    rw [heq, hrest]
    exact ⟨rfl, rfl, rfl⟩

/-- The writer looks for work, wakes up, or hears from the backend about its write. -/
theorem step_cases {s s' : Store} {b b' : Backend} (h : s.step b = some (s', b')) :
    (s.writer = .ready ∧ s' = s.takeNext b ∧ b' = b) ∨
    (s.writer = .parked ∧ s' = { s with wake := false, writer := .ready } ∧ b' = b) ∨
    ∃ id p held admitted, s.writer = .writing id p held ∧
      b' = ({ b with admitted }.write id p.record).1 ∧
      s' = s.finish id p ({ b with admitted }.write id p.record).2 := by
  unfold step at h
  split at h
  next hwriter =>
    cases h
    exact .inl ⟨hwriter, rfl, rfl⟩
  next hwriter =>
    split at h
    · cases h
      exact .inr (.inl ⟨hwriter, rfl, rfl⟩)
    · cases h
  next id p held hwriter =>
    split at h
    · cases h
    · -- a write that was held back uses up one admission
      cases held with
      | true =>
        cases h
        exact .inr (.inr ⟨id, p, true, b.admitted - 1, hwriter, rfl, rfl⟩)
      | false =>
        cases h
        exact .inr (.inr ⟨id, p, false, b.admitted, hwriter, rfl, rfl⟩)
  · cases h
  · cases h

end PeerTrade.Store
