import PeerTrade.Proofs.Engine.Overshoot
import PeerTrade.Proofs.Store.WakeUps

/-!
# Draining

A call of `close` shuts the store, wakes the writer and then reaches for the handle of the writer, and
others can go on in between. When it has woken the writer, the writer does not sleep any more
(`Store.Moment.Reachable.informed`), and every turn brings it nearer to its end. The call that gets the
handle waits for that, and nothing is left when it returns (`Store.close_drains`). One that finds the
handle taken returns at once.
-/

namespace PeerTrade.Store

variable {s s' : Store} {b b' b₀ : Backend}

/-- How many steps the writer of a closed store has left at most. -/
def left (s : Store) : Nat :=
  2 * s.order.length + match s.writer with
    | .ready => 1
    | .parked | .writing .. => 2
    | .stopped | .dead => 0

/-- Looking for work neither closes the store nor takes the handle. -/
theorem takeNext_open (s : Store) (b : Backend) :
    (s.takeNext b).closed = s.closed ∧ (s.takeNext b).writerClaimed = s.writerClaimed := by
  rcases s.takeNext_cases b with ⟨id, order, p, -, -, heq⟩ | ⟨order, -, heq⟩
  · rw [heq]
    exact ⟨rfl, rfl⟩
  · obtain ⟨flushing, writer, -, -, hrest⟩ := rest_eq { s with order }
    rw [heq, hrest]
    exact ⟨rfl, rfl⟩

theorem attempts_handIn (s : Store) (t : Trade) : (s.handIn t).1.attempts = s.attempts := by
  have hsame := congrArg Store.attempts (schedule_disguise s s.wake s.writer s.writerClaimed t)
  exact hsame.symm.trans (s.schedule_same t).1

theorem writer_handIn (s : Store) (t : Trade) : (s.handIn t).1.writer = s.writer := by
  rw [handIn_same]
  rfl

namespace Moment

variable {m m' m₁ : Moment} {b₁ : Backend} {move : Move} {moves more before after : List Move}

/-! ## Moves of others -/

/-- Nothing but the writer changes where it stands, or writes anything; and a store that is closed stays
so, and takes nothing more. -/
theorem act_of_ne (hother : move ≠ .turn) (hact : m.act b move = some (m', b')) :
    m'.store.writer = m.store.writer ∧ m'.store.attempts = m.store.attempts ∧
      b'.records = b.records ∧
      (m.store.closed = true → m'.store.closed = true ∧ m'.store.order = m.store.order) := by
  have hnotify (m : Moment) : m.notify.store.writer = m.store.writer ∧
      m.notify.store.attempts = m.store.attempts ∧
      m.notify.store.closed = m.store.closed ∧ m.notify.store.order = m.store.order := by
    rcases m.notify_cases with ⟨-, -, heq⟩ | ⟨-, heq⟩ <;> rw [heq] <;> exact ⟨rfl, rfl, rfl, rfl⟩
  obtain ⟨hwriter, hattempts, hclosed, horder⟩ := hnotify m
  cases move with
  | handIn t =>
    rw [act_handIn] at hact
    cases hact
    refine ⟨writer_handIn m.store t, attempts_handIn m.store t, rfl, fun hclosed => ?_⟩
    rw [handIn_of_closed hclosed]
    exact ⟨hclosed, rfl⟩
  | wake =>
    obtain ⟨owed, -, rfl, rfl⟩ := act_wake_eq_some hact
    exact ⟨hwriter, hattempts, rfl, fun h => ⟨hclosed.trans h, horder⟩⟩
  | flush =>
    cases hact
    show m.store.flush.1.writer = _ ∧ m.store.flush.1.attempts = _ ∧ _ ∧
      (_ → m.store.flush.1.closed = true ∧ m.store.flush.1.order = _)
    unfold Store.flush
    split <;> exact ⟨rfl, rfl, rfl, fun h => ⟨h, rfl⟩⟩
  | shut =>
    cases hact
    exact ⟨rfl, rfl, rfl, fun _ => ⟨rfl, rfl⟩⟩
  | rouse =>
    obtain ⟨shutting, -, rfl, rfl⟩ := act_rouse_eq_some hact
    exact ⟨hwriter, hattempts, rfl, fun h => ⟨hclosed.trans h, horder⟩⟩
  | claim =>
    obtain ⟨reaching, -, rfl, rfl⟩ := act_claim_eq_some hact
    exact ⟨rfl, rfl, rfl, fun h => ⟨h, rfl⟩⟩
  | turn => exact absurd rfl hother
  | behave b' =>
    cases hact
    exact ⟨rfl, rfl, rfl, fun h => ⟨h, rfl⟩⟩

/-- A writer that has ended takes no turn. -/
theorem ended_eq_false_of_turn (hturn : m.turn b = some (m', b')) :
    m.store.writer.ended = false := by
  rcases turn_cases hturn with ⟨-, store, hstep, -⟩ | ⟨hwriter, -⟩ | ⟨hwriter, -⟩ | ⟨hwriter, -⟩
  · rcases step_cases hstep with ⟨hwriter, -⟩ | ⟨hwriter, -⟩ | ⟨id, p, held, n, hwriter, -⟩ <;>
      rw [hwriter] <;> rfl
  all_goals rw [hwriter]; rfl

/-- When the writer has ended, nothing is written any more. -/
theorem Run.of_ended (h : Run m b moves m' b') (hended : m.store.writer.ended = true) :
    m'.store.writer = m.store.writer ∧ m'.store.attempts = m.store.attempts ∧
      b'.records = b.records := by
  induction h with
  | nil => exact ⟨rfl, rfl, rfl⟩
  | @concat moves m₁ m₂ b₁ b₂ move hrun hact ih =>
    obtain ⟨hwriter, hattempts, hrecords⟩ := ih
    by_cases hturn : move = .turn
    · subst hturn
      have hopen := ended_eq_false_of_turn hact
      rw [hwriter, hended] at hopen
      cases hopen
    · obtain ⟨hwriter', hattempts', hrecords', -⟩ := act_of_ne hturn hact
      exact ⟨hwriter'.trans hwriter, hattempts'.trans hattempts, hrecords'.trans hrecords⟩

/-- A turn of the writer is no part of a call of `close`. -/
theorem claimed_turn (hturn : m.turn b = some (m', b')) :
    m'.shutting = m.shutting ∧ m'.reaching = m.reaching ∧
      m'.store.writerClaimed = m.store.writerClaimed ∧ m'.store.closed = m.store.closed := by
  rcases turn_cases hturn with ⟨-, store, hstep, rfl⟩ | ⟨-, -, -, rfl, -⟩ | ⟨-, -, -, rfl, -⟩ |
    ⟨-, -, rfl, -⟩
  · rcases step_cases hstep with ⟨-, rfl, -⟩ | ⟨-, rfl, -⟩ | ⟨id, p, held, n, -, -, rfl⟩
    · obtain ⟨hclosed, hclaimed⟩ := m.store.takeNext_open b
      exact ⟨rfl, rfl, hclaimed, hclosed⟩
    · exact ⟨rfl, rfl, rfl, rfl⟩
    · cases ({ b with admitted := n }.write id p.record).2 <;> exact ⟨rfl, rfl, rfl, rfl⟩
  all_goals exact ⟨rfl, rfl, rfl, rfl⟩

/-- A store that is closed stays so. -/
theorem closed_act (hact : m.act b move = some (m', b')) (hclosed : m.store.closed = true) :
    m'.store.closed = true := by
  by_cases hturn : move = .turn
  · subst hturn
    rw [(claimed_turn hact).2.2.2]
    exact hclosed
  · exact ((act_of_ne hturn hact).2.2.2 hclosed).1

theorem Run.closed (h : Run m b moves m' b') (hclosed : m.store.closed = true) :
    m'.store.closed = true :=
  h.keeps hclosed fun _ _ _ _ _ hclosed hact => closed_act hact hclosed

/-! ## A writer that knows of the end -/

/-- A closed store whose writer does not sleep. -/
structure Draining (m : Moment) : Prop where
  closed : m.store.closed = true
  awake : ¬m.Asleep

/-- The writer of a closed store looks for work until nothing is left. It never parks again. -/
theorem Draining.awake_turn (h : Draining m) (hlined : Lined m.store)
    (hturn : m.turn b = some (m', b')) : ¬m'.Asleep := by
  rcases turn_cases hturn with ⟨hbusy, store, hstep, rfl⟩ | ⟨-, -, -, rfl, -⟩ |
    ⟨hwriter, hleaving, hwake, -, -⟩ | ⟨-, -, rfl, -⟩
  · rcases step_cases hstep with ⟨-, rfl, -⟩ | ⟨hparked, -, -⟩ | ⟨id, p, held, n, -, -, rfl⟩
    · -- it parks only in a store that is open
      intro hasleep
      have hopened := ((hlined.looks b).parks hasleep.1).opened
      rw [(m.store.takeNext_open b).1, h.closed] at hopened
      cases hopened
    · exact absurd hparked hbusy
    · cases ({ b with admitted := n }.write id p.record).2 <;> exact fun hasleep => nomatch hasleep.1
  · exact fun hasleep => nomatch hasleep.1
  · exact absurd ⟨hwriter, .inr ⟨hleaving, hwake⟩⟩ h.awake
  · exact fun hasleep => nomatch hasleep.1

theorem Draining.act (h : Draining m) (hlined : Lined m.store)
    (hact : m.act b move = some (m', b')) : Draining m' := by
  refine ⟨closed_act hact h.closed, ?_⟩
  cases move with
  | handIn t =>
    rw [act_handIn] at hact
    cases hact
    exact fun hasleep => h.awake ((m.asleep_handIn_iff t _).1 hasleep)
  | wake =>
    obtain ⟨owed, -, rfl, -⟩ := act_wake_eq_some hact
    exact fun hasleep => m.not_asleep_notify (hasleep.congr rfl rfl rfl)
  | flush =>
    cases hact
    exact fun hasleep => h.awake (m.asleep_flush_iff.1 hasleep)
  | shut =>
    cases hact
    exact h.awake
  | rouse =>
    obtain ⟨shutting, -, rfl, -⟩ := act_rouse_eq_some hact
    exact fun hasleep => m.not_asleep_notify (hasleep.congr rfl rfl rfl)
  | claim =>
    obtain ⟨reaching, -, rfl, -⟩ := act_claim_eq_some hact
    exact h.awake
  | turn => exact h.awake_turn hlined hact
  | behave b' =>
    cases hact
    exact h.awake

/-- As soon as a call of `close` has shut the store it is closed; and as soon as one has woken the
writer, the writer does not sleep any more. -/
structure Informed (m : Moment) : Prop where
  shut : 0 < m.shutting → m.store.closed = true
  told : 0 < m.reaching ∨ m.store.writerClaimed = true → Draining m

theorem Informed.act (h : Informed m) (hlined : Lined m.store)
    (hact : m.act b move = some (m', b')) : Informed m' := by
  -- what has been shut stays closed, and what a writer has been told it keeps in mind
  have hshut (hsame : 0 < m.shutting) : m'.store.closed = true := closed_act hact (h.shut hsame)
  have htold (hsame : 0 < m.reaching ∨ m.store.writerClaimed = true) : Draining m' :=
    (h.told hsame).act hlined hact
  cases move with
  | handIn t =>
    rw [act_handIn] at hact
    cases hact
    refine ⟨hshut, fun hsome => htold (hsome.imp_right ?_)⟩
    rw [handIn_same]
    exact id
  | wake =>
    obtain ⟨owed, -, rfl, -⟩ := act_wake_eq_some hact
    rcases m.notify_cases with ⟨-, -, heq⟩ | ⟨-, heq⟩ <;> rw [heq] at hshut htold ⊢ <;>
      exact ⟨hshut, htold⟩
  | flush =>
    cases hact
    refine ⟨hshut, fun hsome => htold (hsome.imp_right ?_)⟩
    show m.store.flush.1.writerClaimed = true → _
    unfold Store.flush
    split <;> exact id
  | shut =>
    cases hact
    exact ⟨fun _ => rfl, htold⟩
  | rouse =>
    obtain ⟨shutting, hshutting, rfl, -⟩ := act_rouse_eq_some hact
    have hclosed := hshut (by omega)
    refine ⟨fun _ => hclosed, fun _ => ⟨hclosed, fun hasleep => ?_⟩⟩
    exact m.not_asleep_notify (hasleep.congr rfl rfl rfl)
  | claim =>
    obtain ⟨reaching, hreaching, rfl, -⟩ := act_claim_eq_some hact
    exact ⟨hshut, fun _ => htold (.inl (by omega))⟩
  | turn =>
    obtain ⟨hshutting, hreaching, hclaimed, -⟩ := claimed_turn hact
    rw [← hshutting] at hshut
    rw [← hreaching, ← hclaimed] at htold
    exact ⟨hshut, htold⟩
  | behave b' =>
    cases hact
    exact h

theorem Run.informed (h : Run {} b₀ moves m b) : Informed m := by
  induction h with
  | nil => exact ⟨fun hshut => absurd hshut (by simp), fun hsome => by simp at hsome⟩
  | concat hrun hact ih => exact ih.act (Reachable.lined ⟨b₀, _, hrun⟩) hact

/-! ## Turns of the writer -/

/-- At no time a write would break down. -/
def Steady (b₀ : Backend) (moves : List Move) : Prop :=
  b₀.breaks = false ∧ ∀ b, .behave b ∈ moves → b.breaks = false

theorem Steady.of_append (h : Steady b₀ (moves ++ more)) : Steady b₀ moves :=
  ⟨h.1, fun b hb => h.2 b (List.mem_append_left _ hb)⟩

theorem breaks_act (hact : m.act b move = some (m', b')) (hsteady : b.breaks = false)
    (hbehaves : ∀ b₁, move = .behave b₁ → b₁.breaks = false) : b'.breaks = false := by
  cases move with
  | handIn t =>
    cases hact
    exact hsteady
  | wake =>
    obtain ⟨owed, -, -, rfl⟩ := act_wake_eq_some hact
    exact hsteady
  | flush | shut =>
    cases hact
    exact hsteady
  | rouse =>
    obtain ⟨shutting, -, -, rfl⟩ := act_rouse_eq_some hact
    exact hsteady
  | claim =>
    obtain ⟨reaching, -, -, rfl⟩ := act_claim_eq_some hact
    exact hsteady
  | turn =>
    rcases turn_cases hact with ⟨-, store, hstep, -⟩ | ⟨-, -, -, -, rfl⟩ | ⟨-, -, -, -, rfl⟩ |
      ⟨-, -, -, rfl⟩
    · rcases step_cases hstep with ⟨-, -, rfl⟩ | ⟨-, -, rfl⟩ | ⟨id, p, held, n, -, rfl, -⟩
      · exact hsteady
      · exact hsteady
      · rw [write_breaks]
        exact hsteady
    all_goals exact hsteady
  | behave b₁ =>
    cases hact
    exact hbehaves b₁ rfl

theorem Run.breaks_eq_false (h : Run m b₀ moves m' b') (hsteady : Steady b₀ moves) :
    b'.breaks = false := by
  induction h with
  | nil => exact hsteady.1
  | concat hrun hact ih =>
    refine breaks_act hact (ih hsteady.of_append) fun b₁ hb₁ => hsteady.2 b₁ ?_
    rw [hb₁]
    simp

theorem alive_act (hlined : Lined m.store) (halive : m.store.writer ≠ .dead)
    (hsteady : b.breaks = false) (hact : m.act b move = some (m', b')) :
    m'.store.writer ≠ .dead := by
  by_cases hturn : move = .turn
  · subst hturn
    rcases turn_cases hact with ⟨-, store, hstep, rfl⟩ | ⟨-, -, -, rfl, -⟩ |
      ⟨-, -, -, rfl, -⟩ | ⟨-, -, rfl, -⟩
    · have hwrite : m.store.act b .write = some (store, b') := hstep
      exact Store.alive_act hlined halive hsteady hwrite
    · simp
    · exact halive
    · simp
  · rw [(act_of_ne hturn hact).1]
    exact halive

theorem Run.alive (h : Run {} b₀ moves m b) (hsteady : Steady b₀ moves) :
    m.store.writer ≠ .dead := by
  induction h with
  | nil => simp
  | concat hrun hact ih =>
    exact alive_act (Reachable.lined ⟨b₀, _, hrun⟩) (ih hsteady.of_append)
      (hrun.breaks_eq_false hsteady.of_append) hact

/-- Every turn of the writer of a closed store brings it nearer to its end. -/
theorem Draining.left_turn (h : Draining m) (hlined : Lined m.store) (hsteady : b.breaks = false)
    (hturn : m.turn b = some (m', b')) : m'.store.left + 1 = m.store.left := by
  rcases turn_cases hturn with ⟨hbusy, store, hstep, rfl⟩ | ⟨hwriter, -, -, rfl, -⟩ |
    ⟨hwriter, hleaving, hwake, -, -⟩ | ⟨hwriter, -, rfl, -⟩
  · rcases step_cases hstep with ⟨hready, rfl, -⟩ | ⟨hparked, -, -⟩ |
      ⟨id, p, held, n, hwriter, -, hfinish⟩
    · rcases hlined.takeNext_cases b with ⟨id, order, p, horder, -, heq⟩ | ⟨horder, heq⟩
      · simp [heq, left, horder, hready]
        omega
      · -- nothing is in line, and the store is closed
        simp [heq, left, horder, hready, h.closed]
    · exact absurd hparked hbusy
    · obtain ⟨hready, -, horder⟩ := finish_of_steady hsteady m.store id p n hfinish
      simp [left, hready, horder, hwriter]
  · simp [left, hwriter, disguise]
  · exact absurd ⟨hwriter, .inr ⟨hleaving, hwake⟩⟩ h.awake
  · simp [left, hwriter, disguise]

/-- The turns of the writer among some moves. -/
def turns (moves : List Move) : Nat :=
  moves.countP fun
    | .turn => true
    | _ => false

theorem turns_append (moves more : List Move) : turns (moves ++ more) = turns moves + turns more :=
  List.countP_append

theorem turns_of_ne (hother : move ≠ .turn) : turns [move] = 0 := by
  cases move with
  | turn => exact absurd rfl hother
  | _ => rfl

/-- The writer of a closed store has exactly the turns left that it has not taken yet. -/
theorem Draining.run (h : Draining m) (hreach : Reachable m b) (hrun : Run m b moves m' b')
    (hsteady : Steady b moves) : Draining m' ∧ m'.store.left + turns moves = m.store.left := by
  induction hrun with
  | nil => exact ⟨h, rfl⟩
  | @concat moves m₁ m₂ b₁ b₂ move hrun hact ih =>
    obtain ⟨hdraining, hleft⟩ := ih hsteady.of_append
    have hlined := (hreach.run hrun).lined
    refine ⟨hdraining.act hlined hact, ?_⟩
    rw [turns_append, ← hleft]
    by_cases hturn : move = .turn
    · subst hturn
      rw [← hdraining.left_turn hlined (hrun.breaks_eq_false hsteady.of_append) hact]
      show _ + (_ + 1) = _
      omega
    · obtain ⟨hwriter, -, -, hsame⟩ := act_of_ne hturn hact
      rw [turns_of_ne hturn, left, hwriter, (hsame hdraining.closed).2]
      rfl

/-- A writer that has not ended and does not sleep can take its turn, unless the backend holds its write
back. -/
theorem turns_of_awake (hawake : ¬m.Asleep) (hopen : m.store.writer.ended = false) (b : Backend) :
    (m.act b .turn).isSome ∨ b.admitted = 0 ∧ ∃ id p, m.store.writer = .writing id p true := by
  cases hwriter : m.store.writer with
  | ready => exact .inl (by simp [Moment.act, Moment.turn, Store.step, hwriter])
  | parked =>
    cases hparking : m.parking with
    | leaving =>
      refine .inl ?_
      simp only [Moment.act, Moment.turn, hwriter, hparking]
      split <;> rfl
    | waiting => exact absurd ⟨hwriter, .inl hparking⟩ hawake
    | woken => exact .inl (by simp [Moment.act, Moment.turn, hwriter, hparking])
  | writing id p held =>
    by_cases hheld : held = true ∧ b.admitted = 0
    · obtain ⟨rfl, hnone⟩ := hheld
      exact .inr ⟨hnone, id, p, rfl⟩
    · exact .inl (by simp [Moment.act, Moment.turn, Store.step, hwriter, hheld])
  | stopped => simp [hwriter, Writer.ended] at hopen
  | dead => simp [hwriter, Writer.ended] at hopen

/-! ## A writer that has stopped -/

/-- When the writer has stopped, everything that was handed in has been written and answered. -/
theorem Reachable.drained (h : Reachable m b) (hstopped : m.store.writer = .stopped) :
    m.store.Drained := by
  obtain ⟨s, hreach, hshows⟩ := h.exists_shows
  have hdrained := hreach.drained ((hshows.writer_eq (by simp [hstopped])).trans hstopped)
  rw [hshows.same] at hstopped ⊢
  exact ⟨hstopped, hdrained.writing, hdrained.pending, hdrained.answered, hdrained.flushed⟩

theorem Reachable.left_eq_zero_iff (h : Reachable m b) (halive : m.store.writer ≠ .dead) :
    m.store.left = 0 ↔ m.store.writer.ended = true := by
  cases hwriter : m.store.writer with
  | dead => exact absurd hwriter halive
  | stopped =>
    obtain ⟨s, hreach, hshows⟩ := h.exists_shows
    have hhalted := hreach.halted ((hshows.writer_eq (by simp [hwriter])).trans hwriter)
    have horder : m.store.order = [] := by
      rw [hshows.same]
      exact hhalted.2.1
    simp [left, hwriter, Writer.ended, horder]
  | _ => simp [left, hwriter, Writer.ended]

/-! ## Calls of `close` -/

/-- A call of `close` has taken the handle of the writer, and waits for it. -/
def Closing (m : Moment) : Prop :=
  m.store.writerClaimed = true ∧ m.store.writer.ended = false

/-- A call of `close` that reached for the handle at `m` has returned at `m'`: if it got the handle the
writer has ended, and otherwise it returned at once. -/
def CloseReturned (m m' : Moment) : Prop :=
  m.store.claim.2 = true → m'.store.writer.ended = true

end Moment

open Moment (Closing CloseReturned turns)

variable {m : Moment} {before : List Moment.Move}

/-- What it means to close a store, however the parts of all calls and the turns of the writer are
interleaved. As soon as a call has shut the store every request is answered with a failure at once and
changes nothing else. When a call reaches for the handle of the writer, and no write ever breaks down,
the writer has a number of turns left that only its turns diminish; it has ended exactly when none is
left, and until then it can go on unless the backend holds its write back. If no other call had taken
the handle and was waiting, then nothing is pending or being written when this call returns, every
ticket has its answer and nobody waits for a flush; and whatever happens then, this stays so and the
records of the backend stay as they are. -/
theorem close_drains (hbefore : Moment.Run {} b₀ before m b) :
    (m.store.closed = true → ∀ after m' b', Moment.Run m b after m' b' → ∀ t,
      m'.store.handIn t = ({ m'.store with issued := m'.store.issued + 1 }.reply
        [⟨m'.store.issued, t.id, t.sequence⟩] (late t), false)) ∧
    ∀ m₁ b₁ after m' b', m.act b .claim = some (m₁, b₁) → Moment.Run m₁ b₁ after m' b' →
      Moment.Steady b₀ (before ++ .claim :: after) →
      m₁.store.closed = true ∧
      (m'.store.left + turns after = m₁.store.left ∧
        (m'.store.left = 0 ↔ m'.store.writer.ended = true) ∧
        (m'.store.writer.ended = false → (m'.act b' .turn).isSome ∨
          b'.admitted = 0 ∧ ∃ id p, m'.store.writer = .writing id p true)) ∧
      (¬Closing m → CloseReturned m m' → m'.store.Drained ∧
        ∀ later m'' b'', Moment.Run m' b' later m'' b'' →
          m''.store.Drained ∧ b''.records = b'.records ∧
            m''.store.attempts = m'.store.attempts) := by
  constructor
  · intro hclosed after m' b' hafter t
    exact handIn_of_closed (hafter.closed hclosed) t
  · intro m₁ b₁ after m' b' hclaim hafter hsteady
    have hbegun := hbefore.concat hclaim
    have hwhole := hbegun.trans hafter
    rw [List.append_assoc] at hwhole
    have hreach : Moment.Reachable m' b' := ⟨b₀, _, hwhole⟩
    rw [List.append_cons] at hsteady
    have hsteady₁ : Moment.Steady b₀ (before ++ [.claim]) := hsteady.of_append
    have hsteady' : Moment.Steady b₁ after :=
      ⟨hbegun.breaks_eq_false hsteady₁, fun b hb => hsteady.2 b (by simp [hb])⟩
    -- the writer has been told before anybody reaches for its handle
    obtain ⟨reaching, -, rfl, -⟩ := Moment.act_claim_eq_some hclaim
    have hdraining₁ := hbegun.informed.told (.inr rfl)
    obtain ⟨hdraining, hleft⟩ := hdraining₁.run ⟨b₀, _, hbegun⟩ hafter hsteady'
    have halive := hwhole.alive (by simpa using hsteady)
    refine ⟨hdraining₁.closed, ⟨hleft, hreach.left_eq_zero_iff halive, fun hopen =>
      Moment.turns_of_awake hdraining.awake hopen b'⟩, fun hnone hreturned => ?_⟩
    -- the writer has ended, since this call waited for it or came after its end
    have hended : m'.store.writer.ended = true := by
      cases hclaimed : m.store.writerClaimed with
      | false => exact hreturned (by simp [claim, hclaimed])
      | true =>
        have hended : m.store.writer.ended = true := by
          by_contra hopen
          exact hnone ⟨hclaimed, Bool.eq_false_iff.2 hopen⟩
        rw [(hafter.of_ended hended).1]
        exact hended
    have hstopped := ((ended_iff _).1 hended).resolve_right halive
    refine ⟨hreach.drained hstopped, fun later m'' b'' hlater => ?_⟩
    obtain ⟨hstays, hattempts, hrecords⟩ := hlater.of_ended hended
    exact ⟨(hreach.run hlater).drained (hstays.trans hstopped), hrecords, hattempts⟩

/-- A snapshot that is in line when the store is closed is written before the call returns. -/
theorem snapshot_in_line_is_written :
    ∃ m m₁ m' b', Moment.Run {} {} [.handIn (tradeAt 1), .shut, .rouse] m {} ∧
      m.act {} .claim = some (m₁, {}) ∧ Moment.Run m₁ {} [.turn, .turn, .turn] m' b' ∧
      m.store.claim.2 = true ∧ m₁.store.left = 3 ∧ m'.store.writer.ended = true ∧
      m'.store.attempts = [⟨"trade_1", 1, true⟩] ∧ m'.store.Drained ∧
      (m'.store.handIn (tradeAt 1)).1.issued = 2 := by
  obtain ⟨m, m₁, m', b', hbefore, hclaim, hafter, hgets, hleft, hshut, hended, hattempts, hissued⟩ :
      ∃ m m₁ m' b', Moment.Run {} {} [.handIn (tradeAt 1), .shut, .rouse] m {} ∧
        m.act {} .claim = some (m₁, {}) ∧ Moment.Run m₁ {} [.turn, .turn, .turn] m' b' ∧
        m.store.claim.2 = true ∧ m₁.store.left = 3 ∧ m.store.closed = true ∧
        m'.store.writer.ended = true ∧ m'.store.attempts = [⟨"trade_1", 1, true⟩] ∧
        m'.store.issued = 1 :=
    ⟨_, _, _, _, .concat (.concat (.concat .nil rfl) rfl) rfl, rfl,
      .concat (.concat (.concat .nil rfl) rfl) rfl, rfl, rfl, rfl, rfl, rfl, rfl⟩
  obtain ⟨hlate, hdrains⟩ := close_drains hbefore
  have hsteady : Moment.Steady {} ([.handIn (tradeAt 1), .shut, .rouse] ++
      .claim :: [.turn, .turn, .turn]) := ⟨rfl, fun b hb => by simp at hb⟩
  obtain ⟨-, -, hdrained⟩ := hdrains m₁ {} _ m' b' hclaim hafter hsteady
  have hnone : ¬Closing m := fun hclosing => by simp [claim, hclosing.1] at hgets
  refine ⟨m, m₁, m', b', hbefore, hclaim, hafter, hgets, hleft, hended, hattempts,
    (hdrained hnone fun _ => hended).1, ?_⟩
  rw [hlate hshut _ m' b' (.trans (.concat .nil hclaim) hafter)]
  exact congrArg (· + 1) hissued

/-- Two ways in which closing is less than it may seem. Of two calls only the one that is first to
reach for the handle gets it, even if the other one has shut the store before; that one returns at
once, with a snapshot being written and its ticket without answer. And a request that comes too late is
not told that the store is closed if its snapshot has no stored form. -/
theorem second_call_does_not_wait :
    (∃ m m₁, Moment.Run {} {} [.handIn (tradeAt 1), .turn, .shut, .shut, .rouse, .rouse, .claim] m {} ∧
      Closing m ∧ m.act {} .claim = some (m₁, {}) ∧ CloseReturned m m₁ ∧
      m₁.store.writing = true ∧ m₁.store.issued = 1 ∧ ¬m₁.store.Answered 0) ∧
    ∃ m, Moment.Run {} {} [.shut, .rouse, .claim, .turn] m {} ∧ m.store.writer.ended = true ∧
      (m.store.handIn Engine.patientOffer).1.answers = [⟨⟨0, "trade_1", 1⟩, .error ⟨"trade_1", 1,
        "failed to encode snapshot: " ++
          "failed to encode timestamp. timestamp_nanos_opt returned None"⟩⟩] := by
  refine ⟨⟨_, _, .concat (.concat (.concat (.concat (.concat (.concat (.concat .nil
    rfl) rfl) rfl) rfl) rfl) rfl) rfl, ⟨rfl, rfl⟩, rfl, nofun, rfl, rfl, ?_⟩, ?_⟩
  · rintro ⟨a, ha, -⟩
    cases ha
  · refine ⟨_, .concat (.concat (.concat (.concat .nil rfl) rfl) rfl) rfl, rfl, ?_⟩
    rw [handIn_of_closed rfl]
    show [(⟨_, late Engine.patientOffer _⟩ : Answer)] = _
    rw [late_of_not_exists_encode Engine.not_exists_encode_patientOffer]
    rfl

end PeerTrade.Store
