import PeerTrade.Proofs.Store.Tables
import PeerTrade.Store.Moment

/-!
# Moments and stores

Whoever is interrupted, and wherever, the tables are those of a store that whole steps lead to
(`Store.Moment.Reachable.exists_shows`): only the stored wake-up can differ, the handle of the writer,
and whether the writer is still parked. The other way round every store that whole steps lead to is a
moment at which nobody is interrupted (`Store.Moment.reachable_of_store`).
-/

namespace PeerTrade.Store

variable {s s' : Store} {b b' b₀ : Backend} {t : Trade}

/-! ## What nobody looks at -/

/-- The store with another stored wake-up, another writer and another handle. -/
def disguise (s : Store) (wake : Bool) (writer : Writer) (writerClaimed : Bool) : Store :=
  { s with wake, writer, writerClaimed }

@[simp] theorem wake_disguise (s : Store) (wake : Bool) (writer : Writer) (claimed : Bool) :
    (s.disguise wake writer claimed).wake = wake := rfl

@[simp] theorem writer_disguise (s : Store) (wake : Bool) (writer : Writer) (claimed : Bool) :
    (s.disguise wake writer claimed).writer = writer := rfl

@[simp] theorem closed_disguise (s : Store) (wake : Bool) (writer : Writer) (claimed : Bool) :
    (s.disguise wake writer claimed).closed = s.closed := rfl

theorem putInLine_disguise (s : Store) (wake : Bool) (writer : Writer) (claimed : Bool)
    (ticket : Ticket) (record : Bytes) :
    (s.disguise wake writer claimed).putInLine ticket record =
      ((s.putInLine ticket record).1.disguise wake writer claimed,
        (s.putInLine ticket record).2) := by
  cases hstale : (s.highest.get? ticket.tradeId).any (ticket.sequence < ·) <;>
    cases hpending : s.pending.get? ticket.tradeId <;>
    simp [putInLine, disguise, reply, hstale, hpending]

/-- No request looks at the stored wake-up, at the writer or at its handle. -/
theorem handIn_disguise (s : Store) (wake : Bool) (writer : Writer) (claimed : Bool) (t : Trade) :
    (s.disguise wake writer claimed).handIn t =
      ((s.handIn t).1.disguise wake writer claimed, (s.handIn t).2) := by
  cases hencode : t.toSnapshot.encode with
  | error cause =>
    rw [handIn_of_encode_error hencode, handIn_of_encode_error hencode]
    rfl
  | ok record =>
    rw [handIn_of_encode_ok hencode, handIn_of_encode_ok hencode, closed_disguise]
    by_cases hclosed : s.closed = true
    · rw [if_pos hclosed, if_pos hclosed]
      rfl
    · rw [if_neg hclosed, if_neg hclosed]
      exact putInLine_disguise { s with issued := s.issued + 1 } wake writer claimed _ record

/-- A request leaves them as they are. -/
theorem handIn_same (s : Store) (t : Trade) :
    (s.handIn t).1 = (s.handIn t).1.disguise s.wake s.writer s.writerClaimed :=
  congrArg Prod.fst (handIn_disguise s s.wake s.writer s.writerClaimed t)

theorem schedule_disguise (s : Store) (wake : Bool) (writer : Writer) (claimed : Bool) (t : Trade) :
    (s.schedule t).1.disguise wake writer claimed =
      (s.handIn t).1.disguise wake writer claimed := by
  unfold schedule
  dsimp only
  split <;> rfl

theorem flush_disguise (s : Store) (wake : Bool) (writer : Writer) (claimed : Bool) :
    (s.disguise wake writer claimed).flush.1 = s.flush.1.disguise wake writer claimed := by
  cases hidle : s.order.isEmpty && !s.writing <;> simp [flush, idle, disguise, hidle]

theorem takeNext_disguise (s : Store) (wake : Bool) (writer : Writer) (claimed : Bool)
    (b : Backend) :
    (s.disguise wake writer claimed).takeNext b =
      (s.takeNext b).disguise wake (s.takeNext b).writer claimed := by
  cases horder : s.order with
  | nil => simp [takeNext, rest, disguise, horder]
  | cons id order =>
    cases hpending : s.pending.get? id with
    | some p => simp [takeNext, disguise, horder, hpending]
    | none => cases order <;> simp [takeNext, rest, disguise, horder, hpending]

theorem finish_disguise (s : Store) (wake : Bool) (writer : Writer) (claimed : Bool) (id : String)
    (p : Pending) (result : WriteResult) :
    (s.disguise wake writer claimed).finish id p result =
      (s.finish id p result).disguise wake (s.finish id p result).writer claimed := by
  cases result <;> rfl

theorem step_disguise {id : String} {p : Pending} {held : Bool}
    (hwriter : s.writer = .writing id p held) (wake claimed : Bool) (b : Backend) :
    (s.disguise wake s.writer claimed).step b =
      (s.step b).map fun r => (r.1.disguise wake r.1.writer claimed, r.2) := by
  simp only [Store.step, writer_disguise, hwriter]
  split
  · rfl
  · simp [finish_disguise]

theorem act_write_of_ready (hready : s.writer = .ready) (b : Backend) :
    s.act b .write = some (s.takeNext b, b) := by
  simp [Store.act, Store.step, hready]

theorem act_write_of_parked (hparked : s.writer = .parked) (hwake : s.wake = true) (b : Backend) :
    s.act b .write = some (s.disguise false .ready s.writerClaimed, b) := by
  simp [Store.act, Store.step, hparked, hwake, disguise]

/-- A writer that looks for work while the store is at rest finds nothing, and changes nothing. -/
theorem AtRest.takeNext_eq (h : AtRest s) (hflushing : s.flushing = []) (b : Backend) :
    s.takeNext b = s.disguise s.wake .parked s.writerClaimed := by
  obtain ⟨horder, hwriting, hopen⟩ := h
  simp [Store.takeNext, rest, disguise, horder, hwriting, hopen, hflushing]

theorem Tidy.disguise (h : Tidy s) (wake claimed : Bool) {writer : Writer}
    (hwriter : writer = s.writer ∨ writer = .ready) : Tidy (s.disguise wake writer claimed) where
  once := h.once
  keys := h.keys
  served := h.served
  flushing := h.flushing
  writing id p held hwriting := by
    rcases hwriter with rfl | rfl
    · exact h.writing id p held hwriting
    · cases hwriting
  resting hquiet := by
    rcases hwriter with rfl | rfl
    · exact h.resting hquiet
    · simp at hquiet

/-! ## Runs -/

namespace Moment

variable {m m' m₁ m₂ : Moment} {b₁ b₂ : Backend} {move : Move} {moves more : List Move}

/-- Some moves lead from one moment to another. -/
inductive Run (m : Moment) (b : Backend) : List Move → Moment → Backend → Prop where
  | nil : Run m b [] m b
  | concat {moves : List Move} {m₁ m₂ : Moment} {b₁ b₂ : Backend} {move : Move} :
      Run m b moves m₁ b₁ → m₁.act b₁ move = some (m₂, b₂) → Run m b (moves ++ [move]) m₂ b₂

/-- A moment that some moves lead to from a new store. -/
def Reachable (m : Moment) (b : Backend) : Prop := ∃ b₀ moves, Run {} b₀ moves m b

theorem Run.trans (h : Run m b moves m₁ b₁) (hmore : Run m₁ b₁ more m₂ b₂) :
    Run m b (moves ++ more) m₂ b₂ := by
  induction hmore with
  | nil => rwa [List.append_nil]
  | concat _ hact ih =>
    rw [← List.append_assoc]
    exact .concat ih hact

/-- What every move keeps, a run keeps. -/
theorem Run.keeps {P : Moment → Prop} (h : Run m b moves m' b') (hm : P m)
    (step : ∀ m b move m' b', P m → m.act b move = some (m', b') → P m') : P m' := by
  induction h with
  | nil => exact hm
  | concat _ hact ih => exact step _ _ _ _ _ ih hact

theorem reachable_new (b : Backend) : Reachable {} b := ⟨b, [], .nil⟩

theorem Reachable.run (h : Reachable m b) (hrun : Run m b moves m' b') : Reachable m' b' := by
  obtain ⟨b₀, before, hbefore⟩ := h
  exact ⟨b₀, _, hbefore.trans hrun⟩

theorem Reachable.act (h : Reachable m b) (move : Move) (hact : m.act b move = some (m', b')) :
    Reachable m' b' := h.run (.concat .nil hact)

/-! ## What a move does -/

theorem notify_cases (m : Moment) :
    (m.store.writer = .parked ∧ m.parking = .waiting ∧ m.notify = { m with parking := .woken }) ∨
    (m.store.writer = .parked → m.parking ≠ .waiting) ∧
      m.notify = { m with store := m.store.notify } := by
  unfold notify
  split
  next hwriter hparking => exact .inl ⟨hwriter, hparking, rfl⟩
  next hother => exact .inr ⟨fun hwriter hparking => hother hwriter hparking, rfl⟩

theorem notify_of_ne (h : m.parking ≠ .waiting) :
    m.notify = { m with store := m.store.notify } := by
  rcases m.notify_cases with ⟨-, hwaiting, -⟩ | ⟨-, heq⟩
  · exact absurd hwaiting h
  · exact heq

theorem act_handIn (m : Moment) (b : Backend) (t : Trade) :
    m.act b (.handIn t) = some ({ m with
      store := (m.store.handIn t).1, owed := m.owed + (m.store.handIn t).2.toNat }, b) := rfl

theorem act_wake_eq_some (h : m.act b .wake = some (m', b')) :
    ∃ owed, m.owed = owed + 1 ∧ m' = { m.notify with owed } ∧ b' = b := by
  cases howed : m.owed with
  | zero => simp [Moment.act, howed] at h
  | succ owed =>
    simp only [Moment.act, howed] at h
    cases h
    exact ⟨owed, rfl, rfl, rfl⟩

theorem act_rouse_eq_some (h : m.act b .rouse = some (m', b')) :
    ∃ shutting, m.shutting = shutting + 1 ∧
      m' = { m.notify with shutting, reaching := m.reaching + 1 } ∧ b' = b := by
  cases hshutting : m.shutting with
  | zero => simp [Moment.act, hshutting] at h
  | succ shutting =>
    simp only [Moment.act, hshutting] at h
    cases h
    exact ⟨shutting, rfl, rfl, rfl⟩

theorem act_claim_eq_some (h : m.act b .claim = some (m', b')) :
    ∃ reaching, m.reaching = reaching + 1 ∧ m' = { m with store := m.store.claim.1, reaching } ∧
      b' = b := by
  cases hreaching : m.reaching with
  | zero => simp [Moment.act, hreaching] at h
  | succ reaching =>
    simp only [Moment.act, hreaching] at h
    cases h
    exact ⟨reaching, rfl, rfl, rfl⟩

/-- A writer that is not parked works. One that is about to wait takes a stored wake-up, or waits; and
one that has been woken goes on. -/
theorem turn_cases (h : m.turn b = some (m', b')) :
    (m.store.writer ≠ .parked ∧ ∃ store, m.store.step b = some (store, b') ∧
      m' = { m with store, parking := .leaving }) ∨
    (m.store.writer = .parked ∧ m.parking = .leaving ∧ m.store.wake = true ∧
      m' = { m with store := m.store.disguise false .ready m.store.writerClaimed } ∧ b' = b) ∨
    (m.store.writer = .parked ∧ m.parking = .leaving ∧ m.store.wake = false ∧
      m' = { m with parking := .waiting } ∧ b' = b) ∨
    (m.store.writer = .parked ∧ m.parking = .woken ∧
      m' = { m with
        store := m.store.disguise m.store.wake .ready m.store.writerClaimed
        parking := .leaving } ∧ b' = b) := by
  unfold Moment.turn at h
  split at h
  next hwriter hparking =>
    split at h
    next hwake =>
      cases h
      exact .inr (.inl ⟨hwriter, hparking, hwake, rfl, rfl⟩)
    next hwake =>
      cases h
      exact .inr (.inr (.inl ⟨hwriter, hparking, by simpa using hwake, rfl, rfl⟩))
  next => cases h
  next hwriter hparking =>
    cases h
    exact .inr (.inr (.inr ⟨hwriter, hparking, rfl, rfl⟩))
  next hleaving hwaiting hwoken =>
    obtain ⟨⟨store, b''⟩, hstep, heq⟩ := Option.map_eq_some_iff.1 h
    cases heq
    refine .inl ⟨fun hwriter => ?_, store, hstep, rfl⟩
    cases hparking : m.parking with
    | leaving => exact hleaving hwriter hparking
    | waiting => exact hwaiting hwriter hparking
    | woken => exact hwoken hwriter hparking

/-! ## The store that a moment shows -/

/-- The tables of a moment are those of a store. Only its stored wake-up and its handle can be others,
and its writer can look for work where that of the store is parked. -/
structure Shows (m : Moment) (s : Store) : Prop where
  same : m.store = s.disguise m.store.wake m.store.writer m.store.writerClaimed
  writer : m.store.writer = s.writer ∨ m.store.writer = .ready ∧ s.writer = .parked

theorem shows_of_eq_disguise {wake claimed : Bool} {writer : Writer}
    (h : m.store = s.disguise wake writer claimed)
    (hwriter : writer = s.writer ∨ writer = .ready ∧ s.writer = .parked) : m.Shows s := by
  refine ⟨?_, ?_⟩ <;> rw [h]
  · rfl
  · exact hwriter

theorem Shows.writer_eq (h : m.Shows s) (hbusy : m.store.writer ≠ .ready) :
    s.writer = m.store.writer := by
  rcases h.writer with hsame | ⟨hready, -⟩
  · exact hsame.symm
  · exact absurd hready hbusy

/-- Only the store matters. -/
theorem Shows.congr (h : m.Shows s) (hstore : m'.store = m.store) : m'.Shows s := by
  refine ⟨?_, ?_⟩ <;> rw [hstore]
  · exact h.same
  · exact h.writer

theorem Shows.notify (h : m.Shows s) : m.notify.Shows s := by
  rcases m.notify_cases with ⟨-, -, heq⟩ | ⟨-, heq⟩
  · exact h.congr (by rw [heq])
  · rw [heq]
    exact ⟨congrArg Store.notify h.same, h.writer⟩

/-- The writer of a moment ceases to be parked; the store stays as it is. -/
theorem Shows.ready (h : m.Shows s) (hwriter : m.store.writer = .parked) (wake : Bool)
    (hm : m'.store = m.store.disguise wake .ready m.store.writerClaimed) : m'.Shows s := by
  rw [h.same] at hm
  exact shows_of_eq_disguise hm (.inr ⟨rfl, (h.writer_eq (by simp [hwriter])).trans hwriter⟩)

/-- The writer of a moment looks for work. That of the store does so too, after it has been woken; or
the store is at rest, and there is nothing to be found. -/
theorem Shows.look (h : m.Shows s) (hreach : Store.Reachable s b) (hready : m.store.writer = .ready)
    (hm : m'.store = m.store.takeNext b) : ∃ s', Store.Reachable s' b ∧ m'.Shows s' := by
  have hlook : m.store.takeNext b =
      (s.takeNext b).disguise m.store.wake (s.takeNext b).writer m.store.writerClaimed := by
    rw [← takeNext_disguise s m.store.wake m.store.writer m.store.writerClaimed]
    exact congrArg (Store.takeNext · b) h.same
  rw [hlook] at hm
  rcases h.writer with hwriter | ⟨-, hparked⟩
  · have hact := act_write_of_ready (hwriter.symm.trans hready) b
    exact ⟨s.takeNext b, hreach.act hact, shows_of_eq_disguise hm (.inl rfl)⟩
  · -- the store has not been woken yet: it is now, or it would not find anything
    cases hwake : s.wake with
    | true =>
      have hrouse := act_write_of_parked hparked hwake b
      have hact := act_write_of_ready (s.writer_disguise false .ready s.writerClaimed) b
      rw [takeNext_disguise] at hact
      exact ⟨_, (hreach.act hrouse).act hact, shows_of_eq_disguise hm (.inl rfl)⟩
    | false =>
      have hrest := hreach.atRest hparked hwake
      rw [hrest.takeNext_eq (hreach.tidy.flushing_eq_nil hrest)] at hm
      exact ⟨s, hreach, shows_of_eq_disguise hm (.inl hparked.symm)⟩

/-- The writer goes on. The store can follow, or has followed already. -/
theorem Shows.turn (h : m.Shows s) (hreach : Store.Reachable s b)
    (hturn : m.turn b = some (m', b')) : ∃ s', Store.Reachable s' b' ∧ m'.Shows s' := by
  rcases turn_cases hturn with ⟨hbusy, store, hstep, rfl⟩ | ⟨hwriter, -, -, rfl, rfl⟩ |
    ⟨-, -, -, rfl, rfl⟩ | ⟨hwriter, -, rfl, rfl⟩
  · rcases step_cases hstep with ⟨hready, rfl, rfl⟩ | ⟨hparked, -, -⟩ |
      ⟨id, p, held, n, hwriter, -, -⟩
    · exact h.look hreach hready rfl
    · exact absurd hparked hbusy
    · -- both are in the middle of the same write
      have hsame : s.writer = m.store.writer := h.writer_eq (by simp [hwriter])
      have hboth := step_disguise (hsame.trans hwriter) m.store.wake m.store.writerClaimed b
      rw [hsame, ← h.same, hstep] at hboth
      obtain ⟨⟨s', b''⟩, hact, heq⟩ := Option.map_eq_some_iff.1 hboth.symm
      cases heq
      exact ⟨s', hreach.act (a := .write) hact, rfl, .inl rfl⟩
  · exact ⟨s, hreach, h.ready hwriter false rfl⟩
  · exact ⟨s, hreach, h.congr rfl⟩
  · exact ⟨s, hreach, h.ready hwriter _ rfl⟩

/-- Whatever happens at a moment, the store that it shows can follow. It is closed as soon as the first
part of a call of `close` has been carried out. -/
theorem Shows.act (h : m.Shows s) (hreach : Store.Reachable s b)
    (hact : m.act b move = some (m', b')) : ∃ s', Store.Reachable s' b' ∧ m'.Shows s' := by
  cases move with
  | handIn t =>
    cases hact
    have hstore : (m.store.handIn t).1 =
        (s.schedule t).1.disguise m.store.wake m.store.writer m.store.writerClaimed := by
      rw [schedule_disguise]
      exact congrArg Prod.fst ((congrArg (handIn · t) h.same).trans (handIn_disguise ..))
    refine ⟨_, hreach.act (a := .schedule t) rfl, shows_of_eq_disguise hstore ?_⟩
    rw [(s.schedule_same t).2]
    exact h.writer
  | wake =>
    obtain ⟨owed, -, rfl, rfl⟩ := act_wake_eq_some hact
    exact ⟨s, hreach, h.notify.congr rfl⟩
  | flush =>
    cases hact
    have hstore : m.store.flush.1 =
        s.flush.1.disguise m.store.wake m.store.writer m.store.writerClaimed :=
      (congrArg (fun s => s.flush.1) h.same).trans (flush_disguise ..)
    have hwriter : s.flush.1.writer = s.writer := by
      unfold Store.flush
      split <;> rfl
    refine ⟨_, hreach.act (s.act_flush b), shows_of_eq_disguise hstore ?_⟩
    rw [hwriter]
    exact h.writer
  | shut =>
    cases hact
    exact ⟨_, hreach.act (a := .close) rfl, congrArg shut h.same, h.writer⟩
  | rouse =>
    obtain ⟨shutting, -, rfl, rfl⟩ := act_rouse_eq_some hact
    exact ⟨s, hreach, h.notify.congr rfl⟩
  | claim =>
    obtain ⟨reaching, -, rfl, rfl⟩ := act_claim_eq_some hact
    exact ⟨s, hreach, congrArg (fun s => s.claim.1) h.same, h.writer⟩
  | turn => exact h.turn hreach hact
  | behave b' =>
    cases hact
    exact ⟨s, hreach.act (a := .behave b') rfl, h⟩

/-- The tables of every moment are those of a store that whole steps lead to. -/
theorem Reachable.exists_shows (h : Reachable m b) : ∃ s, Store.Reachable s b ∧ m.Shows s := by
  obtain ⟨b₀, moves, hrun⟩ := h
  induction hrun with
  | nil => exact ⟨{}, .start b₀, rfl, .inl rfl⟩
  | concat _ hact ih =>
    obtain ⟨s, hreach, hshows⟩ := ih
    exact hshows.act hreach hact

theorem Shows.lined (h : m.Shows s) (hlined : Lined s) : Lined m.store := by
  rw [h.same]
  exact hlined.congr rfl rfl

theorem Shows.tidy (h : m.Shows s) (htidy : Tidy s) : Tidy m.store := by
  rw [h.same]
  exact htidy.disguise _ _ (h.writer.imp_right And.left)

theorem Reachable.lined (h : Reachable m b) : Lined m.store := by
  obtain ⟨s, hreach, hshows⟩ := h.exists_shows
  exact hshows.lined hreach.lined

theorem Reachable.tidy (h : Reachable m b) : Tidy m.store := by
  obtain ⟨s, hreach, hshows⟩ := h.exists_shows
  exact hshows.tidy hreach.tidy

/-- The other way round, whole steps are moves after which nobody is interrupted. -/
theorem reachable_of_store (h : Store.Reachable s b) : Reachable { store := s } b := by
  induction h with
  | start b => exact reachable_new b
  | @act s s' b b' action _ hact ih =>
    cases action with
    | schedule t =>
      cases hact
      have hbegun := ih.act _ (act_handIn { store := s } b t)
      cases hwakes : (s.handIn t).2 with
      | true =>
        -- the call goes on to wake the writer, which does not wait
        rw [hwakes] at hbegun
        have hended := hbegun.act .wake rfl
        rw [notify_of_ne (by simp)] at hended
        rwa [show (s.schedule t).1 = (s.handIn t).1.notify by simp [Store.schedule, hwakes]]
      | false =>
        rw [hwakes] at hbegun
        rwa [show (s.schedule t).1 = (s.handIn t).1 by simp [Store.schedule, hwakes]]
    | flush =>
      cases hact
      exact ih.act .flush rfl
    | close =>
      cases hact
      have hshut := ih.act .shut rfl
      have hroused := hshut.act .rouse rfl
      rw [notify_of_ne (by simp)] at hroused
      exact hroused.act .claim rfl
    | write =>
      refine ih.act .turn ?_
      rcases step_cases hact with ⟨hready, -, -⟩ | ⟨hparked, rfl, rfl⟩ | ⟨id, p, held, n, hwriter, -, -⟩
      · simp [Moment.act, Moment.turn, hready, show s.step b = some (s', b') from hact]
      · cases hwake : s.wake with
        | true => simp [Moment.act, Moment.turn, hparked, hwake]
        | false => simp [Store.act, Store.step, hparked, hwake] at hact
      · simp [Moment.act, Moment.turn, hwriter, show s.step b = some (s', b') from hact]
    | behave b' =>
      cases hact
      exact ih.act (.behave b') rfl

end Moment

end PeerTrade.Store
