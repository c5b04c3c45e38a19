import PeerTrade.Proofs.Store.Steps

/-!
# What holds of every store

The newest snapshot of a trade is pending, or is being written, or was the last to be written
(`Store.Sound`). Snapshots of a trade are written in the order of their sequences, so that the last
write that was accepted is the newest one (`Store.Ascending`).
-/

namespace PeerTrade.Store

variable {s s' : Store} {b b' : Backend} {action : Action}

/-! ## The newest snapshots -/

/-- The last finished write for a trade. -/
def lastAttempt? (s : Store) (id : String) : Option Attempt :=
  (s.attempts.filter (·.tradeId = id)).getLast?

/-- A record is the stored form of a trade at some sequence. -/
def Stores (record : Bytes) (id : String) (sequence : UInt64) : Prop :=
  ∃ t : Trade, t.id = id ∧ t.sequence = sequence ∧ t.toSnapshot.encode = .ok record

/-- A pending snapshot is what it is said to be, and the requests that it answers are not newer. -/
structure Serves (id : String) (p : Pending) : Prop where
  record : Stores p.record id p.sequence
  waiters : ∀ w ∈ p.waiters, w.tradeId = id ∧ w.sequence ≤ p.sequence

/-- Pending snapshots are the newest of their trades. Where none is pending, the newest one is
being written or was the last to be written, unless the writer broke down. -/
structure Sound (s : Store) : Prop where
  pending : ∀ id p, s.pending.get? id = some p →
    s.highest.get? id = some p.sequence ∧ Serves id p
  writing : ∀ id p held, s.writer = .writing id p held → Serves id p ∧
    ∀ greatest, s.pending.get? id = none → s.highest.get? id = some greatest →
      p.sequence = greatest
  settled : ∀ id greatest, s.pending.get? id = none → s.highest.get? id = some greatest →
    (∀ p held, s.writer ≠ .writing id p held) → s.writer ≠ .dead →
      ∃ a, s.lastAttempt? id = some a ∧ a.sequence = greatest

theorem sound_new : Sound {} where
  pending _ _ h := by cases h
  writing _ _ _ h := by cases h
  settled _ _ _ h := by cases h

theorem Sound.congr (h : Sound s) (hpending : s'.pending = s.pending)
    (hhighest : s'.highest = s.highest) (hattempts : s'.attempts = s.attempts)
    (hwriter : s'.writer = s.writer) : Sound s' := by
  constructor
  · rw [hpending, hhighest]
    exact h.pending
  · rw [hpending, hhighest, hwriter]
    exact h.writing
  · simp only [lastAttempt?]
    rw [hpending, hhighest, hwriter, hattempts]
    exact h.settled

theorem Sound.turn (h : Sound s) (hpending : s'.pending = s.pending)
    (hhighest : s'.highest = s.highest) (hattempts : s'.attempts = s.attempts)
    (hidle : ∀ id p held, s.writer ≠ .writing id p held) (hlive : s.writer ≠ .dead)
    (hidle' : ∀ id p held, s'.writer ≠ .writing id p held) : Sound s' := by
  constructor
  · rw [hpending, hhighest]
    exact h.pending
  · exact fun id p held hwriter => absurd hwriter (hidle' id p held)
  · simp only [lastAttempt?]
    rw [hpending, hhighest, hattempts]
    exact fun id greatest hnone hgreatest _ _ =>
      h.settled id greatest hnone hgreatest (hidle id) hlive

/-! ## Handing in a snapshot -/

/-- A pending snapshot that is exchanged for one with the greatest sequence. -/
theorem Sound.replace (h : Sound s) {id : String} {p : Pending}
    (hserves : Serves id p) (hpending : s'.pending = s.pending.insert id p)
    (hhighest : ∀ id', s'.highest.get? id' =
      if id' = id then some p.sequence else s.highest.get? id')
    (hattempts : s'.attempts = s.attempts) (hwriter : s'.writer = s.writer) : Sound s' := by
  have hother : ∀ id', id' ≠ id → s'.pending.get? id' = s.pending.get? id' ∧
      s'.highest.get? id' = s.highest.get? id' := by
    intro id' hne
    rw [hpending, hhighest, Dict.get?_insert, if_neg hne, if_neg (by simpa using hne)]
    exact ⟨rfl, rfl⟩
  have hself : s'.pending.get? id = some p := by rw [hpending, Dict.get?_insert_self]
  constructor
  · intro id' p' hp'
    by_cases hid : id' = id
    · subst hid
      rw [hself] at hp'
      cases hp'
      exact ⟨by rw [hhighest, if_pos rfl], hserves⟩
    · rw [(hother id' hid).1] at hp'
      rw [(hother id' hid).2]
      exact h.pending id' p' hp'
  · intro id' p' held hp'
    rw [hwriter] at hp'
    obtain ⟨hserves', hnewest⟩ := h.writing id' p' held hp'
    refine ⟨hserves', fun greatest hnone hgreatest => ?_⟩
    by_cases hid : id' = id
    · subst hid
      rw [hself] at hnone
      cases hnone
    · rw [(hother id' hid).1] at hnone
      rw [(hother id' hid).2] at hgreatest
      exact hnewest greatest hnone hgreatest
  · intro id' greatest hnone hgreatest hidle hlive
    by_cases hid : id' = id
    · subst hid
      rw [hself] at hnone
      cases hnone
    · rw [(hother id' hid).1] at hnone
      rw [(hother id' hid).2] at hgreatest
      rw [hwriter] at hidle hlive
      simp only [lastAttempt?]
      rw [hattempts]
      exact h.settled id' greatest hnone hgreatest hidle hlive

theorem Serves.concat {id : String} {p : Pending} (h : Serves id p) {ticket : Ticket}
    {record : Bytes} {sequence : UInt64} (hrecord : Stores record id sequence)
    (hid : ticket.tradeId = id) (hp : p.sequence ≤ sequence)
    (hticket : ticket.sequence ≤ sequence) :
    Serves id ⟨record, sequence, p.waiters ++ [ticket]⟩ := by
  refine ⟨hrecord, fun w hw => ?_⟩
  rcases List.mem_append.1 hw with hw | hw
  · obtain ⟨hwid, hwp⟩ := h.waiters w hw
    exact ⟨hwid, UInt64.le_trans hwp hp⟩
  · rw [List.mem_singleton.1 hw]
    exact ⟨hid, hticket⟩

theorem Sound.enqueue (h : Sound s) {ticket : Ticket} {record : Bytes}
    (hrecord : Stores record ticket.tradeId ticket.sequence) :
    Sound (s.enqueue ticket record) := by
  rcases s.enqueue_cases ticket record with ⟨⟨greatest, hgreatest, hlt⟩, p, hp, heq⟩ |
    ⟨-, -, heq⟩ | ⟨hnewest, p, hp, heq⟩ | ⟨-, hnone, heq⟩
  · -- the pending snapshot is the newest one, and stays so
    obtain ⟨hhighest, hserves⟩ := h.pending _ p hp
    rw [hhighest] at hgreatest
    cases hgreatest
    rw [heq]
    refine h.replace (hserves.concat hserves.record rfl (UInt64.le_refl _) (UInt64.le_of_lt hlt))
      rfl (fun id' => ?_) rfl rfl
    split
    next hid => rw [hid, hhighest]
    next => rfl
  · rw [heq]
    exact h.congr rfl rfl rfl rfl
  · -- the new snapshot is at least as new as the pending one, whose requests it takes over
    obtain ⟨hhighest, hserves⟩ := h.pending _ p hp
    have hle : p.sequence ≤ ticket.sequence := by
      rw [← UInt64.not_lt]
      exact fun hlt => hnewest ⟨_, hhighest, hlt⟩
    rw [heq]
    refine h.replace (hserves.concat hrecord rfl hle (UInt64.le_refl _)) rfl (fun id' => ?_)
      rfl rfl
    simp [Dict.get?_insert]
  · rw [heq]
    refine h.replace (p := ⟨record, ticket.sequence, [ticket]⟩) ⟨hrecord, fun w hw => ?_⟩ rfl
      (fun id' => ?_) rfl rfl
    · rw [List.mem_singleton.1 hw]
      exact ⟨rfl, UInt64.le_refl _⟩
    · simp [Dict.get?_insert]

theorem Sound.schedule (h : Sound s) (t : Trade) : Sound (s.schedule t).1 := by
  rcases s.schedule_cases t with ⟨failure, heq⟩ | ⟨record, hencode, heq⟩
  · rw [heq]
    exact h.congr rfl rfl rfl rfl
  · have hissued : Sound { s with issued := s.issued + 1 } := h.congr rfl rfl rfl rfl
    rw [heq]
    exact hissued.enqueue ⟨t, rfl, rfl, hencode⟩

/-! ## Writing -/

theorem Sound.rest (h : Sound s) (hwriter : s.writer = .ready) : Sound s.rest := by
  obtain ⟨flushing, writer, hquiet, -, heq⟩ := s.rest_eq
  rw [heq]
  refine h.turn rfl rfl rfl ?_ ?_ ?_
  · simp [hwriter]
  · simp [hwriter]
  · rcases hquiet with rfl | rfl <;> simp

theorem Sound.takeNext (h : Sound s) (hwriter : s.writer = .ready) (b : Backend) :
    Sound (s.takeNext b) := by
  rcases s.takeNext_cases b with ⟨id, order, p, -, hp, heq⟩ | ⟨order, -, heq⟩
  · obtain ⟨hhighest, hserves⟩ := h.pending id p hp
    rw [heq]
    constructor
    · intro id' p' hp'
      rw [Dict.get?_erase] at hp'
      split at hp'
      · cases hp'
      · exact h.pending id' p' hp'
    · -- the snapshot that is written now was the newest one in line
      intro id' p' held hp'
      cases hp'
      refine ⟨hserves, fun greatest _ hgreatest => ?_⟩
      rw [hhighest] at hgreatest
      exact Option.some.inj hgreatest
    · -- the other trades have no part in this
      intro id' greatest hnone hgreatest hidle _
      have hne : id' ≠ id := fun hid => hidle p b.holds (by rw [hid])
      rw [Dict.get?_erase, if_neg (by simpa using hne)] at hnone
      exact h.settled id' greatest hnone hgreatest (by simp [hwriter]) (by simp [hwriter])
  · have horder : Sound { s with order } := h.congr rfl rfl rfl rfl
    rw [heq]
    exact horder.rest hwriter

theorem lastAttempt?_concat {a : Attempt} (hattempts : s'.attempts = s.attempts ++ [a])
    (id : String) :
    s'.lastAttempt? id = if a.tradeId = id then some a else s.lastAttempt? id := by
  rw [lastAttempt?, hattempts, List.filter_append]
  by_cases hid : a.tradeId = id
  · simp [hid]
  · simp [hid, lastAttempt?]

theorem Sound.answer (h : Sound s) {id : String} {p : Pending} {held succeeded : Bool}
    (hwriter : s.writer = .writing id p held) (hpending : s'.pending = s.pending)
    (hhighest : s'.highest = s.highest)
    (hattempts : s'.attempts = s.attempts ++ [⟨id, p.sequence, succeeded⟩])
    (hready : s'.writer = .ready) : Sound s' := by
  constructor
  · rw [hpending, hhighest]
    exact h.pending
  · intro id' p' held' hp'
    rw [hready] at hp'
    cases hp'
  · intro id' greatest hnone hgreatest _ _
    rw [hpending] at hnone
    rw [hhighest] at hgreatest
    -- for the trade that was written the new attempt is the last one
    rw [lastAttempt?_concat hattempts]
    split
    next hid =>
      change id = id' at hid
      subst hid
      exact ⟨_, rfl, (h.writing id p held hwriter).2 greatest hnone hgreatest⟩
    next hid =>
      change id ≠ id' at hid
      exact h.settled id' greatest hnone hgreatest (by simp [hwriter, hid]) (by simp [hwriter])

theorem Sound.finish (h : Sound s) {id : String} {p : Pending} {held : Bool}
    (hwriter : s.writer = .writing id p held) (result : WriteResult) :
    Sound (s.finish id p result) := by
  cases result with
  | written => exact h.answer hwriter rfl rfl rfl rfl
  | refused cause => exact h.answer hwriter rfl rfl rfl rfl
  | broken =>
    -- nothing is claimed of trades without pending snapshot once the writer is dead
    constructor
    · exact h.pending
    · intro id' p' held' hp'
      cases hp'
    · intro id' greatest _ _ _ hlive
      exact absurd rfl hlive

theorem Sound.act (h : Sound s) (hact : s.act b action = some (s', b')) : Sound s' := by
  cases action with
  | schedule t =>
    cases hact
    exact h.schedule t
  | flush =>
    cases hact
    unfold flush
    split
    · exact h
    · exact h.congr rfl rfl rfl rfl
  | close =>
    cases hact
    exact h.congr rfl rfl rfl rfl
  | write =>
    rcases step_cases hact with ⟨hwriter, rfl, -⟩ | ⟨hwriter, rfl, -⟩ | ⟨id, p, held, n, hwriter, -, rfl⟩
    · exact h.takeNext hwriter b
    · exact h.turn rfl rfl rfl (by simp [hwriter]) (by simp [hwriter]) (by simp)
    · exact h.finish hwriter _
  | behave b' =>
    cases hact
    exact h

theorem Reachable.sound (h : Reachable s b) : Sound s :=
  h.induction sound_new fun _ _ _ _ _ hsound hact => hsound.act hact

/-! ## The order of the writes -/

/-- A sequence that is not above the greatest one handed in for a trade. -/
def Seen (s : Store) (id : String) (sequence : UInt64) : Prop :=
  ∃ greatest, s.highest.get? id = some greatest ∧ sequence ≤ greatest

/-- The finished writes of a trade ascend, and the one under way is not older than they are. -/
structure Ascending (s : Store) : Prop where
  attempts : s.attempts.Pairwise fun a a' => a.tradeId = a'.tradeId → a.sequence ≤ a'.sequence
  seen : ∀ a ∈ s.attempts, s.Seen a.tradeId a.sequence
  writing : ∀ id p held, s.writer = .writing id p held → s.Seen id p.sequence ∧
    ∀ a ∈ s.attempts, a.tradeId = id → a.sequence ≤ p.sequence

theorem ascending_new : Ascending {} where
  attempts := .nil
  seen _ h := by cases h
  writing _ _ _ h := by cases h

theorem Ascending.keep (h : Ascending s)
    (hseen : ∀ id sequence, s.Seen id sequence → s'.Seen id sequence)
    (hattempts : s'.attempts = s.attempts)
    (hwriter : ∀ id p held, s'.writer = .writing id p held → s.writer = .writing id p held) :
    Ascending s' := by
  constructor
  · rw [hattempts]
    exact h.attempts
  · rw [hattempts]
    exact fun a ha => hseen _ _ (h.seen a ha)
  · rw [hattempts]
    intro id p held hp
    obtain ⟨hid, hle⟩ := h.writing id p held (hwriter id p held hp)
    exact ⟨hseen _ _ hid, hle⟩

theorem seen_enqueue {id : String} {sequence : UInt64} (h : s.Seen id sequence) (ticket : Ticket)
    (record : Bytes) : (s.enqueue ticket record).Seen id sequence := by
  obtain ⟨greatest, hgreatest, hle⟩ := h
  -- the greatest sequence of a trade is exchanged only for one that is not smaller
  have hinsert (hnewest : ¬s.Superseded ticket.tradeId ticket.sequence) :
      ∃ g, (s.highest.insert ticket.tradeId ticket.sequence).get? id = some g ∧
        sequence ≤ g := by
    by_cases hid : id = ticket.tradeId
    · subst hid
      refine ⟨ticket.sequence, Dict.get?_insert_self _ _ _, UInt64.le_trans hle ?_⟩
      rw [← UInt64.not_lt]
      exact fun hlt => hnewest ⟨greatest, hgreatest, hlt⟩
    · rw [Dict.get?_insert, if_neg (by simpa using hid)]
      exact ⟨greatest, hgreatest, hle⟩
  rcases s.enqueue_cases ticket record with ⟨-, p, -, heq⟩ | ⟨-, -, heq⟩ | ⟨hnewest, p, -, heq⟩ |
    ⟨hnewest, -, heq⟩
  · rw [heq]
    exact ⟨greatest, hgreatest, hle⟩
  · rw [heq]
    exact ⟨greatest, hgreatest, hle⟩
  · rw [heq]
    exact hinsert hnewest
  · rw [heq]
    exact hinsert hnewest

theorem Ascending.schedule (h : Ascending s) (t : Trade) : Ascending (s.schedule t).1 := by
  obtain ⟨hattempts, hwriter⟩ := s.schedule_same t
  refine h.keep (fun id sequence hseen => ?_) hattempts fun id p held hp => by rwa [← hwriter]
  rcases s.schedule_cases t with ⟨failure, heq⟩ | ⟨record, -, heq⟩
  · rw [heq]
    exact hseen
  · rw [heq]
    exact seen_enqueue (s := { s with issued := s.issued + 1 }) hseen _ _

theorem Ascending.takeNext (h : Ascending s) (hsound : Sound s) (b : Backend) :
    Ascending (s.takeNext b) := by
  rcases s.takeNext_cases b with ⟨id, order, p, -, hp, heq⟩ | ⟨order, -, heq⟩
  · obtain ⟨hhighest, -⟩ := hsound.pending id p hp
    rw [heq]
    refine ⟨h.attempts, h.seen, fun id' p' held hp' => ?_⟩
    cases hp'
    refine ⟨⟨_, hhighest, UInt64.le_refl _⟩, fun a ha hid => ?_⟩
    -- the snapshot was pending, so that its sequence is the greatest one
    obtain ⟨greatest, hgreatest, hle⟩ := h.seen a ha
    rw [hid, hhighest] at hgreatest
    cases hgreatest
    exact hle
  · obtain ⟨flushing, writer, hquiet, -, hrest⟩ := rest_eq { s with order }
    rw [heq, hrest]
    refine h.keep (fun _ _ hseen => hseen) rfl fun id p held hp => ?_
    rcases hquiet with rfl | rfl <;> cases hp

theorem Ascending.answer (h : Ascending s) {id : String} {p : Pending} {held succeeded : Bool}
    (hwriter : s.writer = .writing id p held) (hhighest : s'.highest = s.highest)
    (hattempts : s'.attempts = s.attempts ++ [⟨id, p.sequence, succeeded⟩])
    (hready : s'.writer = .ready) : Ascending s' := by
  obtain ⟨hseen, hle⟩ := h.writing id p held hwriter
  constructor
  · rw [hattempts]
    refine List.pairwise_append.2 ⟨h.attempts, List.pairwise_singleton _ _, ?_⟩
    intro a ha a' ha' hid
    rw [List.mem_singleton.1 ha'] at hid ⊢
    exact hle a ha hid
  · simp only [Seen]
    rw [hattempts, hhighest]
    intro a ha
    rcases List.mem_append.1 ha with ha | ha
    · exact h.seen a ha
    · rw [List.mem_singleton.1 ha]
      exact hseen
  · intro id' p' held' hp'
    rw [hready] at hp'
    cases hp'

theorem Ascending.finish (h : Ascending s) {id : String} {p : Pending} {held : Bool}
    (hwriter : s.writer = .writing id p held) (result : WriteResult) :
    Ascending (s.finish id p result) := by
  cases result with
  | written => exact h.answer hwriter rfl rfl rfl
  | refused cause => exact h.answer hwriter rfl rfl rfl
  | broken => exact h.keep (fun _ _ hseen => hseen) rfl fun id p held hp => by cases hp

theorem Ascending.act (h : Ascending s) (hsound : Sound s)
    (hact : s.act b action = some (s', b')) : Ascending s' := by
  cases action with
  | schedule t =>
    cases hact
    exact h.schedule t
  | flush =>
    cases hact
    unfold flush
    split
    · exact h
    · exact h.keep (fun _ _ hseen => hseen) rfl fun _ _ _ hp => hp
  | close =>
    cases hact
    exact h.keep (fun _ _ hseen => hseen) rfl fun _ _ _ hp => hp
  | write =>
    rcases step_cases hact with ⟨-, rfl, -⟩ | ⟨-, rfl, -⟩ | ⟨id, p, held, n, hwriter, -, rfl⟩
    · exact h.takeNext hsound b
    · exact h.keep (fun _ _ hseen => hseen) rfl fun id p held hp => by cases hp
    · exact h.finish hwriter _
  | behave b' =>
    cases hact
    exact h

theorem Reachable.ascending (h : Reachable s b) : Ascending s := by
  -- the order of the writes rests on the newest snapshots
  have hboth : Sound s ∧ Ascending s := by
    refine h.induction (P := fun s => Sound s ∧ Ascending s) ⟨sound_new, ascending_new⟩ ?_
    rintro s b action s' b' ⟨hsound, hascending⟩ hact
    exact ⟨hsound.act hact, hascending.act hsound hact⟩
  exact hboth.2

end PeerTrade.Store
