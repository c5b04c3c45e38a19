import PeerTrade.Proofs.Store.Durability
import PeerTrade.Proofs.Store.Flush

/-!
# After the writer has ended

A writer that stops, because the store was closed, leaves nobody waiting. One that breaks down in
the middle of a write leaves an answer for those who waited for that write, and for nobody else:
who waits for a snapshot that is still in line, or for a flush, waits for ever
(`Store.released_iff_of_ended`).
-/

namespace PeerTrade.Store

variable {s s' : Store} {b b' b₀ : Backend} {action : Action} {actions : List Action}

/-! ## Who waits -/

/-- A ticket waits for a snapshot that is still in line. -/
def InLine (s : Store) (number : Nat) : Prop :=
  ∃ id p, s.pending.get? id = some p ∧ ∃ w ∈ p.waiters, w.number = number

/-- Every ticket has its answer, and nobody waits for a flush. -/
structure Released (s : Store) : Prop where
  answered : ∀ n < s.issued, s.Answered n
  flushed : s.flushing = []

/-- A ticket is among the waiters of a snapshot that is in line or being written. -/
def Awaits (s : Store) (w : Ticket) : Prop :=
  (∃ id p, s.pending.get? id = some p ∧ w ∈ p.waiters) ∨
    ∃ id p held, s.writer = .writing id p held ∧ w ∈ p.waiters

/-- Tickets wait in one place only, and no longer once they have an answer. -/
structure Apart (s : Store) : Prop where
  given : ∀ a ∈ s.answers, a.ticket.number < s.issued
  waiting : ∀ w, s.Awaits w → w.number < s.issued ∧ ¬s.Answered w.number
  unique : ∀ w w', s.Awaits w → s.Awaits w' → w.number = w'.number → w = w'
  /-- Who waits for a write does not wait for the next one of the same trade. -/
  writing : ∀ id p held p', s.writer = .writing id p held → s.pending.get? id = some p' →
    ∀ w ∈ p.waiters, w ∉ p'.waiters
  /-- Somebody waits for every snapshot. -/
  served : ∀ id p, s.pending.get? id = some p → p.waiters ≠ []

theorem apart_new : Apart {} := by
  have hnobody : ∀ w, ¬({} : Store).Awaits w := by
    rintro w (⟨id, p, hp, -⟩ | ⟨id, p, held, hp, -⟩) <;> cases hp
  constructor
  · simp
  · exact fun w hw => absurd hw (hnobody w)
  · exact fun w _ hw => absurd hw (hnobody w)
  · intro id p held p' hp
    cases hp
  · intro id p hp
    cases hp

/-- What leaves tickets, answers and the places in line alone. -/
theorem Apart.congr (h : Apart s) (hpending : s'.pending = s.pending)
    (hwriter : ∀ id p held, s'.writer = .writing id p held → s.writer = .writing id p held)
    (hanswers : s'.answers = s.answers) (hissued : s'.issued = s.issued) : Apart s' := by
  have hawaits : ∀ w, s'.Awaits w → s.Awaits w := by
    rintro w (⟨id, p, hp, hw⟩ | ⟨id, p, held, hp, hw⟩)
    · rw [hpending] at hp
      exact .inl ⟨id, p, hp, hw⟩
    · exact .inr ⟨id, p, held, hwriter id p held hp, hw⟩
  constructor
  · rw [hanswers, hissued]
    exact h.given
  · simp only [Answered]
    rw [hanswers, hissued]
    exact fun w hw => h.waiting w (hawaits w hw)
  · exact fun w w' hw hw' => h.unique w w' (hawaits w hw) (hawaits w' hw')
  · rw [hpending]
    exact fun id p held p' hp => h.writing id p held p' (hwriter id p held hp)
  · rw [hpending]
    exact h.served

/-! ## Handing in a snapshot -/

/-- A new ticket that is answered at once. -/
theorem Apart.reply (h : Apart s) (ticket : Ticket) (hnew : ticket.number = s.issued)
    (result : Ticket → PersistResult) :
    Apart ({ s with issued := s.issued + 1 }.reply [ticket] result) := by
  constructor
  · intro a ha
    rcases List.mem_append.1 ha with ha | ha
    · exact Nat.lt_succ_of_lt (h.given a ha)
    · obtain ⟨ht, -⟩ := mem_replies ha
      rw [List.mem_singleton.1 ht, hnew]
      exact Nat.lt_succ_self _
  · -- those who wait have smaller numbers
    intro w hw
    obtain ⟨hlt, hopen⟩ := h.waiting w hw
    refine ⟨Nat.lt_succ_of_lt hlt, ?_⟩
    rintro ⟨a, ha, hnumber⟩
    rcases List.mem_append.1 ha with ha | ha
    · exact hopen ⟨a, ha, hnumber⟩
    · obtain ⟨ht, -⟩ := mem_replies ha
      rw [List.mem_singleton.1 ht, hnew] at hnumber
      omega
  · exact h.unique
  · exact h.writing
  · exact h.served

/-- A new ticket that joins those who wait for a snapshot, or begins to wait for one. -/
theorem Apart.join (h : Apart s) (ticket : Ticket) (hnew : ticket.number = s.issued) {q : Pending}
    (hjoined : ∀ w ∈ q.waiters, w = ticket ∨
      ∃ p, s.pending.get? ticket.tradeId = some p ∧ w ∈ p.waiters)
    (hticket : ticket ∈ q.waiters)
    (hpending : s'.pending = s.pending.insert ticket.tradeId q) (hwriter : s'.writer = s.writer)
    (hanswers : s'.answers = s.answers) (hissued : s'.issued = s.issued + 1) : Apart s' := by
  have hlater : ∀ w, s.Awaits w → w ≠ ticket := by
    rintro w hw rfl
    have := (h.waiting w hw).1
    omega
  have hget : ∀ id p, s'.pending.get? id = some p →
      s.pending.get? id = some p ∨ id = ticket.tradeId ∧ p = q := by
    intro id p hp
    rw [hpending, Dict.get?_insert] at hp
    split at hp
    next hid =>
      cases hp
      exact .inr ⟨Std.LawfulEqOrd.eq_of_compare hid, rfl⟩
    next => exact .inl hp
  have hawaits : ∀ w, s'.Awaits w → s.Awaits w ∨ w = ticket := by
    rintro w (⟨id, p, hp, hw⟩ | ⟨id, p, held, hp, hw⟩)
    · rcases hget id p hp with hp | ⟨rfl, rfl⟩
      · exact .inl (.inl ⟨id, p, hp, hw⟩)
      · rcases hjoined w hw with rfl | ⟨p, hp, hw⟩
        · exact .inr rfl
        · exact .inl (.inl ⟨_, p, hp, hw⟩)
    · rw [hwriter] at hp
      exact .inl (.inr ⟨id, p, held, hp, hw⟩)
  constructor
  · rw [hanswers, hissued]
    exact fun a ha => Nat.lt_succ_of_lt (h.given a ha)
  · intro w hw
    simp only [Answered]
    rw [hanswers, hissued]
    rcases hawaits w hw with hw | rfl
    · obtain ⟨hlt, hopen⟩ := h.waiting w hw
      exact ⟨Nat.lt_succ_of_lt hlt, hopen⟩
    · refine ⟨by omega, ?_⟩
      rintro ⟨a, ha, hnumber⟩
      have := h.given a ha
      omega
  · -- only the new ticket has the new number
    intro w w' hw hw' hnumber
    rcases hawaits w hw with hw | rfl <;> rcases hawaits w' hw' with hw' | rfl
    · exact h.unique w w' hw hw' hnumber
    · have := (h.waiting w hw).1
      omega
    · have := (h.waiting w' hw').1
      omega
    · rfl
  · intro id p held p' hp hp' w hw hwp'
    rw [hwriter] at hp
    have hold : s.Awaits w := .inr ⟨id, p, held, hp, hw⟩
    rcases hget id p' hp' with hp' | ⟨rfl, rfl⟩
    · exact h.writing id p held p' hp hp' w hw hwp'
    · rcases hjoined w hwp' with rfl | ⟨p', hp', hwp'⟩
      · exact hlater w hold rfl
      · exact h.writing _ p held p' hp hp' w hw hwp'
  · intro id p hp
    rcases hget id p hp with hp | ⟨rfl, rfl⟩
    · exact h.served id p hp
    · exact List.ne_nil_of_mem hticket

theorem Apart.schedule (h : Apart s) (t : Trade) : Apart (s.schedule t).1 := by
  rcases s.schedule_cases t with ⟨failure, heq⟩ | ⟨record, -, heq⟩
  · rw [heq]
    exact h.reply _ rfl _
  · rw [heq]
    rcases enqueue_cases { s with issued := s.issued + 1 } ⟨s.issued, t.id, t.sequence⟩ record
      with ⟨-, p, hp, heq⟩ | ⟨-, -, heq⟩ | ⟨-, p, hp, heq⟩ | ⟨-, -, heq⟩
    · rw [heq]
      apply h.join ⟨s.issued, t.id, t.sequence⟩ rfl (q := { p with waiters := p.waiters ++ [_] })
      · intro w hw
        rcases List.mem_append.1 hw with hw | hw
        · exact .inr ⟨p, hp, hw⟩
        · exact .inl (List.mem_singleton.1 hw)
      · simp
      all_goals rfl
    · rw [heq]
      exact h.reply _ rfl _
    · rw [heq]
      apply h.join ⟨s.issued, t.id, t.sequence⟩ rfl (q := ⟨record, t.sequence, p.waiters ++ [_]⟩)
      · intro w hw
        rcases List.mem_append.1 hw with hw | hw
        · exact .inr ⟨p, hp, hw⟩
        · exact .inl (List.mem_singleton.1 hw)
      · simp
      all_goals rfl
    · rw [heq]
      apply h.join ⟨s.issued, t.id, t.sequence⟩ rfl (q := ⟨record, t.sequence, [_]⟩)
      · exact fun w hw => .inl (List.mem_singleton.1 hw)
      · simp
      all_goals rfl

/-! ## The writer -/

theorem Apart.takeNext (h : Apart s) (b : Backend) : Apart (s.takeNext b) := by
  rcases s.takeNext_cases b with ⟨id, order, p, -, hp, heq⟩ | ⟨order, -, heq⟩
  · rw [heq]
    -- the waiters of the snapshot go with it
    have hkept : ∀ id' q, (s.pending.erase id).get? id' = some q →
        id' ≠ id ∧ s.pending.get? id' = some q := by
      intro id' q hq
      rw [Dict.get?_erase] at hq
      split at hq
      · cases hq
      next hne => exact ⟨fun heq => hne (heq ▸ Std.ReflCmp.compare_self), hq⟩
    have hawaits : ∀ w, ({ s with
        order, pending := s.pending.erase id, writing := true,
        writer := .writing id p b.holds } : Store).Awaits w → s.Awaits w := by
      rintro w (⟨id', q, hq, hw⟩ | ⟨id', q, held, hq, hw⟩)
      · exact .inl ⟨id', q, (hkept id' q hq).2, hw⟩
      · cases hq
        exact .inl ⟨id, p, hp, hw⟩
    constructor
    · exact h.given
    · exact fun w hw => h.waiting w (hawaits w hw)
    · exact fun w w' hw hw' => h.unique w w' (hawaits w hw) (hawaits w' hw')
    · intro id' q held q' hq hq'
      cases hq
      exact absurd rfl (hkept id q' hq').1
    · exact fun id' q hq => h.served id' q (hkept id' q hq).2
  · obtain ⟨flushing, writer, hquiet, -, hrest⟩ := rest_eq { s with order }
    rw [heq, hrest]
    apply h.congr <;> try rfl
    intro id p held hwriter
    rcases hquiet with rfl | rfl <;> cases hwriter

theorem Apart.finish (h : Apart s) (hsound : Sound s) {id : String} {p : Pending} {held : Bool}
    (hwriter : s.writer = .writing id p held) (outcome : WriteResult) :
    Apart (s.finish id p outcome) := by
  obtain ⟨result, hanswers, hpending, hissued⟩ := s.finish_replies id p outcome
  have hidle : ∀ id' p' held', (s.finish id p outcome).writer ≠ .writing id' p' held' := by
    cases outcome <;> exact fun _ _ _ => nofun
  have hawaits : ∀ w, (s.finish id p outcome).Awaits w →
      ∃ id' q, s.pending.get? id' = some q ∧ w ∈ q.waiters := by
    rintro w (⟨id', q, hq, hw⟩ | ⟨id', q, held', hq, -⟩)
    · rw [hpending] at hq
      exact ⟨id', q, hq, hw⟩
    · exact absurd hq (hidle id' q held')
  constructor
  · rw [hanswers, hissued]
    intro a ha
    rcases List.mem_append.1 ha with ha | ha
    · exact h.given a ha
    · exact (h.waiting _ (.inr ⟨id, p, held, hwriter, (mem_replies ha).1⟩)).1
  · intro w hw
    obtain ⟨id', q, hq, hwq⟩ := hawaits w hw
    obtain ⟨hlt, hopen⟩ := h.waiting w (.inl ⟨id', q, hq, hwq⟩)
    rw [hissued]
    refine ⟨hlt, ?_⟩
    rintro ⟨a, ha, hnumber⟩
    rw [hanswers] at ha
    rcases List.mem_append.1 ha with ha | ha
    · exact hopen ⟨a, ha, hnumber⟩
    · -- a ticket that was answered now would have waited twice, for snapshots of one trade
      obtain ⟨hwaiter, -⟩ := mem_replies ha
      have hsame : a.ticket = w := h.unique _ w (.inr ⟨id, p, held, hwriter, hwaiter⟩)
        (.inl ⟨id', q, hq, hwq⟩) hnumber
      rw [hsame] at hwaiter
      have hid : w.tradeId = id := ((hsound.writing id p held hwriter).1.waiters w hwaiter).1
      have hid' : w.tradeId = id' := ((hsound.pending id' q hq).2.waiters w hwq).1
      rw [← hid', hid] at hq
      exact h.writing id p held q hwriter hq w hwaiter hwq
  · intro w w' hw hw'
    obtain ⟨id', q, hq, hwq⟩ := hawaits w hw
    obtain ⟨id'', q', hq', hwq'⟩ := hawaits w' hw'
    exact h.unique w w' (.inl ⟨id', q, hq, hwq⟩) (.inl ⟨id'', q', hq', hwq'⟩)
  · exact fun id' q held' _ hq => absurd hq (hidle id' q held')
  · rw [hpending]
    exact h.served

theorem Apart.act (h : Apart s) (hsound : Sound s) (hact : s.act b action = some (s', b')) :
    Apart s' := by
  cases action with
  | schedule t =>
    cases hact
    exact h.schedule t
  | flush =>
    cases hact
    unfold flush
    split
    · exact h
    · exact h.congr rfl (fun _ _ _ hp => hp) rfl rfl
  | close =>
    cases hact
    exact h.congr rfl (fun _ _ _ hp => hp) rfl rfl
  | behave b' =>
    cases hact
    exact h
  | write =>
    rcases step_cases hact with ⟨-, rfl, -⟩ | ⟨-, rfl, -⟩ | ⟨id, p, held, n, hwriter, -, rfl⟩
    · exact h.takeNext b
    · exact h.congr rfl (fun _ _ _ hp => by cases hp) rfl rfl
    · exact h.finish hsound hwriter _

theorem Reachable.apart (h : Reachable s b) : Apart s := by
  have hboth : Sound s ∧ Apart s := by
    apply h.induction (P := fun s => Sound s ∧ Apart s) ⟨sound_new, apart_new⟩
    rintro s b action s' b' ⟨hsound, hapart⟩ hact
    exact ⟨hsound.act hact, hapart.act hsound hact⟩
  exact hboth.2

/-! ## A writer that has stopped -/

/-- A store whose writer has stopped is closed and empty, and nobody waits for a flush. -/
def Halted (s : Store) : Prop :=
  s.writer = .stopped → s.closed = true ∧ s.order = [] ∧ s.writing = false ∧ s.flushing = []

theorem schedule_of_closed (hclosed : s.closed = true) (t : Trade) :
    ∃ failure, (s.schedule t).1 =
      { s with issued := s.issued + 1 }.reply [⟨s.issued, t.id, t.sequence⟩] fun _ =>
        .error failure := by
  cases hencode : t.toSnapshot.encode with
  | error cause =>
    refine ⟨⟨t.id, t.sequence, (StoreError.encode cause).message⟩, ?_⟩
    exact schedule_of_encode_error hencode s
  | ok record =>
    refine ⟨⟨t.id, t.sequence, "store is closed"⟩, ?_⟩
    exact (schedule_of_encode_ok hencode s).trans (if_pos hclosed)

theorem Halted.act (h : Halted s) (hact : s.act b action = some (s', b')) : Halted s' := by
  intro hstopped
  cases action with
  | schedule t =>
    cases hact
    rw [(s.schedule_same t).2] at hstopped
    obtain ⟨hclosed, hrest⟩ := h hstopped
    obtain ⟨failure, heq⟩ := schedule_of_closed hclosed t
    rw [heq]
    exact ⟨hclosed, hrest⟩
  | flush =>
    cases hact
    have hwriter : s.flush.1.writer = s.writer := by
      unfold flush
      split <;> rfl
    rw [hwriter] at hstopped
    obtain ⟨hclosed, horder, hwriting, hflushing⟩ := h hstopped
    have hflush : s.flush.1 = s := by simp [flush, idle, horder, hwriting]
    rw [hflush]
    exact ⟨hclosed, horder, hwriting, hflushing⟩
  | close =>
    cases hact
    obtain ⟨-, hrest⟩ := h hstopped
    exact ⟨rfl, hrest⟩
  | behave b' =>
    cases hact
    exact h hstopped
  | write =>
    rcases step_cases hact with ⟨hready, rfl, -⟩ | ⟨-, rfl, -⟩ | ⟨id, p, held, n, -, -, rfl⟩
    · rcases s.takeNext_cases b with ⟨id, order, p, -, -, heq⟩ | ⟨order, -, heq⟩
      · rw [heq] at hstopped
        cases hstopped
      · -- the writer stops only where nothing is left in line
        rw [heq] at hstopped ⊢
        unfold rest at hstopped ⊢
        dsimp only at hstopped ⊢
        split at hstopped
        next hempty =>
          cases hclosed : s.closed with
          | true => simpa [hempty, hclosed] using List.isEmpty_iff.1 hempty
          | false => simp [hclosed] at hstopped
        next => cases hstopped
    · cases hstopped
    · cases houtcome : ({ b with admitted := n }.write id p.record).2 <;>
        rw [houtcome] at hstopped <;> cases hstopped

theorem Reachable.halted (h : Reachable s b) : Halted s := by
  apply h.induction (P := Halted)
  · intro hstopped
    cases hstopped
  · exact fun _ _ _ _ _ h hact => h.act hact

theorem Reachable.queued (h : Reachable s b) : Queued s :=
  h.induction queued_new fun _ _ _ _ _ h hact => h.act hact

theorem Reachable.accounted (h : Reachable s b) : Accounted s :=
  h.induction accounted_new fun _ _ _ _ _ h hact => h.act hact

/-! ## A writer that has ended -/

theorem ended_iff (w : Writer) : w.ended = true ↔ w = .stopped ∨ w = .dead := by
  cases w <;> simp [Writer.ended]

/-- Once the writer has ended, a ticket is without answer exactly if its snapshot is in line. -/
theorem Reachable.answered_iff (h : Reachable s b) (hended : s.writer.ended = true) {n : Nat}
    (hn : n < s.issued) : s.Answered n ↔ ¬s.InLine n := by
  constructor
  · rintro hanswered ⟨id, p, hp, w, hw, rfl⟩
    exact (h.apart.waiting w (.inl ⟨id, p, hp, hw⟩)).2 hanswered
  · intro hfree
    rcases h.accounted n hn with hanswered | ⟨id, p, hp | ⟨held, hwriter⟩, hw⟩
    · exact hanswered
    · exact absurd ⟨id, p, hp, hw⟩ hfree
    · rw [hwriter] at hended
      cases hended

/-- Who waits in line waits on, as long as the writer does nothing. -/
theorem inLine_schedule (s : Store) (t : Trade) {n : Nat} (h : s.InLine n) :
    (s.schedule t).1.InLine n := by
  obtain ⟨id, p, hp, w, hw, hnumber⟩ := h
  have hinsert (p' : Pending) (hmore : ∀ p, s.pending.get? t.id = some p → p.waiters ⊆ p'.waiters) :
      ∃ q, (s.pending.insert t.id p').get? id = some q ∧ ∃ w ∈ q.waiters, w.number = n := by
    by_cases hid : id = t.id
    · subst hid
      exact ⟨p', Dict.get?_insert_self _ _ _, w, hmore p hp hw, hnumber⟩
    · rw [Dict.get?_insert, if_neg (by simpa using hid)]
      exact ⟨p, hp, w, hw, hnumber⟩
  rcases s.schedule_cases t with ⟨failure, heq⟩ | ⟨record, -, heq⟩
  · rw [heq]
    exact ⟨id, p, hp, w, hw, hnumber⟩
  · rw [heq]
    rcases enqueue_cases { s with issued := s.issued + 1 } ⟨s.issued, t.id, t.sequence⟩ record
      with ⟨-, q, hq, heq⟩ | ⟨-, -, heq⟩ | ⟨-, q, hq, heq⟩ | ⟨-, hnone, heq⟩
    · rw [heq]
      refine ⟨id, hinsert _ fun q' hq' => ?_⟩
      cases hq.symm.trans hq'
      exact List.subset_append_left _ _
    · rw [heq]
      exact ⟨id, p, hp, w, hw, hnumber⟩
    · rw [heq]
      refine ⟨id, hinsert _ fun q' hq' => ?_⟩
      cases hq.symm.trans hq'
      exact List.subset_append_left _ _
    · rw [heq]
      refine ⟨id, hinsert _ fun q' hq' => ?_⟩
      cases hnone.symm.trans hq'

/-- A writer that has ended does nothing more, so that nobody gets out of line. -/
theorem act_of_ended (hended : s.writer.ended = true) (hact : s.act b action = some (s', b')) :
    s'.writer = s.writer ∧ (∀ n, s.InLine n → s'.InLine n) ∧ s.flushing ⊆ s'.flushing := by
  cases action with
  | schedule t =>
    cases hact
    refine ⟨(s.schedule_same t).2, fun n => s.inLine_schedule t, ?_⟩
    rw [(s.schedule_keeps t).1]
    exact List.Subset.refl _
  | flush =>
    cases hact
    unfold flush
    split
    · exact ⟨rfl, fun _ h => h, List.Subset.refl _⟩
    · exact ⟨rfl, fun _ h => h, List.subset_append_left _ _⟩
  | close =>
    cases hact
    exact ⟨rfl, fun _ h => h, List.Subset.refl _⟩
  | behave b' =>
    cases hact
    exact ⟨rfl, fun _ h => h, List.Subset.refl _⟩
  | write =>
    rcases (ended_iff _).1 hended with hwriter | hwriter <;> simp [Store.act, step, hwriter] at hact

theorem Run.of_ended (h : Run s b actions s' b') (hended : s.writer.ended = true) :
    s'.writer = s.writer ∧ (∀ n, s.InLine n → s'.InLine n) ∧ s.flushing ⊆ s'.flushing := by
  refine h.keeps (P := fun s' => s'.writer = s.writer ∧ (∀ n, s.InLine n → s'.InLine n) ∧
    s.flushing ⊆ s'.flushing) ⟨rfl, fun _ h => h, List.Subset.refl _⟩ ?_
  rintro s₁ b₁ action s₂ b₂ ⟨hwriter, hline, hflushing⟩ hact
  rw [← hwriter] at hended ⊢
  obtain ⟨hwriter', hline', hflushing'⟩ := act_of_ended hended hact
  exact ⟨hwriter', fun n hn => hline' n (hline n hn), List.Subset.trans hflushing hflushing'⟩

/-! ## Answers without error -/

/-- A request was answered at once, before the backend had accepted anything that covers it. -/
def AnsweredEarly (b₀ : Backend) (actions : List Action) (ticket : Ticket) : Prop :=
  ∃ early t late s₁ b₁, actions = early ++ .schedule t :: late ∧ Run {} b₀ early s₁ b₁ ∧
    s₁.Premature ticket.tradeId ticket.sequence

theorem AnsweredEarly.append {ticket : Ticket} (h : AnsweredEarly b₀ actions ticket)
    (more : List Action) : AnsweredEarly b₀ (actions ++ more) ticket := by
  obtain ⟨early, t, late, s₁, b₁, rfl, hrun, hpremature⟩ := h
  exact ⟨early, t, late ++ more, s₁, b₁, by simp, hrun, hpremature⟩

/-- A superseded request with nothing in line is covered by what the backend has accepted, or its
answer is premature. -/
theorem Reachable.covers_or_premature (h : Reachable s b) {id : String} {sequence : UInt64}
    (hsuperseded : s.Superseded id sequence) (hnone : s.pending.get? id = none) :
    s.Covers id sequence ∨ s.Premature id sequence := by
  by_cases hcovers : s.Covers id sequence
  · exact .inl hcovers
  · have hunsettled : s.Unsettled id := by
      by_contra hsettled
      exact hcovers (h.sound.covers_of_superseded hsuperseded hnone hsettled)
    refine .inr ⟨hsuperseded, hnone, hunsettled, fun last hlast => ?_⟩
    rw [← UInt64.not_le]
    exact fun hle => hcovers (h.ascending.covers_iff.2 ⟨last, hlast, hle⟩)

theorem Run.covers_or_early (h : Run {} b₀ actions s b) :
    ∀ a ∈ s.answers, a.result = .ok () →
      s.Covers a.ticket.tradeId a.ticket.sequence ∨ AnsweredEarly b₀ actions a.ticket := by
  induction h with
  | nil => exact fun a ha => absurd ha List.not_mem_nil
  | @concat actions s₁ s₂ b₁ b₂ action hrun hact ih =>
    intro a ha hok
    obtain ⟨given, hanswers, hgiven⟩ := exists_given_of_act hrun.reachable.sound hact
    rw [hanswers] at ha
    rcases List.mem_append.1 ha with ha | ha
    · rcases ih a ha hok with ⟨attempt, hattempt, hcovers⟩ | hearly
      · obtain ⟨finished, hfinished⟩ := attempts_grow hact
        refine .inl ⟨attempt, ?_, hcovers⟩
        rw [hfinished]
        exact List.mem_append_left _ hattempt
      · exact .inr (hearly.append [action])
    · rcases hgiven a ha hok with ⟨-, hcovers⟩ | ⟨⟨t, rfl⟩, hattempts, hsuperseded, hnone⟩
      · exact .inl hcovers
      · rcases hrun.reachable.covers_or_premature hsuperseded hnone with hcovers | hpremature
        · exact .inl ((covers_of_attempts_eq hattempts _ _).2 hcovers)
        · exact .inr ⟨actions, t, [], s₁, b₁, rfl, hrun, hpremature⟩

/-! ## Who is told -/

/-- When the writer has ended, everybody has been told if it stopped; if it broke down, exactly if
nothing is in line and nobody waits for a flush. A ticket is without answer exactly if it is in
line, and then it stays so, as do those who wait for a flush. An answer without error means that a
write covers the request, unless it was given prematurely. -/
theorem released_iff_of_ended (h : Run {} b₀ actions s b) (hended : s.writer.ended = true) :
    (s.Released ↔ s.writer = .stopped ∨ (∀ id, s.pending.get? id = none) ∧ s.flushing = []) ∧
    (∀ n < s.issued, s.Answered n ↔ ¬s.InLine n) ∧
    (∀ a ∈ s.answers, a.result = .ok () →
      s.Covers a.ticket.tradeId a.ticket.sequence ∨ AnsweredEarly b₀ actions a.ticket) ∧
    ∀ later s' b', Run s b later s' b' → s'.writer = s.writer ∧
      (∀ n, s.InLine n → s'.InLine n ∧ ¬s'.Answered n) ∧ s.flushing ⊆ s'.flushing := by
  have hreach := h.reachable
  refine ⟨?_, fun n hn => hreach.answered_iff hended hn, h.covers_or_early, ?_⟩
  · constructor
    · intro hreleased
      refine .inr ⟨fun id => ?_, hreleased.flushed⟩
      -- whoever waited for a snapshot in line would be without answer
      cases hp : s.pending.get? id with
      | none => rfl
      | some p =>
        obtain ⟨w, hw⟩ := List.exists_mem_of_ne_nil _ (hreach.apart.served id p hp)
        obtain ⟨hlt, hopen⟩ := hreach.apart.waiting w (.inl ⟨id, p, hp, hw⟩)
        exact absurd (hreleased.answered _ hlt) hopen
    · intro hquiet
      have hempty : (∀ id, s.pending.get? id = none) ∧ s.flushing = [] := by
        rcases hquiet with hstopped | hempty
        · obtain ⟨-, horder, -, hflushing⟩ := hreach.halted hstopped
          exact ⟨hreach.queued.pending_eq_none horder, hflushing⟩
        · exact hempty
      refine ⟨fun n hn => (hreach.answered_iff hended hn).2 ?_, hempty.2⟩
      rintro ⟨id, p, hp, -⟩
      rw [hempty.1 id] at hp
      cases hp
  · intro later s' b' hlater
    obtain ⟨hwriter, hline, hflushing⟩ := hlater.of_ended hended
    refine ⟨hwriter, fun n hn => ⟨hline n hn, ?_⟩, hflushing⟩
    obtain ⟨id, p, hp, w, hw, rfl⟩ := hline n hn
    exact ((h.trans hlater).reachable.apart.waiting w (.inl ⟨id, p, hp, hw⟩)).2

/-- A write that breaks down while nothing else is in line leaves nobody waiting. -/
theorem broken_write_alone_is_released :
    ∃ b₀ actions s b, Run {} b₀ actions s b ∧ s.writer = .dead ∧ s.issued = 1 ∧ s.Released := by
  obtain ⟨s, b, h, hdead, hissued, hpending, hflushing⟩ : ∃ s b,
      Run {} { breaks := true } [.schedule (tradeAt 0), .write, .write] s b ∧ s.writer = .dead ∧
        s.issued = 1 ∧ s.pending = {} ∧ s.flushing = [] :=
    ⟨_, _, .concat (.concat (.concat .nil rfl) rfl) rfl, rfl, rfl, rfl, rfl⟩
  have hended : s.writer.ended = true := by rw [hdead]; rfl
  obtain ⟨hreleased, -⟩ := released_iff_of_ended h hended
  refine ⟨_, _, s, b, h, hdead, hissued, hreleased.2 (.inr ⟨fun id => ?_, hflushing⟩)⟩
  rw [hpending]
  rfl

/-- A write breaks down while the next snapshot of the trade is in line and somebody waits for a
flush: the writer has ended, but the second ticket has no answer and the flush is not over. -/
theorem broken_write_leaves_waiting :
    ∃ b₀ actions s b, Run {} b₀ actions s b ∧ s.writer.ended = true ∧ s.issued = 2 ∧
      s.Answered 0 ∧ ¬s.Answered 1 ∧ s.flushing = [0] := by
  refine ⟨{ breaks := true }, [.schedule (tradeAt 0), .write, .schedule (tradeAt 1), .flush, .write],
    _, _, .concat (.concat (.concat (.concat (.concat .nil rfl) rfl) rfl) rfl) rfl, rfl, rfl, ?_, ?_,
    rfl⟩
  · exact ⟨_, List.mem_cons_self, rfl⟩
  · rintro ⟨a, ha, hnumber⟩
    rw [List.mem_singleton.1 ha] at hnumber
    cases hnumber

end PeerTrade.Store
