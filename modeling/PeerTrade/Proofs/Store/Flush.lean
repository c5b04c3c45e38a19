import PeerTrade.Proofs.Store.Steps

/-!
# Flushes

A flush is over only if, at some moment since it began, nothing was pending or being written
(`Store.Run.exists_quiet`). At such a moment every ticket that was handed out has its answer
(`Store.Accounted.answered`), and answers stay.
-/

namespace PeerTrade.Store

/-! ## Runs -/

/-- Some actions lead from a store and its backend to others. -/
inductive Run (s : Store) (b : Backend) : List Action → Store → Backend → Prop where
  | nil : Run s b [] s b
  | concat {actions : List Action} {s₁ s₂ : Store} {b₁ b₂ : Backend} {a : Action} :
      Run s b actions s₁ b₁ → s₁.act b₁ a = some (s₂, b₂) → Run s b (actions ++ [a]) s₂ b₂

/-- The trades that are handed in, in order. -/
def requests (actions : List Action) : List Trade :=
  actions.filterMap fun
    | .schedule t => some t
    | _ => none

variable {s s' : Store} {b b' : Backend} {action : Action} {actions : List Action}

@[simp] theorem requests_append (actions actions' : List Action) :
    requests (actions ++ actions') = requests actions ++ requests actions' := by
  simp [requests]

@[simp] theorem requests_schedule (t : Trade) : requests [.schedule t] = [t] := rfl

theorem requests_of_ne {a : Action} (h : ∀ t, a ≠ .schedule t) : requests [a] = [] := by
  cases a with
  | schedule t => exact absurd rfl (h t)
  | _ => rfl

theorem Run.reachable (h : Run {} b actions s b') : Reachable s b' := by
  induction h with
  | nil => exact .start b
  | concat _ hact ih => exact .act ih hact

theorem Run.trans {more : List Action} {s₁ s₂ : Store} {b₁ b₂ : Backend}
    (h : Run s b actions s₁ b₁) (hmore : Run s₁ b₁ more s₂ b₂) :
    Run s b (actions ++ more) s₂ b₂ := by
  induction hmore with
  | nil => rwa [List.append_nil]
  | concat _ hact ih =>
    rw [← List.append_assoc]
    exact .concat ih hact

/-- What every action keeps, a run keeps. -/
theorem Run.keeps {P : Store → Prop} (h : Run s b actions s' b') (hs : P s)
    (step : ∀ s b action s' b', P s → s.act b action = some (s', b') → P s') : P s' := by
  induction h with
  | nil => exact hs
  | concat _ hact ih => exact step _ _ _ _ _ ih hact

/-! ## The line of the writer -/

/-- Every pending snapshot is in line, and the store knows when it is being written. -/
structure Queued (s : Store) : Prop where
  inLine : ∀ id p, s.pending.get? id = some p → id ∈ s.order
  resting : s.writing = false →
    (∀ id p held, s.writer ≠ .writing id p held) ∧ s.writer ≠ .dead

/-- Nothing is pending or being written, and the writer has not broken down. -/
structure Quiet (s : Store) : Prop where
  pending : ∀ id, s.pending.get? id = none
  writing : ∀ id p held, s.writer ≠ .writing id p held
  alive : s.writer ≠ .dead

theorem queued_new : Queued {} where
  inLine _ _ h := by cases h
  resting _ := by simp

theorem Queued.pending_eq_none (h : Queued s) (horder : s.order = []) (id : String) :
    s.pending.get? id = none := by
  cases hp : s.pending.get? id with
  | none => rfl
  | some p =>
    have hin := h.inLine id p hp
    rw [horder] at hin
    cases hin

theorem Queued.quiet_of_idle (h : Queued s) (hidle : s.idle = true) : Quiet s := by
  simp only [idle, Bool.and_eq_true, List.isEmpty_iff, Bool.not_eq_true'] at hidle
  obtain ⟨horder, hwriting⟩ := hidle
  obtain ⟨hidle, halive⟩ := h.resting hwriting
  exact ⟨h.pending_eq_none horder, hidle, halive⟩

theorem Queued.enqueue (h : Queued s) (ticket : Ticket) (record : Bytes) :
    Queued (s.enqueue ticket record) := by
  -- a pending snapshot is exchanged in its place; a new one goes to the end of the line
  have hinsert (p' : Pending) (order : List String) (hin : ticket.tradeId ∈ order)
      (hmore : ∀ id ∈ s.order, id ∈ order) (id : String) (p : Pending)
      (hp : (s.pending.insert ticket.tradeId p').get? id = some p) : id ∈ order := by
    rw [Dict.get?_insert] at hp
    split at hp
    next hid => rwa [Std.LawfulEqOrd.eq_of_compare hid]
    next => exact hmore id (h.inLine id p hp)
  rcases s.enqueue_cases ticket record with ⟨-, p, hp, heq⟩ | ⟨-, -, heq⟩ | ⟨-, p, hp, heq⟩ |
    ⟨-, -, heq⟩
  · rw [heq]
    exact ⟨hinsert _ _ (h.inLine _ p hp) fun _ hid => hid, h.resting⟩
  · rw [heq]
    exact ⟨h.inLine, h.resting⟩
  · rw [heq]
    exact ⟨hinsert _ _ (h.inLine _ p hp) fun _ hid => hid, h.resting⟩
  · rw [heq]
    refine ⟨hinsert _ _ ?_ fun _ hid => List.mem_append_left _ hid, h.resting⟩
    exact List.mem_append_right _ List.mem_cons_self

theorem Queued.takeNext (h : Queued s) (b : Backend) : Queued (s.takeNext b) := by
  rcases s.takeNext_cases b with ⟨id, order, p, horder, -, heq⟩ | ⟨order, hpassed, heq⟩
  · rw [heq]
    refine ⟨fun id' p' hp' => ?_, fun hwriting => by cases hwriting⟩
    rw [Dict.get?_erase] at hp'
    split at hp'
    · cases hp'
    next hne =>
      -- the snapshot that left the line was another one
      have hin := h.inLine id' p' hp'
      rw [horder] at hin
      rcases List.mem_cons.1 hin with rfl | hin
      · exact absurd Std.ReflCmp.compare_self hne
      · exact hin
  · obtain ⟨flushing, writer, hquiet, -, hrest⟩ := rest_eq { s with order }
    rw [heq, hrest]
    refine ⟨fun id p hp => ?_, fun _ => ?_⟩
    · rcases hpassed id (h.inLine id p hp) with hin | hnone
      · exact hin
      · rw [hnone] at hp
        cases hp
    · rcases hquiet with rfl | rfl <;> simp

theorem Queued.act (h : Queued s) (hact : s.act b action = some (s', b')) : Queued s' := by
  cases action with
  | schedule t =>
    cases hact
    rcases s.schedule_cases t with ⟨failure, heq⟩ | ⟨record, -, heq⟩
    · rw [heq]
      exact ⟨h.inLine, h.resting⟩
    · have hissued : Queued { s with issued := s.issued + 1 } := ⟨h.inLine, h.resting⟩
      rw [heq]
      exact hissued.enqueue _ _
  | flush =>
    cases hact
    unfold flush
    split
    · exact h
    · exact ⟨h.inLine, h.resting⟩
  | close =>
    cases hact
    exact ⟨h.inLine, h.resting⟩
  | write =>
    rcases step_cases hact with ⟨-, rfl, -⟩ | ⟨-, rfl, -⟩ | ⟨id, p, held, n, hwriter, -, rfl⟩
    · exact h.takeNext b
    · exact ⟨h.inLine, fun _ => by simp⟩
    · -- the store is still said to be writing when the answer of the backend arrives
      have hwriting : s.writing ≠ false := fun hresting =>
        (h.resting hresting).1 id p held hwriter
      cases ({ b with admitted := n }.write id p.record).2 with
      | written => exact ⟨h.inLine, fun hresting => absurd hresting hwriting⟩
      | refused cause => exact ⟨h.inLine, fun hresting => absurd hresting hwriting⟩
      | broken => exact ⟨h.inLine, fun hresting => absurd hresting hwriting⟩
  | behave b' =>
    cases hact
    exact h

theorem Run.queued (h : Run s b actions s' b') (hs : Queued s) : Queued s' :=
  h.keeps hs fun _ _ _ _ _ h hact => h.act hact

/-! ## The end of a flush -/

/-- Handing in a snapshot releases nobody, and gives out one ticket. -/
theorem schedule_keeps (s : Store) (t : Trade) :
    (s.schedule t).1.flushing = s.flushing ∧ (s.schedule t).1.closed = s.closed ∧
      (s.schedule t).1.issued = s.issued + 1 := by
  rcases s.schedule_cases t with ⟨failure, heq⟩ | ⟨record, -, heq⟩
  · simp [heq, reply]
  · rcases enqueue_cases { s with issued := s.issued + 1 } ⟨s.issued, t.id, t.sequence⟩ record
      with ⟨-, p, -, heq'⟩ | ⟨-, -, heq'⟩ | ⟨-, p, -, heq'⟩ | ⟨-, -, heq'⟩ <;>
      simp [heq, heq', reply]

/-- Who waits for a flush is released at a quiet moment. -/
theorem Queued.quiet_of_released (h : Queued s) (hact : s.act b action = some (s', b')) {n : Nat}
    (hwaits : n ∈ s.flushing) (hreleased : n ∉ s'.flushing) : Quiet s' := by
  cases action with
  | schedule t =>
    cases hact
    rw [(s.schedule_keeps t).1] at hreleased
    exact absurd hwaits hreleased
  | flush =>
    cases hact
    unfold flush at hreleased
    split at hreleased
    · exact absurd hwaits hreleased
    · exact absurd (List.mem_append_left _ hwaits) hreleased
  | close =>
    cases hact
    exact absurd hwaits hreleased
  | behave b' =>
    cases hact
    exact absurd hwaits hreleased
  | write =>
    rcases step_cases hact with ⟨-, rfl, -⟩ | ⟨-, rfl, -⟩ | ⟨id, p, held, m, -, -, rfl⟩
    · have hqueued := h.takeNext b
      rcases s.takeNext_cases b with ⟨id, order, p, -, -, heq⟩ | ⟨order, -, heq⟩
      · rw [heq] at hreleased
        exact absurd hwaits hreleased
      · obtain ⟨flushing, writer, hquiet, hleft, hrest⟩ := rest_eq { s with order }
        rw [heq, hrest] at hreleased hqueued ⊢
        rcases hleft with horder | hflushing
        · refine ⟨hqueued.pending_eq_none horder, ?_, ?_⟩
          · rcases hquiet with rfl | rfl <;> simp
          · rcases hquiet with rfl | rfl <;> simp
        · rw [hflushing] at hreleased
          exact absurd hwaits hreleased
    · exact absurd hwaits hreleased
    · cases hresult : ({ b with admitted := m }.write id p.record).2 <;>
        rw [hresult] at hreleased <;> exact absurd hwaits hreleased

/-- A flush that is over has seen a quiet moment since it began. -/
theorem Run.exists_quiet (h : Run s.flush.1 b actions s' b') (hs : Queued s)
    (hflushed : s'.isFlushed s.flush.2 = true) :
    ∃ early late s₁ b₁, actions = early ++ late ∧ Run s.flush.1 b early s₁ b₁ ∧
      Run s₁ b₁ late s' b' ∧ Quiet s₁ := by
  by_cases hidle : s.idle = true
  · have hflush : s.flush = (s, none) := by simp [flush, hidle]
    rw [hflush] at h ⊢
    exact ⟨[], actions, s, b, rfl, .nil, h, hs.quiet_of_idle hidle⟩
  · have hflush : s.flush.2 = some s.flushes := by simp [flush, hidle]
    have hwaits : s.flushes ∈ s.flush.1.flushing := by simp [flush, hidle]
    have hqueued : Queued s.flush.1 := hs.act (s.act_flush b)
    -- the call either still waits, or was released at some moment
    have hboth : s.flushes ∈ s'.flushing ∨
        ∃ early late s₁ b₁, actions = early ++ late ∧ Run s.flush.1 b early s₁ b₁ ∧
          Run s₁ b₁ late s' b' ∧ Quiet s₁ := by
      clear hflushed
      induction h with
      | nil => exact .inl hwaits
      | @concat actions s₁ s₂ b₁ b₂ a hrun hact ih =>
        rcases ih with hstill | ⟨early, late, s₀, b₀, rfl, hearly, hlate, hquiet⟩
        · by_cases hreleased : s.flushes ∈ s₂.flushing
          · exact .inl hreleased
          · refine .inr ⟨actions ++ [a], [], s₂, b₂, (List.append_nil _).symm,
              .concat hrun hact, .nil, ?_⟩
            exact (hrun.queued hqueued).quiet_of_released hact hstill hreleased
        · refine .inr ⟨early, late ++ [a], s₀, b₀, List.append_assoc .., hearly, ?_, hquiet⟩
          exact .concat hlate hact
    rcases hboth with hstill | hquiet
    · rw [hflush] at hflushed
      simp only [isFlushed, Option.all_some, Bool.not_eq_true', List.contains_eq_mem,
        decide_eq_false_iff_not] at hflushed
      exact absurd hstill hflushed
    · exact hquiet

/-! ## What becomes of a ticket -/

/-- A ticket has its answer. -/
def Answered (s : Store) (number : Nat) : Prop := ∃ a ∈ s.answers, a.ticket.number = number

/-- A ticket waits for a snapshot that is pending or being written. -/
def Waits (s : Store) (number : Nat) : Prop :=
  ∃ id p, (s.pending.get? id = some p ∨ ∃ held, s.writer = .writing id p held) ∧
    ∃ w ∈ p.waiters, w.number = number

/-- Every ticket that was handed out has its answer or waits for one. -/
def Accounted (s : Store) : Prop := ∀ n < s.issued, s.Answered n ∨ s.Waits n

theorem Accounted.answered (h : Accounted s) (hquiet : Quiet s) {n : Nat} (hn : n < s.issued) :
    s.Answered n := by
  rcases h n hn with hanswered | ⟨id, p, hplace, -⟩
  · exact hanswered
  · -- nobody waits at a quiet moment
    rcases hplace with hp | ⟨held, hwriter⟩
    · rw [hquiet.pending] at hp
      cases hp
    · exact absurd hwriter (hquiet.writing id p held)

theorem Answered.mono {n : Nat} (h : s.Answered n) (given : List Answer)
    (hgiven : s'.answers = s.answers ++ given) : s'.Answered n := by
  obtain ⟨a, ha, hn⟩ := h
  refine ⟨a, ?_, hn⟩
  rw [hgiven]
  exact List.mem_append_left _ ha

theorem answered_reply {tickets : List Ticket} {result : Ticket → PersistResult} {w : Ticket}
    (hw : w ∈ tickets) : (s.reply tickets result).Answered w.number := by
  refine ⟨⟨w, result w⟩, ?_, rfl⟩
  exact List.mem_append_right _ (List.mem_map_of_mem hw)

/-- A ticket that joins the waiters of a pending snapshot waits, and all others wait on. -/
theorem accounted_insert {ticket : Ticket} {p' : Pending}
    (h : ∀ n < s.issued, s.Answered n ∨ s.Waits n ∨ n = ticket.number)
    (hpending : s'.pending = s.pending.insert ticket.tradeId p')
    (hmore : ∀ p, s.pending.get? ticket.tradeId = some p → ∀ w ∈ p.waiters, w ∈ p'.waiters)
    (hticket : ticket ∈ p'.waiters) (hwriter : s'.writer = s.writer)
    (hanswers : s'.answers = s.answers) (hissued : s'.issued = s.issued) : Accounted s' := by
  have hself : s'.pending.get? ticket.tradeId = some p' := by
    rw [hpending, Dict.get?_insert_self]
  intro n hn
  rw [hissued] at hn
  rcases h n hn with hanswered | ⟨id, p, hplace, w, hw, hnumber⟩ | rfl
  · exact .inl (hanswered.mono [] (by rw [hanswers, List.append_nil]))
  · rcases hplace with hp | hwriting
    · by_cases hid : id = ticket.tradeId
      · subst hid
        exact .inr ⟨_, p', .inl hself, w, hmore p hp w hw, hnumber⟩
      · refine .inr ⟨id, p, .inl ?_, w, hw, hnumber⟩
        rw [hpending, Dict.get?_insert, if_neg (by simpa using hid)]
        exact hp
    · rw [← hwriter] at hwriting
      exact .inr ⟨id, p, .inr hwriting, w, hw, hnumber⟩
  · exact .inr ⟨_, p', .inl hself, ticket, hticket, rfl⟩

theorem accounted_enqueue (ticket : Ticket)
    (h : ∀ n < s.issued, s.Answered n ∨ s.Waits n ∨ n = ticket.number) (record : Bytes) :
    Accounted (s.enqueue ticket record) := by
  rcases s.enqueue_cases ticket record with ⟨-, p, hp, heq⟩ | ⟨-, -, heq⟩ | ⟨-, p, hp, heq⟩ |
    ⟨-, hnone, heq⟩
  · rw [heq]
    refine accounted_insert h rfl (fun p' hp' w hw => ?_) (by simp) rfl rfl rfl
    rw [hp] at hp'
    cases hp'
    exact List.mem_append_left _ hw
  · rw [heq]
    intro n hn
    rcases h n hn with hanswered | hwaits | rfl
    · exact .inl (hanswered.mono _ rfl)
    · exact .inr hwaits
    · exact .inl (answered_reply List.mem_cons_self)
  · rw [heq]
    refine accounted_insert h rfl (fun p' hp' w hw => ?_) (by simp) rfl rfl rfl
    rw [hp] at hp'
    cases hp'
    exact List.mem_append_left _ hw
  · rw [heq]
    refine accounted_insert h rfl (fun p' hp' => ?_) List.mem_cons_self rfl rfl rfl
    rw [hnone] at hp'
    cases hp'

theorem Accounted.schedule (h : Accounted s) (t : Trade) : Accounted (s.schedule t).1 := by
  -- the only new ticket is the one that is handed out now
  have hnew : ∀ n < s.issued + 1, s.Answered n ∨ s.Waits n ∨ n = s.issued := by
    intro n hn
    rcases Nat.lt_or_eq_of_le (Nat.le_of_lt_succ hn) with hold | rfl
    · exact (h n hold).imp_right .inl
    · exact .inr (.inr rfl)
  rcases s.schedule_cases t with ⟨failure, heq⟩ | ⟨record, -, heq⟩
  · rw [heq]
    intro n hn
    rcases hnew n hn with hanswered | hwaits | rfl
    · exact .inl (hanswered.mono _ rfl)
    · exact .inr hwaits
    · exact .inl (answered_reply (w := ⟨s.issued, t.id, t.sequence⟩) List.mem_cons_self)
  · rw [heq]
    exact accounted_enqueue (s := { s with issued := s.issued + 1 }) ⟨s.issued, t.id, t.sequence⟩
      hnew record

theorem Accounted.takeNext (h : Accounted s) (hready : s.writer = .ready) (b : Backend) :
    Accounted (s.takeNext b) := by
  rcases s.takeNext_cases b with ⟨id, order, p, -, hp, heq⟩ | ⟨order, -, heq⟩
  · rw [heq]
    intro n hn
    rcases h n hn with hanswered | ⟨id', p', hp' | ⟨held, hwriting⟩, hw⟩
    · exact .inl (hanswered.mono [] (List.append_nil _).symm)
    · -- who waited for the snapshot that left the line waits for its write
      by_cases hid : id' = id
      · subst hid
        rw [hp] at hp'
        cases hp'
        exact .inr ⟨id', p, .inr ⟨b.holds, rfl⟩, hw⟩
      · refine .inr ⟨id', p', .inl ?_, hw⟩
        rw [Dict.get?_erase, if_neg (by simpa using hid)]
        exact hp'
    · rw [hready] at hwriting
      cases hwriting
  · obtain ⟨flushing, writer, hquiet, -, hrest⟩ := rest_eq { s with order }
    rw [heq, hrest]
    intro n hn
    rcases h n hn with hanswered | ⟨id', p', hp' | ⟨held, hwriting⟩, hw⟩
    · exact .inl (hanswered.mono [] (List.append_nil _).symm)
    · exact .inr ⟨id', p', .inl hp', hw⟩
    · rw [hready] at hwriting
      cases hwriting

/-- Whatever the backend says, all who waited for the write are told. -/
theorem finish_replies (s : Store) (id : String) (p : Pending) (outcome : WriteResult) :
    ∃ result, (s.finish id p outcome).answers = (s.reply p.waiters result).answers ∧
      (s.finish id p outcome).pending = s.pending ∧
      (s.finish id p outcome).issued = s.issued := by
  cases outcome <;> exact ⟨_, rfl, rfl, rfl⟩

theorem Accounted.finish (h : Accounted s) {id : String} {p : Pending} {held : Bool}
    (hwriter : s.writer = .writing id p held) (outcome : WriteResult) :
    Accounted (s.finish id p outcome) := by
  obtain ⟨result, hanswers, hpending, hissued⟩ := s.finish_replies id p outcome
  intro n hn
  rw [hissued] at hn
  rcases h n hn with hanswered | ⟨id', p', hp' | ⟨held', hwriting⟩, hw⟩
  · exact .inl (hanswered.mono _ hanswers)
  · rw [← hpending] at hp'
    exact .inr ⟨id', p', .inl hp', hw⟩
  · rw [hwriter] at hwriting
    cases hwriting
    obtain ⟨w, hw, rfl⟩ := hw
    left
    rw [Answered, hanswers]
    exact answered_reply hw

/-- Answers stay, and tickets are not taken back. -/
theorem answers_grow (hact : s.act b action = some (s', b')) :
    (∃ given, s'.answers = s.answers ++ given) ∧ s.issued ≤ s'.issued := by
  cases action with
  | schedule t =>
    cases hact
    refine ⟨?_, by rw [(s.schedule_keeps t).2.2]; exact Nat.le_succ _⟩
    rcases s.schedule_cases t with ⟨failure, heq⟩ | ⟨record, -, heq⟩
    · exact ⟨_, by rw [heq]; rfl⟩
    · rcases enqueue_cases { s with issued := s.issued + 1 } ⟨s.issued, t.id, t.sequence⟩ record
        with ⟨-, p, -, heq'⟩ | ⟨-, -, heq'⟩ | ⟨-, p, -, heq'⟩ | ⟨-, -, heq'⟩
      · exact ⟨[], by rw [heq, heq', List.append_nil]⟩
      · exact ⟨_, by rw [heq, heq']; rfl⟩
      · exact ⟨[], by rw [heq, heq', List.append_nil]⟩
      · exact ⟨[], by rw [heq, heq', List.append_nil]⟩
  | flush =>
    cases hact
    unfold flush
    split <;> exact ⟨⟨[], (List.append_nil _).symm⟩, Nat.le_refl _⟩
  | close =>
    cases hact
    exact ⟨⟨[], (List.append_nil _).symm⟩, Nat.le_refl _⟩
  | behave b' =>
    cases hact
    exact ⟨⟨[], (List.append_nil _).symm⟩, Nat.le_refl _⟩
  | write =>
    rcases step_cases hact with ⟨-, rfl, -⟩ | ⟨-, rfl, -⟩ | ⟨id, p, held, n, -, -, rfl⟩
    · obtain ⟨hanswers, -, hissued⟩ := s.takeNext_same b
      exact ⟨⟨[], by rw [hanswers, List.append_nil]⟩, Nat.le_of_eq hissued.symm⟩
    · exact ⟨⟨[], (List.append_nil _).symm⟩, Nat.le_refl _⟩
    · obtain ⟨result, hanswers, -, hissued⟩ :=
        s.finish_replies id p ({ b with admitted := n }.write id p.record).2
      exact ⟨⟨_, hanswers⟩, Nat.le_of_eq hissued.symm⟩

theorem Run.answered (h : Run s b actions s' b') {n : Nat} (hn : s.Answered n) :
    s'.Answered n :=
  h.keeps (P := fun s => s.Answered n) hn fun _ _ _ _ _ hn hact =>
    hn.mono _ (answers_grow hact).1.choose_spec

/-- Finished writes stay on record. -/
theorem attempts_grow (hact : s.act b action = some (s', b')) :
    ∃ finished, s'.attempts = s.attempts ++ finished := by
  cases action with
  | schedule t =>
    cases hact
    exact ⟨[], by rw [(s.schedule_same t).1, List.append_nil]⟩
  | flush =>
    cases hact
    unfold flush
    split <;> exact ⟨[], (List.append_nil _).symm⟩
  | close =>
    cases hact
    exact ⟨[], (List.append_nil _).symm⟩
  | behave b' =>
    cases hact
    exact ⟨[], (List.append_nil _).symm⟩
  | write =>
    rcases step_cases hact with ⟨-, rfl, -⟩ | ⟨-, rfl, -⟩ | ⟨id, p, held, n, -, -, rfl⟩
    · exact ⟨[], by rw [(s.takeNext_same b).2.1, List.append_nil]⟩
    · exact ⟨[], (List.append_nil _).symm⟩
    · cases ({ b with admitted := n }.write id p.record).2 with
      | written => exact ⟨_, rfl⟩
      | refused cause => exact ⟨_, rfl⟩
      | broken => exact ⟨[], (List.append_nil _).symm⟩

theorem Run.attempts_subset (h : Run s b actions s' b') : s.attempts ⊆ s'.attempts := by
  refine h.keeps (P := fun s' => s.attempts ⊆ s'.attempts) (List.Subset.refl _) ?_
  intro _ _ _ _ _ hsubset hact
  obtain ⟨finished, hfinished⟩ := attempts_grow hact
  rw [hfinished]
  exact List.Subset.trans hsubset (List.subset_append_left _ _)

theorem Run.issued_le (h : Run s b actions s' b') : s.issued ≤ s'.issued :=
  h.keeps (P := fun s' => s.issued ≤ s'.issued) (Nat.le_refl _)
    fun _ _ _ _ _ hle hact => Nat.le_trans hle (answers_grow hact).2

theorem accounted_new : Accounted {} := fun n hn => absurd hn (Nat.not_lt_zero n)

theorem Accounted.act (h : Accounted s) (hact : s.act b action = some (s', b')) :
    Accounted s' := by
  cases action with
  | schedule t =>
    cases hact
    exact h.schedule t
  | flush =>
    cases hact
    unfold flush
    split <;> exact h
  | close =>
    cases hact
    exact h
  | behave b' =>
    cases hact
    exact h
  | write =>
    rcases step_cases hact with ⟨hready, rfl, -⟩ | ⟨hparked, rfl, -⟩ | ⟨id, p, held, n, hwriter, -, rfl⟩
    · exact h.takeNext hready b
    · intro n hn
      refine (h n hn).imp (·.mono [] (List.append_nil _).symm) ?_
      rintro ⟨id, p, hp | ⟨held, hwriting⟩, hw⟩
      · exact ⟨id, p, .inl hp, hw⟩
      · rw [hparked] at hwriting
        cases hwriting
    · exact h.finish hwriter _

theorem Run.accounted (h : Run s b actions s' b') (hs : Accounted s) : Accounted s' :=
  h.keeps hs fun _ _ _ _ _ h hact => h.act hact

end PeerTrade.Store
