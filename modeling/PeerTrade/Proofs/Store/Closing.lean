import PeerTrade.Proofs.Store.Aftermath
import PeerTrade.Proofs.Store.Newest

/-!
# Closed stores

From the moment on when a store is closed no request is taken any more, but answered with a failure at
once (`Store.handIn_of_closed`). As long as no write breaks down the writer goes on (`Store.Run.alive`),
and when it has stopped nothing is left (`Store.Reachable.drained`).
-/

namespace PeerTrade.Store

variable {s s' : Store} {b b' b₀ : Backend} {action : Action} {actions : List Action}

/-! ## Backends that do not break down -/

/-- At no time a write would break down. -/
def Steady (b₀ : Backend) (actions : List Action) : Prop :=
  b₀.breaks = false ∧ ∀ b, .behave b ∈ actions → b.breaks = false

theorem Steady.of_append {more : List Action} (h : Steady b₀ (actions ++ more)) :
    Steady b₀ actions :=
  ⟨h.1, fun b hb => h.2 b (List.mem_append_left _ hb)⟩

theorem write_breaks (b : Backend) (id : String) (record : Bytes) :
    (b.write id record).1.breaks = b.breaks := by
  unfold Backend.write
  split
  · rfl
  · split <;> rfl

theorem write_ne_broken (hsteady : b.breaks = false) (id : String) (record : Bytes) :
    (b.write id record).2 ≠ .broken := by
  unfold Backend.write
  rw [if_neg (by simp [hsteady])]
  split <;> simp

/-- If no write breaks down, the writer looks for work after each. -/
theorem finish_of_steady (hsteady : b.breaks = false) (s : Store) (id : String) (p : Pending)
    (admitted : Nat) {s' : Store}
    (h : s' = s.finish id p ({ b with admitted }.write id p.record).2) :
    s'.writer = .ready ∧ s'.closed = s.closed ∧ s'.order = s.order := by
  subst h
  have hnot : ({ b with admitted }.write id p.record).2 ≠ .broken :=
    write_ne_broken (b := { b with admitted }) hsteady id p.record
  cases houtcome : ({ b with admitted }.write id p.record).2 with
  | broken => exact absurd houtcome hnot
  | written => exact ⟨rfl, rfl, rfl⟩
  | refused cause => exact ⟨rfl, rfl, rfl⟩

theorem Run.breaks_eq_false (h : Run s b₀ actions s' b') (hsteady : Steady b₀ actions) :
    b'.breaks = false := by
  induction h with
  | nil => exact hsteady.1
  | @concat actions s₁ s₂ b₁ b₂ action hrun hact ih =>
    have hbefore := ih hsteady.of_append
    cases action with
    | schedule t =>
      cases hact
      exact hbefore
    | flush =>
      cases hact
      exact hbefore
    | close =>
      cases hact
      exact hbefore
    | behave b' =>
      cases hact
      exact hsteady.2 b' (List.mem_append_right _ List.mem_cons_self)
    | write =>
      rcases step_cases hact with ⟨-, -, rfl⟩ | ⟨-, -, rfl⟩ | ⟨id, p, held, n, -, rfl, -⟩
      · exact hbefore
      · exact hbefore
      · rw [write_breaks]
        exact hbefore

/-! ## What is in line -/

/-- Every trade is in line once, and with a snapshot. -/
structure Lined (s : Store) : Prop where
  once : s.order.Nodup
  pending : ∀ id ∈ s.order, ∃ p, s.pending.get? id = some p

theorem lined_new : Lined {} := ⟨List.nodup_nil, fun _ h => absurd h List.not_mem_nil⟩

theorem Lined.congr (h : Lined s) (horder : s'.order = s.order)
    (hpending : s'.pending = s.pending) : Lined s' := by
  constructor
  · rw [horder]
    exact h.once
  · rw [horder, hpending]
    exact h.pending

theorem Lined.enqueue (h : Lined s) (ticket : Ticket) (record : Bytes) :
    Lined (s.enqueue ticket record) := by
  have hinsert (q : Pending) (id : String) (hid : id ∈ s.order ∨ id = ticket.tradeId) :
      ∃ p, (s.pending.insert ticket.tradeId q).get? id = some p := by
    rw [Dict.get?_insert]
    split
    · exact ⟨q, rfl⟩
    next hne =>
      rcases hid with hid | rfl
      · exact h.pending id hid
      · exact absurd Std.ReflCmp.compare_self hne
  rcases s.enqueue_cases ticket record with ⟨-, p, -, heq⟩ | ⟨-, -, heq⟩ | ⟨-, p, -, heq⟩ |
    ⟨-, hnone, heq⟩
  · rw [heq]
    exact ⟨h.once, fun id hid => hinsert _ id (.inl hid)⟩
  · rw [heq]
    exact h.congr rfl rfl
  · rw [heq]
    exact ⟨h.once, fun id hid => hinsert _ id (.inl hid)⟩
  · rw [heq]
    -- a trade without pending snapshot is not in line yet
    have hnew : ticket.tradeId ∉ s.order := fun hin => by
      obtain ⟨p, hp⟩ := h.pending _ hin
      rw [hnone] at hp
      cases hp
    have honce : (s.order ++ [ticket.tradeId]).Nodup := by
      refine List.nodup_append.2 ⟨h.once, List.pairwise_singleton _ _, fun id hid id' hid' heq => ?_⟩
      rw [List.mem_singleton.1 hid'] at heq
      exact hnew (heq ▸ hid)
    exact ⟨honce, fun id hid =>
      hinsert _ id ((List.mem_append.1 hid).imp_right List.mem_singleton.1)⟩

/-- A writer that looks for work takes what is first in line, or finds nothing in line. -/
theorem Lined.takeNext_cases (h : Lined s) (b : Backend) :
    (∃ id order p, s.order = id :: order ∧ s.pending.get? id = some p ∧ s.takeNext b = { s with
      order, pending := s.pending.erase id, writing := true, writer := .writing id p b.holds }) ∨
    s.order = [] ∧ s.takeNext b = { s with
      writing := false, flushing := [], writer := if s.closed then .stopped else .parked } := by
  cases horder : s.order with
  | nil =>
    refine .inr ⟨rfl, ?_⟩
    simp [Store.takeNext, horder, rest]
  | cons id order =>
    obtain ⟨p, hp⟩ := h.pending id (by rw [horder]; exact List.mem_cons_self)
    exact .inl ⟨id, order, p, rfl, hp, by simp [Store.takeNext, horder, hp]⟩

theorem Lined.takeNext (h : Lined s) (b : Backend) : Lined (s.takeNext b) := by
  rcases h.takeNext_cases b with ⟨id, order, p, horder, -, heq⟩ | ⟨-, heq⟩
  · rw [heq]
    have honce := h.once
    rw [horder] at honce
    refine ⟨(List.nodup_cons.1 honce).2, fun id' hid' => ?_⟩
    have hne : id' ≠ id := fun heq => (List.nodup_cons.1 honce).1 (heq ▸ hid')
    obtain ⟨q, hq⟩ := h.pending id' (by rw [horder]; exact List.mem_cons_of_mem _ hid')
    refine ⟨q, ?_⟩
    rw [Dict.get?_erase, if_neg (by simpa using hne)]
    exact hq
  · rw [heq]
    exact h.congr rfl rfl

theorem Lined.act (h : Lined s) (hact : s.act b action = some (s', b')) : Lined s' := by
  cases action with
  | schedule t =>
    cases hact
    rcases s.schedule_cases t with ⟨failure, heq⟩ | ⟨record, -, heq⟩
    · rw [heq]
      exact h.congr rfl rfl
    · have hissued : Lined { s with issued := s.issued + 1 } := h.congr rfl rfl
      rw [heq]
      exact hissued.enqueue _ _
  | flush =>
    cases hact
    unfold flush
    split
    · exact h
    · exact h.congr rfl rfl
  | close =>
    cases hact
    exact h.congr rfl rfl
  | behave b' =>
    cases hact
    exact h
  | write =>
    rcases step_cases hact with ⟨-, rfl, -⟩ | ⟨-, rfl, -⟩ | ⟨id, p, held, n, -, -, rfl⟩
    · exact h.takeNext b
    · exact h.congr rfl rfl
    · cases ({ b with admitted := n }.write id p.record).2 <;> exact h.congr rfl rfl

theorem Reachable.lined (h : Reachable s b) : Lined s :=
  h.induction lined_new fun _ _ _ _ _ h hact => h.act hact

/-! ## A closed store -/

/-- The answer to a request that comes too late: the snapshot has no stored form, or the store is
closed. -/
def late (t : Trade) (ticket : Ticket) : PersistResult :=
  failure ticket <| match t.toSnapshot.encode with
    | .error cause => (StoreError.encode cause).message
    | .ok _ => "store is closed"

theorem late_of_not_exists_encode {t : Trade} (h : ¬∃ record, t.toSnapshot.encode = .ok record)
    (ticket : Ticket) :
    late t ticket = failure ticket (StoreError.encode .instantOutOfRange).message := by
  unfold late
  cases hencode : t.toSnapshot.encode with
  | ok record => exact absurd ⟨record, hencode⟩ h
  | error cause =>
    cases cause
    rfl

/-- A closed store answers every request at once, and does nothing else. -/
theorem handIn_of_closed (hclosed : s.closed = true) (t : Trade) :
    s.handIn t = ({ s with issued := s.issued + 1 }.reply [⟨s.issued, t.id, t.sequence⟩] (late t),
      false) := by
  unfold late
  cases hencode : t.toSnapshot.encode with
  | error cause => exact handIn_of_encode_error hencode s
  | ok record => exact (handIn_of_encode_ok hencode s).trans (if_pos hclosed)

/-! ## Steps of the writer -/

/-- The steps of the writer among some actions. -/
def writes (actions : List Action) : Nat :=
  actions.countP fun
    | .write => true
    | _ => false

theorem writes_append (actions actions' : List Action) :
    writes (actions ++ actions') = writes actions + writes actions' :=
  List.countP_append

/-- A writer that has not ended and does not sleep for good can go on, unless the backend holds its
write back. -/
theorem goes_on_of_awake (hawake : s.writer = .parked → s.wake = true)
    (hopen : s.writer.ended = false) (b : Backend) :
    (s.act b .write).isSome ∨ b.admitted = 0 ∧ ∃ id p, s.writer = .writing id p true := by
  cases hwriter : s.writer with
  | ready => exact .inl (by simp [Store.act, Store.step, hwriter])
  | parked => exact .inl (by simp [Store.act, Store.step, hwriter, hawake hwriter])
  | writing id p held =>
    by_cases hheld : held = true ∧ b.admitted = 0
    · obtain ⟨rfl, hnone⟩ := hheld
      exact .inr ⟨hnone, id, p, rfl⟩
    · exact .inl (by simp [Store.act, Store.step, hwriter, hheld])
  | stopped => simp [hwriter, Writer.ended] at hopen
  | dead => simp [hwriter, Writer.ended] at hopen

/-! ## A writer that has stopped -/

/-- Nothing is pending or being written, every ticket that was handed out has its answer, and nobody
waits for a flush. -/
structure Drained (s : Store) : Prop where
  stopped : s.writer = .stopped
  writing : s.writing = false
  pending : ∀ id, s.pending.get? id = none
  answered : ∀ n < s.issued, s.Answered n
  flushed : s.flushing = []

theorem Reachable.drained (h : Reachable s b) (hstopped : s.writer = .stopped) : Drained s := by
  obtain ⟨-, horder, hwriting, hflushing⟩ := h.halted hstopped
  have hpending := h.queued.pending_eq_none horder
  have hquiet : Quiet s := by
    refine ⟨hpending, ?_, ?_⟩ <;> simp [hstopped]
  exact ⟨hstopped, hwriting, hpending, fun n hn => h.accounted.answered hquiet hn, hflushing⟩

/-! ## Writers that live -/

/-- A writer breaks down only in a write that does. -/
theorem alive_act (hlined : Lined s) (halive : s.writer ≠ .dead) (hquiet : b.breaks = false)
    (hact : s.act b action = some (s', b')) : s'.writer ≠ .dead := by
  cases action with
  | schedule t =>
    cases hact
    rw [(s.schedule_same t).2]
    exact halive
  | flush =>
    cases hact
    unfold flush
    split <;> exact halive
  | close =>
    cases hact
    exact halive
  | behave b' =>
    cases hact
    exact halive
  | write =>
    rcases step_cases hact with ⟨-, rfl, -⟩ | ⟨-, rfl, -⟩ | ⟨id, p, held, n, -, -, hfinish⟩
    · rcases hlined.takeNext_cases b with ⟨id, order, p, -, -, heq⟩ | ⟨-, heq⟩
      · simp [heq]
      · rw [heq]
        cases hclosed : s.closed <;> simp
    · simp
    · simp [(finish_of_steady hquiet s id p n hfinish).1]

theorem Run.alive (h : Run {} b₀ actions s b) (hsteady : Steady b₀ actions) :
    s.writer ≠ .dead := by
  induction h with
  | nil => simp
  | concat hrun hact ih =>
    exact alive_act hrun.reachable.lined (ih hsteady.of_append)
      (hrun.breaks_eq_false hsteady.of_append) hact

end PeerTrade.Store
