import PeerTrade.Proofs.Store.Periods

/-!
# Tables that agree

Between any two steps of a store its tables agree with each other (`Store.Tidy`), the writer finds a
snapshot for every trade that it takes out of the line (`Store.Looks`), and while it is parked without a
stored wake-up there is nothing for it to do (`Store.AtRest`).
-/

namespace PeerTrade.Store

variable {s s' : Store} {b b' : Backend} {action : Action}

/-! ## Tables that agree -/

/-- The tables agree with each other: every trade with a pending snapshot is in line, once, and nobody
else is; somebody waits for the snapshot, and it is the newest of its trade; nobody waits for a flush of
an idle store; and a snapshot that is being written is known to be. -/
structure Tidy (s : Store) : Prop where
  once : s.order.Nodup
  keys : ∀ id, id ∈ s.order ↔ id ∈ s.pending.keys
  served : ∀ id p, s.pending.get? id = some p →
    p.waiters ≠ [] ∧ s.highest.get? id = some p.sequence
  flushing : s.flushing ≠ [] → s.order ≠ [] ∨ s.writing = true
  writing : ∀ id p held, s.writer = .writing id p held → s.writing = true
  resting : s.writer = .parked ∨ s.writer = .stopped → s.writing = false

/-- There is nothing to do until somebody calls. -/
structure AtRest (s : Store) : Prop where
  order : s.order = []
  writing : s.writing = false
  opened : s.closed = false

/-- What comes of it when the writer looks for work: it takes the first trade in line, which has a
pending snapshot, and it parks only if there is nothing to do. -/
structure Looks (s : Store) (b : Backend) : Prop where
  takes : ∀ id rest, s.order = id :: rest → ∃ p, s.pending.get? id = some p ∧
    (s.takeNext b).writer = .writing id p b.holds ∧ (s.takeNext b).order = rest
  parks : (s.takeNext b).writer = .parked → (s.takeNext b).AtRest

theorem Lined.looks (h : Lined s) (b : Backend) : s.Looks b := by
  rcases h.takeNext_cases b with ⟨id, order, p, horder, hp, heq⟩ | ⟨hempty, heq⟩
  · constructor
    · intro id' rest hfirst
      obtain ⟨rfl, rfl⟩ := List.cons.inj (horder.symm.trans hfirst)
      exact ⟨p, hp, by rw [heq], by rw [heq]⟩
    · intro hparked
      simp [heq] at hparked
  · constructor
    · intro id' rest hfirst
      simp [hempty] at hfirst
    · -- the writer of a closed store would stop
      intro hparked
      rw [heq] at hparked ⊢
      have hopen : s.closed = false := by
        by_contra hclosed
        simp [hclosed] at hparked
      exact ⟨hempty, rfl, hopen⟩

/-! ## A writer that parks -/

/-- A parked writer writes nothing, and closing wakes it; and nobody waits for a flush of an idle
store. -/
structure Vigilant (s : Store) : Prop where
  flushing : s.flushing ≠ [] → s.order ≠ [] ∨ s.writing = true
  parked : s.writer = .parked → s.writing = false
  roused : s.writer = .parked → s.closed = true → s.wake = true

theorem vigilant_new : Vigilant {} where
  flushing hwaits := absurd rfl hwaits
  parked := nofun
  roused := nofun

theorem Vigilant.schedule (h : Vigilant s) (t : Trade) : Vigilant (s.schedule t).1 := by
  rcases s.schedule_cases t with ⟨failure, heq⟩ | ⟨record, -, heq⟩
  · rw [heq]
    exact ⟨h.flushing, h.parked, h.roused⟩
  · rw [heq]
    rcases enqueue_cases { s with issued := s.issued + 1 } ⟨s.issued, t.id, t.sequence⟩ record with
      ⟨-, p, -, heq⟩ | ⟨-, -, heq⟩ | ⟨-, p, -, heq⟩ | ⟨-, -, heq⟩
    · rw [heq]
      exact ⟨h.flushing, h.parked, fun _ _ => rfl⟩
    · rw [heq]
      exact ⟨h.flushing, h.parked, h.roused⟩
    · rw [heq]
      exact ⟨h.flushing, h.parked, fun _ _ => rfl⟩
    · rw [heq]
      exact ⟨fun _ => .inl (by simp), h.parked, fun _ _ => rfl⟩

theorem Lined.vigilant_takeNext (h : Lined s) (b : Backend) : Vigilant (s.takeNext b) := by
  rcases h.takeNext_cases b with ⟨id, order, p, -, -, heq⟩ | ⟨-, heq⟩
  · rw [heq]
    exact ⟨fun _ => .inr rfl, by simp, by simp⟩
  · rw [heq]
    refine ⟨fun hwaits => absurd rfl hwaits, fun _ => rfl, fun hparked hclosed => ?_⟩
    simp only at hclosed
    simp [hclosed] at hparked

theorem Vigilant.act (h : Vigilant s) (hlined : Lined s) (hact : s.act b action = some (s', b')) :
    Vigilant s' := by
  cases action with
  | schedule t =>
    cases hact
    exact h.schedule t
  | flush =>
    cases hact
    unfold flush
    split
    · exact h
    next hbusy =>
      -- only a store that is not idle lets anybody wait
      refine ⟨fun _ => ?_, h.parked, h.roused⟩
      simpa [idle, imp_iff_not_or] using hbusy
  | close =>
    cases hact
    exact ⟨h.flushing, h.parked, fun _ _ => rfl⟩
  | behave b' =>
    cases hact
    exact h
  | write =>
    rcases step_cases hact with ⟨-, rfl, -⟩ | ⟨-, rfl, -⟩ | ⟨id, p, held, n, -, -, rfl⟩
    · exact hlined.vigilant_takeNext b
    · exact ⟨h.flushing, by simp, by simp⟩
    · cases ({ b with admitted := n }.write id p.record).2 <;>
        exact ⟨h.flushing, by simp [finish], by simp [finish]⟩

theorem Reachable.vigilant (h : Reachable s b) : Vigilant s := by
  have hboth : Lined s ∧ Vigilant s := by
    apply h.induction (P := fun s => Lined s ∧ Vigilant s) ⟨lined_new, vigilant_new⟩
    rintro s b action s' b' ⟨hlined, hvigilant⟩ hact
    exact ⟨hlined.act hact, hvigilant.act hlined hact⟩
  exact hboth.2

theorem Reachable.tidy (h : Reachable s b) : Tidy s where
  once := h.lined.once
  keys id := by
    rw [mem_order_iff h.lined h.queued, Dict.mem_keys_iff, Dict.contains, Option.isSome_iff_exists]
  served id p hp := ⟨h.apart.served id p hp, (h.sound.pending id p hp).1⟩
  flushing := h.vigilant.flushing
  writing id p held hwriter := by
    by_contra hresting
    exact (h.queued.resting (by simpa using hresting)).1 id p held hwriter
  resting hquiet := by
    rcases hquiet with hparked | hstopped
    · exact h.vigilant.parked hparked
    · exact (h.halted hstopped).2.2.1

/-- A writer that is parked without a stored wake-up has nothing to do. -/
theorem Reachable.atRest (h : Reachable s b) (hparked : s.writer = .parked)
    (hwake : s.wake = false) : AtRest s where
  order := by
    by_contra hbusy
    simp [h.attentive hparked hbusy] at hwake
  writing := h.vigilant.parked hparked
  opened := by
    by_contra hclosed
    simp [h.vigilant.roused hparked (by simpa using hclosed)] at hwake

/-- Nobody waits for a flush of a store that is at rest. -/
theorem Tidy.flushing_eq_nil (h : Tidy s) (hrest : AtRest s) : s.flushing = [] := by
  by_contra hwaits
  rcases h.flushing hwaits with hbusy | hwriting
  · exact hbusy hrest.order
  · simp [hrest.writing] at hwriting

/-- As long as there is anything to do a writer that has not ended can go on, unless the backend holds
its write back. -/
theorem Reachable.goes_on_of_not_atRest (h : Reachable s b) (hbusy : ¬s.AtRest)
    (hopen : s.writer.ended = false) :
    (s.act b .write).isSome ∨ b.admitted = 0 ∧ ∃ id p, s.writer = .writing id p true := by
  refine goes_on_of_awake (fun hparked => ?_) hopen b
  by_contra hwake
  exact hbusy (h.atRest hparked (by simpa using hwake))

end PeerTrade.Store
