import PeerTrade.Proofs.Store.Closing
import PeerTrade.Proofs.Store.Convergence

/-!
# The line and the periods of a trade

A trade becomes pending at the end of the line, and leaves it only when the writer takes it from the
front. Whatever is handed in meanwhile keeps its place. A period begins when a trade becomes pending
(`Store.Period`); those that were in line before have their turn in it, each once and in their order,
and then the trade itself (`Store.Period.taken`). How many steps of the writer that takes is settled when
the period begins.
-/

namespace PeerTrade.Store

variable {s s' s₁ s₂ : Store} {b b' b₀ b₁ b₂ : Backend} {action : Action}
  {actions before during : List Action} {id : String}

/-! ## The line -/

/-- The trades whose writes were handed to the backend, in order. -/
def started (s : Store) : List String := s.begun.map (·.1)

theorem started_of_idle (h : ∀ id p held, s.writer ≠ .writing id p held) :
    s.started = s.attempts.map (·.tradeId) := by
  unfold started begun
  split
  next id p held hwriter => exact absurd hwriter (h id p held)
  next => simp

theorem started_of_writing {p : Pending} {held : Bool} (h : s.writer = .writing id p held) :
    s.started = s.attempts.map (·.tradeId) ++ [id] := by
  simp [started, begun, h]

theorem started_congr (hattempts : s'.attempts = s.attempts) (hwriter : s'.writer = s.writer) :
    s'.started = s.started := by
  rw [started, started, begun, begun, hattempts, hwriter]

/-- A trade is in line exactly if a snapshot of it is pending. -/
theorem mem_order_iff (hlined : Lined s) (hqueued : Queued s) :
    id ∈ s.order ↔ ∃ p, s.pending.get? id = some p :=
  ⟨hlined.pending id, fun ⟨p, hp⟩ => hqueued.inLine id p hp⟩

/-- How many steps the writer takes until it has taken what is first in line. -/
def lag (s : Store) : Nat :=
  match s.writer with
  | .ready => 1
  | .parked | .writing .. => 2
  | .stopped | .dead => 0

/-- What can happen to the line. -/
inductive LineStep (s : Store) (b : Backend) (action : Action) (s' : Store) : Prop where
  /-- If anybody is in line, every step of the writer brings the next turn nearer. -/
  | stays : s'.order = s.order → s'.started = s.started →
      (s.order ≠ [] → s'.lag + writes [action] = s.lag) → LineStep s b action s'
  /-- A trade that was not in line is now at its end. -/
  | grows (t : Trade) : action = .schedule t → s.pending.get? t.id = none →
      s'.order = s.order ++ [t.id] → s'.started = s.started → s'.lag = s.lag →
      LineStep s b action s'
  /-- The writer takes the trade at the front of the line. -/
  | moves (id : String) (p : Pending) : action = .write → s.writer = .ready →
      s.order = id :: s'.order → s.pending.get? id = some p → s'.writer = .writing id p b.holds →
      s'.attempts = s.attempts → s'.started = s.started ++ [id] → LineStep s b action s'

theorem lineStep_enqueue (s : Store) (t : Trade) (number : Nat) (record : Bytes) (b : Backend) :
    LineStep s b (.schedule t) (s.enqueue ⟨number, t.id, t.sequence⟩ record) := by
  obtain ⟨hattempts, hwriter⟩ := s.enqueue_same ⟨number, t.id, t.sequence⟩ record
  have hstarted := started_congr hattempts hwriter
  have hlag : (s.enqueue ⟨number, t.id, t.sequence⟩ record).lag = s.lag := by
    rw [lag, lag, hwriter]
  rcases s.enqueue_cases ⟨number, t.id, t.sequence⟩ record with ⟨-, p, -, heq⟩ | ⟨-, -, heq⟩ |
    ⟨-, p, -, heq⟩ | ⟨-, hnone, heq⟩
  · exact .stays (by rw [heq]) hstarted fun _ => hlag
  · exact .stays (by rw [heq]; rfl) hstarted fun _ => hlag
  · exact .stays (by rw [heq]) hstarted fun _ => hlag
  · exact .grows t rfl hnone (by rw [heq]) hstarted hlag

theorem lineStep_takeNext (hlined : Lined s) (hready : s.writer = .ready) (b : Backend) :
    LineStep s b .write (s.takeNext b) := by
  have hidle : ∀ id p held, s.writer ≠ .writing id p held := by simp [hready]
  rcases hlined.takeNext_cases b with ⟨id, order, p, horder, hp, heq⟩ | ⟨hempty, heq⟩
  · rw [heq]
    refine .moves id p rfl hready horder hp rfl rfl ?_
    rw [started_of_writing (p := p) rfl, started_of_idle hidle]
  · have hidle' : ∀ id p held, (s.takeNext b).writer ≠ .writing id p held := by
      rw [heq]
      cases s.closed <;> simp
    refine .stays (by rw [heq]) ?_ fun hbusy => absurd hempty hbusy
    rw [started_of_idle hidle, started_of_idle hidle', (s.takeNext_same b).2.1]

theorem lineStep_finish {id : String} {p : Pending} {held : Bool} {result : WriteResult}
    (hwriter : s.writer = .writing id p held) (halive : (s.finish id p result).writer ≠ .dead) :
    LineStep s b .write (s.finish id p result) := by
  -- the write that was under way is finished now, and has been begun as before
  have hidle : ∀ id' p' held', (s.finish id p result).writer ≠ .writing id' p' held' := by
    cases result <;> exact fun _ _ _ => nofun
  have hstarted : (s.finish id p result).started = s.started := by
    rw [started_of_idle hidle, started_of_writing hwriter]
    cases result with
    | written => simp [finish]
    | refused cause => simp [finish]
    | broken => exact absurd rfl halive
  have hlag : s.lag = 2 := by rw [lag, hwriter]
  refine .stays (by cases result <;> rfl) hstarted fun _ => ?_
  rw [hlag]
  cases result with
  | written => rfl
  | refused cause => rfl
  | broken => exact absurd rfl halive

/-- Whatever happens, the line stays as it is, or it grows at its end, or its front moves on. -/
theorem lineStep_of_act (hlined : Lined s) (hact : s.act b action = some (s', b'))
    (halive : s'.writer ≠ .dead) : LineStep s b action s' := by
  cases action with
  | schedule t =>
    cases hact
    rcases s.schedule_cases t with ⟨failure, heq⟩ | ⟨record, -, heq⟩
    · rw [heq]
      exact .stays rfl rfl fun _ => rfl
    · rw [heq]
      cases lineStep_enqueue { s with issued := s.issued + 1 } t s.issued record b with
      | stays horder hstarted hlag => exact .stays horder hstarted hlag
      | grows t hschedule hnone horder hstarted hlag =>
        exact .grows t hschedule hnone horder hstarted hlag
      | moves id p hwrite => cases hwrite
  | flush =>
    cases hact
    unfold flush
    split <;> exact .stays rfl rfl fun _ => rfl
  | close =>
    cases hact
    exact .stays rfl rfl fun _ => rfl
  | behave b' =>
    cases hact
    exact .stays rfl rfl fun _ => rfl
  | write =>
    rcases step_cases hact with ⟨hready, rfl, -⟩ | ⟨hparked, rfl, -⟩ | ⟨id, p, held, n, hwriter, -, rfl⟩
    · exact lineStep_takeNext hlined hready b
    · have hlag : s.lag = 2 := by rw [lag, hparked]
      refine .stays rfl ?_ fun _ => by rw [hlag]; rfl
      rw [started_of_idle (s := s) (by simp [hparked]), started_of_idle (by simp)]
    · exact lineStep_finish hwriter halive

/-! ## Periods -/

/-- From its second store on, a trade that was not pending is pending throughout a run. -/
inductive Period (id : String) (s : Store) (b : Backend) : List Action → Store → Backend → Prop where
  | begins {action : Action} {s₁ : Store} {b₁ : Backend} :
      s.pending.get? id = none → s.act b action = some (s₁, b₁) →
      (s₁.pending.get? id).isSome → Period id s b [action] s₁ b₁
  | goesOn {actions : List Action} {action : Action} {s₁ s₂ : Store} {b₁ b₂ : Backend} :
      Period id s b actions s₁ b₁ → s₁.act b₁ action = some (s₂, b₂) →
      (s₂.pending.get? id).isSome → Period id s b (actions ++ [action]) s₂ b₂

theorem Period.run (h : Period id s b during s' b') : Run s b during s' b' := by
  induction h with
  | begins _ hact _ => exact .concat .nil hact
  | goesOn _ hact _ ih => exact .concat ih hact

theorem Period.isSome (h : Period id s b during s' b') : (s'.pending.get? id).isSome := by
  cases h with
  | begins _ _ hsome => exact hsome
  | goesOn _ _ hsome => exact hsome

theorem Period.pending_eq_none (h : Period id s b during s' b') : s.pending.get? id = none := by
  induction h with
  | begins hnone _ _ => exact hnone
  | goesOn _ _ _ ih => exact ih

/-- A trade that is pending has been so since some period began. -/
theorem Run.exists_period (h : Run s b actions s' b') (hnone : s.pending.get? id = none)
    (hsome : (s'.pending.get? id).isSome) :
    ∃ before during s₁ b₁, actions = before ++ during ∧ Run s b before s₁ b₁ ∧
      Period id s₁ b₁ during s' b' := by
  induction h with
  | nil =>
    rw [hnone] at hsome
    cases hsome
  | @concat actions s₁ s₂ b₁ b₂ a hrun hact ih =>
    cases hbefore : s₁.pending.get? id with
    | none => exact ⟨actions, [a], s₁, b₁, rfl, hrun, .begins hbefore hact hsome⟩
    | some p =>
      obtain ⟨before, during, s₀, b₀, rfl, hrun₀, hperiod⟩ := ih (by rw [hbefore]; rfl)
      exact ⟨before, during ++ [a], s₀, b₀, List.append_assoc .., hrun₀, .goesOn hperiod hact hsome⟩

theorem isSome_iff_mem_order (hreach : Reachable s b) :
    (s.pending.get? id).isSome ↔ id ∈ s.order :=
  Option.isSome_iff_exists.trans (mem_order_iff hreach.lined hreach.queued).symm

theorem not_mem_order_iff (hreach : Reachable s b) :
    id ∉ s.order ↔ s.pending.get? id = none := by
  rw [← isSome_iff_mem_order hreach, Option.not_isSome_iff_eq_none]

theorem Reachable.trans (h : Reachable s b) (hrun : Run s b actions s' b') : Reachable s' b' := by
  induction hrun with
  | nil => exact h
  | concat _ hact ih => exact .act ih hact

/-! ## Taking turns -/

/-- Where a trade stands that joined a line at its end. Of those who were in line, some have had their
turn, in their order, and the others are still in front of it; whoever came later is behind it. The
steps that the writer has taken and those that it has left until the turn of the trade are as many as at
the beginning. -/
def InTurn (id : String) (s₀ : Store) (during : List Action) (s : Store) : Prop :=
  ∃ gone left more, s₀.order = gone ++ left ∧ s.started = s₀.started ++ gone ∧
    s.order = left ++ id :: more ∧
    2 * left.length + s.lag + writes during = 2 * s₀.order.length + s₀.lag

theorem inTurn_of_begins (hreach : Reachable s b) (hnone : s.pending.get? id = none)
    (hact : s.act b action = some (s₁, b₁)) (hsome : (s₁.pending.get? id).isSome)
    (halive : s₁.writer ≠ .dead) : InTurn id s [action] s₁ := by
  have hnew : id ∉ s.order := (not_mem_order_iff hreach).2 hnone
  have hin : id ∈ s₁.order := (isSome_iff_mem_order (hreach.act hact)).1 hsome
  cases lineStep_of_act hreach.lined hact halive with
  | stays horder => exact absurd (horder ▸ hin) hnew
  | grows t hschedule _ horder hstarted hlag =>
    subst hschedule
    rw [horder] at hin
    have hid : id = t.id := (List.mem_append.1 hin).elim (absurd · hnew) List.mem_singleton.1
    exact ⟨[], s.order, [], rfl, by rw [hstarted, List.append_nil], by rw [horder, hid],
      by rw [hlag]; rfl⟩
  | moves id' p _ _ horder =>
    rw [horder] at hnew
    exact absurd (List.mem_cons_of_mem _ hin) hnew

/-- The trade keeps its place as long as it is pending. -/
theorem InTurn.act (h : InTurn id s during s₁) (hreach : Reachable s₁ b₁)
    (hact : s₁.act b₁ action = some (s₂, b₂)) (hsome : (s₂.pending.get? id).isSome)
    (halive : s₂.writer ≠ .dead) : InTurn id s (during ++ [action]) s₂ := by
  obtain ⟨gone, left, more, hbefore, hstarted, horder, hsteps⟩ := h
  have hbusy : s₁.order ≠ [] := by simp [horder]
  unfold InTurn
  rw [writes_append]
  cases lineStep_of_act hreach.lined hact halive with
  | stays horder' hstarted' hlag =>
    have hlag' := hlag hbusy
    exact ⟨gone, left, more, hbefore, hstarted'.trans hstarted, horder'.trans horder, by omega⟩
  | grows t hschedule _ horder' hstarted' hlag =>
    subst hschedule
    refine ⟨gone, left, more ++ [t.id], hbefore, hstarted'.trans hstarted, by simp [horder', horder],
      ?_⟩
    rw [hlag]
    exact hsteps
  | moves id' p hwrite hready horder' _ hwriter _ hstarted' =>
    subst hwrite
    have hlag : s₁.lag = 1 := by rw [lag, hready]
    have hlag' : s₂.lag = 2 := by rw [lag, hwriter]
    have hwrites : writes [.write] = 1 := rfl
    rw [horder] at horder'
    cases left with
    | nil =>
      -- the trade itself would have been taken, and would not be in line any more
      have hin : id ∈ s₂.order := (isSome_iff_mem_order (hreach.act hact)).1 hsome
      have honce := hreach.lined.once
      rw [horder, List.nil_append] at honce
      obtain ⟨-, rfl⟩ := List.cons.inj horder'
      exact absurd hin (List.nodup_cons.1 honce).1
    | cons first left =>
      obtain ⟨rfl, hrest⟩ := List.cons.inj horder'
      refine ⟨gone ++ [first], left, more, by simp [hbefore], ?_, hrest.symm, ?_⟩
      · rw [hstarted', hstarted, List.append_assoc]
      · rw [List.length_cons] at hsteps
        omega

theorem Period.inTurn (hperiod : Period id s b during s' b') (hbefore : Run {} b₀ before s b)
    (hsteady : Steady b₀ (before ++ during)) : InTurn id s during s' := by
  induction hperiod with
  | begins hnone hact hsome =>
    exact inTurn_of_begins hbefore.reachable hnone hact hsome ((hbefore.concat hact).alive hsteady)
  | goesOn hperiod hact hsome ih =>
    rw [← List.append_assoc] at hsteady
    have hrun := hbefore.trans hperiod.run
    exact (ih hsteady.of_append).act hrun.reachable hact hsome ((hrun.concat hact).alive hsteady)

/-- The turn of a trade comes when all have had theirs that were in line before it. -/
theorem InTurn.taken (h : InTurn id s during s₁) (hreach : Reachable s₁ b₁)
    (hact : s₁.act b₁ action = some (s₂, b₂)) (hnone : s₂.pending.get? id = none)
    (halive : s₂.writer ≠ .dead) :
    action = .write ∧ s₂.started = s.started ++ s.order ++ [id] ∧
      writes (during ++ [action]) = 2 * s.order.length + s.lag ∧
      ∃ p, s₁.pending.get? id = some p ∧ s₂.writer = .writing id p b₁.holds ∧
        s₂.attempts = s₁.attempts := by
  obtain ⟨gone, left, more, hbefore, hstarted, horder, hsteps⟩ := h
  have hgone : id ∉ s₂.order := (not_mem_order_iff (hreach.act hact)).2 hnone
  cases lineStep_of_act hreach.lined hact halive with
  | stays horder' => exact absurd (by simp [horder', horder]) hgone
  | grows t _ _ horder' => exact absurd (by simp [horder', horder]) hgone
  | moves id' p hwrite hready horder' hp hwriter hattempts hstarted' =>
    subst hwrite
    rw [horder] at horder'
    cases left with
    | nil =>
      obtain ⟨rfl, -⟩ := List.cons.inj horder'
      rw [List.append_nil] at hbefore
      have hlag : s₁.lag = 1 := by rw [lag, hready]
      refine ⟨rfl, by rw [hstarted', hstarted, hbefore], ?_, p, hp, hwriter, hattempts⟩
      rw [writes_append, ← hsteps, hlag, List.length_nil]
      exact Nat.add_comm ..
    | cons first left =>
      -- somebody else was in front of the trade
      obtain ⟨-, hrest⟩ := List.cons.inj horder'
      exact absurd (by simp [← hrest]) hgone

/-! ## A writer that does not sleep -/

/-- A writer that is parked is woken as soon as anybody is in line. -/
def Attentive (s : Store) : Prop := s.writer = .parked → s.order ≠ [] → s.wake = true

theorem Attentive.act (h : Attentive s) (hlined : Lined s) (hact : s.act b action = some (s', b')) :
    Attentive s' := by
  cases action with
  | schedule t =>
    cases hact
    rcases s.schedule_cases t with ⟨failure, heq⟩ | ⟨record, -, heq⟩
    · rw [heq]
      exact h
    · rw [heq]
      rcases enqueue_cases { s with issued := s.issued + 1 } ⟨s.issued, t.id, t.sequence⟩ record with
        ⟨-, p, -, heq⟩ | ⟨-, -, heq⟩ | ⟨-, p, -, heq⟩ | ⟨-, -, heq⟩
      · rw [heq]
        exact fun _ _ => rfl
      · rw [heq]
        exact h
      · rw [heq]
        exact fun _ _ => rfl
      · rw [heq]
        exact fun _ _ => rfl
  | flush =>
    cases hact
    unfold flush
    split <;> exact h
  | close =>
    cases hact
    exact fun _ _ => rfl
  | behave b' =>
    cases hact
    exact h
  | write =>
    rcases step_cases hact with ⟨-, rfl, -⟩ | ⟨-, rfl, -⟩ | ⟨id, p, held, n, -, -, rfl⟩
    · rcases hlined.takeNext_cases b with ⟨id, order, p, -, -, heq⟩ | ⟨hempty, heq⟩
      · rw [heq]
        exact nofun
      · -- the writer parks only if nobody is in line
        rw [heq]
        exact fun _ hbusy => absurd hempty hbusy
    · exact nofun
    · cases ({ b with admitted := n }.write id p.record).2 <;> exact nofun

theorem Reachable.attentive (h : Reachable s b) : Attentive s := by
  have hboth : Lined s ∧ Attentive s := by
    apply h.induction (P := fun s => Lined s ∧ Attentive s) ⟨lined_new, fun hparked => by cases hparked⟩
    rintro s b action s' b' ⟨hlined, hattentive⟩ hact
    exact ⟨hlined.act hact, hattentive.act hlined hact⟩
  exact hboth.2

/-- As long as anybody is in line, the writer of an open store can go on, unless the backend holds its
write back. -/
theorem Reachable.goes_on (h : Reachable s b) (hopen : s.closed = false) (halive : s.writer ≠ .dead)
    (hbusy : s.order ≠ []) :
    (s.act b .write).isSome ∨ b.admitted = 0 ∧ ∃ id p, s.writer = .writing id p true := by
  refine goes_on_of_awake (fun hparked => h.attentive hparked hbusy)
    (Bool.eq_false_iff.2 fun hended => ?_) b
  rcases (ended_iff _).1 hended with hstopped | hdead
  · -- only a closed store stops its writer
    rw [(h.halted hstopped).1] at hopen
    cases hopen
  · exact halive hdead

end PeerTrade.Store
