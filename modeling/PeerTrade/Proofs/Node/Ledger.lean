import Mathlib.Data.List.Count
import PeerTrade.Node.Worker

/-!
# Ledgers of snapshots

How the snapshots of one worker fare, apart from everything else at its node: which ones it has still
to hand in, which requests are pending or being written together, and which failures it has not read
yet. Requests that were merged are answered by one write, so that a failed write is reported once for
each of them, under the sequence that was written.

The current snapshot takes over the attempt of the oldest request that was pending when it was handed
in first. From there on every failed write uses up one attempt, and it is handed in again as long as
there are attempts left (`Ledger.Fares.again_iff`, `Ledger.Fares.outcome`).
-/

namespace PeerTrade

/-- How the snapshots of a worker fare. Requests are given by their attempts, and failures by the
sequence that was written and the attempt. -/
structure Ledger where
  /-- The sequence of the trade as it is now. -/
  current : UInt64
  /-- The attempts at which the worker has still to hand its snapshot in. -/
  due : List UInt32 := []
  /-- The failure that was acted upon last. -/
  last : Option (UInt64 × UInt32) := none
  /-- The sequence that is pending, and the requests that wait for it. -/
  pending : Option (UInt64 × List UInt32) := none
  /-- The sequence that is being written, and the requests that wait for it. -/
  writing : Option (UInt64 × List UInt32) := none
  /-- The failures that the worker has not read yet, in the order in which it will. -/
  unread : List (UInt64 × UInt32) := []
  /-- The finished writes, in order, and whether they succeeded. -/
  finished : List (UInt64 × Bool) := []
  /-- The sequences that were handed in, in order. -/
  handed : List UInt64 := []

namespace Ledger

/-- How many writes of a sequence have failed. -/
def failed (v : Ledger) (sequence : UInt64) : Nat := v.finished.count (sequence, false)

/-- The attempt of the oldest request that is pending. -/
def inherited (v : Ledger) : UInt32 := (v.pending.bind (·.2.head?)).getD 0

/-- The worker reads a failure. -/
def hear (limit : UInt32) (v : Ledger) (e : UInt64 × UInt32) : Ledger :=
  if v.last.any fun l => l.1 == e.1 && e.2 ≤ l.2 then v
  else
    { v with
      last := some e
      due := if v.current ≤ e.1 && e.2 < limit then [e.2 + 1] else [] }

/-- The trade has a new sequence, and its snapshot is to be handed in. -/
def commit (v : Ledger) (sequence : UInt64) : Ledger :=
  { v with current := sequence, due := [0] }

/-- The current snapshot takes the place of the one that is pending. -/
def handIn (v : Ledger) (attempt : UInt32) (rest : List UInt32) : Ledger :=
  { v with
    due := rest
    pending := some (v.current, v.pending.elim [] (·.2) ++ [attempt])
    handed := v.handed ++ [v.current] }

/-- A snapshot begins to be written. -/
def take (v : Ledger) (p : UInt64 × List UInt32) : Ledger :=
  { v with pending := none, writing := some p }

/-- A write ends, and all who waited for it are told. -/
def finish (v : Ledger) (p : UInt64 × List UInt32) (succeeded : Bool) : Ledger :=
  { v with
    writing := none
    finished := v.finished ++ [(p.1, succeeded)]
    unread := v.unread ++ if succeeded then [] else p.2.map (p.1, ·) }

/-- What can happen to the snapshots of a worker. -/
inductive Step (limit : UInt32) (v : Ledger) : Ledger → Prop where
  | same : Step limit v v
  | commit {sequence : UInt64} : v.due = [] → v.current < sequence →
      Step limit v (v.commit sequence)
  | handIn {attempt : UInt32} {rest : List UInt32} : v.due = attempt :: rest →
      Step limit v (v.handIn attempt rest)
  | take {p : UInt64 × List UInt32} : v.pending = some p → v.writing = none →
      Step limit v (v.take p)
  | finish {p : UInt64 × List UInt32} (succeeded : Bool) : v.writing = some p →
      Step limit v (v.finish p succeeded)
  | read {e : UInt64 × UInt32} {rest : List (UInt64 × UInt32)} : v.due = [] →
      v.unread = e :: rest → Step limit v (hear limit { v with unread := rest } e)

variable {limit a a₀ : UInt32} {v v' : Ledger} {e : UInt64 × UInt32} {u : List (UInt64 × UInt32)}

/-! ## Sequences -/

/-- Every sequence that occurs is one of some kind. -/
structure Within (v : Ledger) (P : UInt64 → Prop) : Prop where
  handed : ∀ s ∈ v.handed, P s
  pending : ∀ p, v.pending = some p → P p.1
  writing : ∀ p, v.writing = some p → P p.1
  unread : ∀ e ∈ v.unread, P e.1
  last : ∀ e, v.last = some e → P e.1
  finished : ∀ e ∈ v.finished, P e.1

variable {P Q : UInt64 → Prop}

theorem Within.mono (h : v.Within P) (hPQ : ∀ s, P s → Q s) : v.Within Q where
  handed s hs := hPQ s (h.handed s hs)
  pending p hp := hPQ _ (h.pending p hp)
  writing p hp := hPQ _ (h.writing p hp)
  unread e he := hPQ _ (h.unread e he)
  last e he := hPQ _ (h.last e he)
  finished e he := hPQ _ (h.finished e he)

/-- Which sequence is the current one, and what is due, does not matter. -/
theorem Within.turn (h : v.Within P) (current : UInt64) (due : List UInt32) :
    Within { v with current, due } P :=
  ⟨h.handed, h.pending, h.writing, h.unread, h.last, h.finished⟩

/-- What is read or written was there before, and only the current sequence is handed in. -/
theorem Within.step (h : v.Within P) (hcurrent : v.due ≠ [] → P v.current)
    (hstep : v.Step limit v') : v'.Within P := by
  cases hstep with
  | same => exact h
  | commit => exact h.turn _ _
  | handIn hdue =>
    have hP : P v.current := hcurrent (by simp [hdue])
    refine ⟨fun s hs => ?_, fun p hp => ?_, h.writing, h.unread, h.last, h.finished⟩
    · rcases List.mem_append.1 hs with hs | hs
      · exact h.handed s hs
      · rwa [List.mem_singleton.1 hs]
    · cases hp
      exact hP
  | take hpending =>
    refine ⟨h.handed, nofun, fun p hp => ?_, h.unread, h.last, h.finished⟩
    cases hp
    exact h.pending _ hpending
  | finish succeeded hwriting =>
    have hP := h.writing _ hwriting
    refine ⟨h.handed, h.pending, nofun, fun e he => ?_, h.last, fun e he => ?_⟩
    · rcases List.mem_append.1 he with he | he
      · exact h.unread e he
      · cases succeeded with
        | true => cases he
        | false =>
          obtain ⟨attempt, -, rfl⟩ := List.mem_map.1 he
          exact hP
    · rcases List.mem_append.1 he with he | he
      · exact h.finished e he
      · rwa [List.mem_singleton.1 he]
  | @read e rest hdue hunread =>
    have hrest : ∀ e ∈ rest, P e.1 := fun e he => h.unread e (by simp [hunread, he])
    unfold hear
    split
    · exact ⟨h.handed, h.pending, h.writing, hrest, h.last, h.finished⟩
    · refine ⟨h.handed, h.pending, h.writing, hrest, fun l hl => ?_, h.finished⟩
      cases hl
      exact h.unread _ (by simp [hunread])

/-! ## Before the current snapshot is handed in -/

/-- The current snapshot has not been handed in. What is pending is older, and only the oldest of
the requests for it can be a repeated one. -/
structure Unhanded (limit : UInt32) (v : Ledger) : Prop where
  older : v.Within (· < v.current)
  due : v.due = [] ∨ v.due = [0]
  pending : ∀ p, v.pending = some p →
    ∃ attempt n, p.2 = attempt :: List.replicate n 0 ∧ attempt ≤ limit

/-! ## After that -/

/-- Nothing is due, pending or being written. -/
structure Resting (v : Ledger) : Prop where
  due : v.due = []
  pending : v.pending = none
  writing : v.writing = none

/-- The current snapshot is on its way at some attempt. -/
inductive Carries (v : Ledger) (a : UInt32) : Prop where
  | due : v.due = [a] → v.pending = none → v.writing = none → Carries v a
  | pending {n : Nat} : v.due = [] → v.pending = some (v.current, a :: List.replicate n 0) →
      (∀ p, v.writing = some p → p.1 < v.current ∧ ∀ b, v.last ≠ some (v.current, b)) → Carries v a
  | writing {n : Nat} : v.due = [] → v.pending = none →
      v.writing = some (v.current, a :: List.replicate n 0) → Carries v a

/-- Some failures are old news, and do not keep the worker from acting upon that of the current
snapshot at some attempt: they are about older snapshots, or tell once more of a write whose failure
has been acted upon at an earlier attempt. -/
def Stale (v : Ledger) (a : UInt32) (u : List (UInt64 × UInt32)) : Prop :=
  ((∀ b, v.last ≠ some (v.current, b)) ∧ ∀ e ∈ u, e.1 < v.current) ∨
    (∃ b < a, v.last = some (v.current, b)) ∧ ∀ e ∈ u, e = (v.current, 0)

/-- How the current snapshot fares once it has been handed in, having taken over the attempt `a₀`. -/
inductive Fares (limit a₀ : UInt32) (v : Ledger) : Prop where
  /-- It is on its way. -/
  | carried {a : UInt32} : v.Carries a → v.Stale a v.unread → a ≤ limit →
      a.toNat = a₀.toNat + v.failed v.current → Fares limit a₀ v
  /-- It was not written, and the worker has yet to read that. -/
  | reported {a : UInt32} {u : List (UInt64 × UInt32)} {n : Nat} : v.Resting →
      v.unread = u ++ (v.current, a) :: List.replicate n (v.current, 0) → v.Stale a u →
      a ≤ limit → a.toNat + 1 = a₀.toNat + v.failed v.current → Fares limit a₀ v
  /-- It was not written, and there are no attempts left. -/
  | givenUp {a : UInt32} : v.Resting → v.last = some (v.current, a) →
      (∀ e ∈ v.unread, e = (v.current, 0)) →
      limit.toNat + 1 = a₀.toNat + v.failed v.current → Fares limit a₀ v
  | written {a : UInt32} : v.Resting → v.Stale a v.unread →
      v.finished.getLast? = some (v.current, true) →
      a₀.toNat + v.failed v.current ≤ limit.toNat → Fares limit a₀ v

/-- The current snapshot has been handed in, and nothing is newer. -/
structure Handed (limit a₀ : UInt32) (v : Ledger) : Prop where
  within : v.Within (· ≤ v.current)
  handed : v.current ∈ v.handed
  fares : v.Fares limit a₀

/-- As long as the current snapshot has not been handed in, everything else is old news. -/
theorem Unhanded.stale (h : v.Unhanded limit) (a : UInt32) : v.Stale a v.unread :=
  .inl ⟨fun _ hlast => UInt64.lt_irrefl _ (h.older.last _ hlast), h.older.unread⟩

theorem Unhanded.eq_of_due (h : v.Unhanded limit) {attempt : UInt32} {rest : List UInt32}
    (hdue : v.due = attempt :: rest) : attempt = 0 ∧ rest = [] := by
  rcases h.due with hnone | hone
  · rw [hnone] at hdue
    cases hdue
  · rw [hone] at hdue
    cases hdue
    exact ⟨rfl, rfl⟩

/-! ## Reading failures -/

theorem hear_of_heard {l : UInt64 × UInt32} (hlast : v.last = some l) (hsequence : l.1 = e.1)
    (hattempt : e.2 ≤ l.2) : hear limit v e = v := by
  simp [hear, hlast, hsequence, hattempt]

/-- Old news change nothing but what was acted upon last. -/
theorem Stale.read (h : v.Stale a (e :: u)) (limit : UInt32) (hdue : v.due = [])
    (rest : List (UInt64 × UInt32)) :
    ∃ last, hear limit { v with unread := rest } e = { v with unread := rest, last } ∧
      Stale { v with unread := rest, last } a u ∧
        ((∀ b, v.last ≠ some (v.current, b)) → ∀ b, last ≠ some (v.current, b)) := by
  rcases h with ⟨hlast, hall⟩ | ⟨⟨b, hb, hlast⟩, hall⟩
  · have hlt : e.1 < v.current := hall e List.mem_cons_self
    have hrest : ∀ e ∈ u, e.1 < v.current := fun e he => hall e (List.mem_cons_of_mem _ he)
    unfold hear
    split
    · exact ⟨v.last, rfl, .inl ⟨hlast, hrest⟩, fun h => h⟩
    · -- the worker has committed since, so that there is a newer snapshot
      have hnew : ∀ b, some e ≠ some (v.current, b) := by
        rintro b heq
        rw [Option.some.inj heq] at hlt
        exact UInt64.lt_irrefl _ hlt
      refine ⟨some e, ?_, .inl ⟨hnew, hrest⟩, fun _ => hnew⟩
      have hnewer : ¬v.current ≤ e.1 := UInt64.not_le.2 hlt
      simp [hnewer, hdue]
  · have he : e = (v.current, 0) := hall e List.mem_cons_self
    have hzero : (0 : UInt32) ≤ b := UInt32.zero_le
    refine ⟨v.last, ?_, .inr ⟨⟨b, hb, hlast⟩, fun e he => hall e (List.mem_cons_of_mem _ he)⟩,
      fun h => absurd hlast (h b)⟩
    exact hear_of_heard (l := (v.current, b)) hlast (by rw [he]) (by rw [he]; exact hzero)

theorem Stale.not_heard (h : v.Stale a u) :
    (v.last.any fun l => l.1 == v.current && a ≤ l.2) = false := by
  rcases h with ⟨hlast, -⟩ | ⟨⟨b, hb, hlast⟩, -⟩
  · rw [Option.any_eq_false]
    rintro ⟨s, b⟩ hl
    rw [Bool.and_eq_false_iff]
    refine .inl (beq_eq_false_iff_ne.2 ?_)
    rintro rfl
    exact hlast b hl
  · have hnot : ¬a ≤ b := UInt32.not_le.2 hb
    simp [hlast, hnot]

theorem toNat_succ_of_lt (h : a < limit) : (a + 1).toNat = a.toNat + 1 := by
  have hlt := UInt32.lt_iff_toNat_lt.1 h
  have hlimit := limit.toNat_lt
  rw [UInt32.toNat_add]
  exact Nat.mod_eq_of_lt (by simp; omega)

/-- The failure of the current snapshot is read: it is handed in again if there are attempts left. -/
theorem Stale.retry {n : Nat} (h : v.Stale a []) (hrest : v.Resting) (hle : a ≤ limit)
    (hcount : a.toNat + 1 = a₀.toNat + v.failed v.current) :
    Fares limit a₀
      (hear limit { v with unread := List.replicate n (v.current, 0) } (v.current, a)) := by
  have hzeros : ∀ e ∈ List.replicate n (v.current, (0 : UInt32)), e = (v.current, 0) :=
    fun e he => (List.mem_replicate.1 he).2
  unfold hear
  rw [if_neg (by rw [h.not_heard]; decide)]
  -- an attempt does not wrap around below the limit
  by_cases hlt : a < limit
  · rw [if_pos (by simp [hlt])]
    have hsucc := toNat_succ_of_lt hlt
    have hless : a < a + 1 := UInt32.lt_iff_toNat_lt.2 (by omega)
    refine .carried (.due rfl hrest.pending hrest.writing) (.inr ⟨⟨a, hless, rfl⟩, hzeros⟩) ?_ ?_
    · exact UInt32.le_iff_toNat_le.2 (by rw [hsucc]; exact UInt32.lt_iff_toNat_lt.1 hlt)
    · exact hsucc.trans hcount
  · rw [if_neg (by simp [hlt])]
    have heq : a = limit := UInt32.le_antisymm hle (UInt32.not_lt.1 hlt)
    exact .givenUp ⟨rfl, hrest.pending, hrest.writing⟩ rfl hzeros (heq ▸ hcount)

/-! ## Steps -/

theorem failed_finish (v : Ledger) (p : UInt64 × List UInt32) (succeeded : Bool)
    (sequence : UInt64) : (v.finish p succeeded).failed sequence =
      v.failed sequence + if p.1 = sequence ∧ succeeded = false then 1 else 0 := by
  show (v.finished ++ [(p.1, succeeded)]).count (sequence, false) = _
  rw [List.count_append, List.count_singleton, failed]
  simp

theorem failed_eq_zero (h : ∀ e ∈ v.finished, e.1 ≠ v.current) : v.failed v.current = 0 :=
  List.count_eq_zero.2 fun hmem => h _ hmem rfl

/-- The first time that the current snapshot is handed in, it takes over the attempt of the oldest
request that is pending. -/
theorem Unhanded.handIn (h : v.Unhanded limit) {attempt : UInt32} {rest : List UInt32}
    (hdue : v.due = attempt :: rest) :
    Handed limit v.inherited (v.handIn attempt rest) := by
  have hstep : v.Step limit (v.handIn attempt rest) := .handIn hdue
  have hwithin := (h.older.mono fun s => UInt64.le_of_lt).step (fun _ => UInt64.le_refl _) hstep
  refine ⟨hwithin, List.mem_append_right _ (List.mem_singleton.2 rfl), ?_⟩
  obtain ⟨rfl, rfl⟩ := h.eq_of_due hdue
  have hlast : ∀ b, v.last ≠ some (v.current, b) := fun b hb =>
    UInt64.lt_irrefl _ (h.older.last _ hb)
  -- nothing has been counted against the current snapshot so far
  have hnone : v.failed v.current = 0 := failed_eq_zero fun e he heq => by
    have hlt := h.older.finished e he
    rw [heq] at hlt
    exact UInt64.lt_irrefl _ hlt
  have hwriting : ∀ p, v.writing = some p →
      p.1 < v.current ∧ ∀ b, v.last ≠ some (v.current, b) :=
    fun p hp => ⟨h.older.writing p hp, hlast⟩
  cases hpending : v.pending with
  | none =>
    refine .carried (.pending (n := 0) rfl ?_ hwriting) (h.stale 0) UInt32.zero_le ?_
    · simp [Ledger.handIn, hpending]
    · show (0 : UInt32).toNat = v.inherited.toNat + v.failed v.current
      simp [hnone, inherited, hpending]
  | some p =>
    obtain ⟨b, n, hp, hle⟩ := h.pending p hpending
    refine .carried (.pending (n := n + 1) rfl ?_ hwriting) (h.stale b) hle ?_
    · simp [Ledger.handIn, hpending, hp, List.replicate_succ']
    · show b.toNat = v.inherited.toNat + v.failed v.current
      simp [hnone, inherited, hpending, hp]

/-- As long as anything is left to be done, the current snapshot is on its way. -/
theorem Fares.carries (h : v.Fares limit a₀) (hbusy : ¬v.Resting) :
    ∃ a, v.Carries a ∧ v.Stale a v.unread ∧ a ≤ limit ∧
      a.toNat = a₀.toNat + v.failed v.current := by
  cases h with
  | carried hcarries hstale hle hcount => exact ⟨_, hcarries, hstale, hle, hcount⟩
  | reported hrest => exact absurd hrest hbusy
  | givenUp hrest => exact absurd hrest hbusy
  | written hrest => exact absurd hrest hbusy

/-- A commit leaves the snapshot before it to what is pending or being written. -/
theorem Handed.commit (h : v.Handed limit a₀) (hdue : v.due = []) {sequence : UInt64}
    (hlt : v.current < sequence) : Unhanded limit (v.commit sequence) := by
  have hwithin := h.within.mono fun s hs => UInt64.lt_of_le_of_lt hs hlt
  refine ⟨hwithin.turn _ _, .inr rfl, fun p hp => ?_⟩
  change v.pending = some p at hp
  obtain ⟨a, hcarries, -, hle, -⟩ := h.fares.carries fun hrest => by simp [hrest.pending] at hp
  cases hcarries with
  | due hsome => simp [hdue] at hsome
  | @pending n _ hpending =>
    rw [hpending] at hp
    cases hp
    exact ⟨a, n, rfl, hle⟩
  | writing _ hpending => simp [hpending] at hp

theorem Unhanded.step (h : v.Unhanded limit) (hstep : v.Step limit v') :
    v'.Unhanded limit ∨ (v'.current = v.current ∧ v'.Handed limit v.inherited) := by
  have hold (hdue : v.due = []) : v'.Within (· < v.current) :=
    h.older.step (fun hsome => absurd hdue hsome) hstep
  cases hstep with
  | same => exact .inl h
  | commit hdue hlt =>
    have hwithin := h.older.mono fun s hs => UInt64.lt_trans hs hlt
    exact .inl ⟨hwithin.turn _ _, .inr rfl, h.pending⟩
  | handIn hdue => exact .inr ⟨rfl, h.handIn hdue⟩
  | take hpending hwriting =>
    refine .inl ⟨⟨h.older.handed, nofun, fun p hp => ?_, h.older.unread, h.older.last,
      h.older.finished⟩, h.due, nofun⟩
    cases hp
    exact h.older.pending _ hpending
  | finish succeeded hwriting =>
    -- a write that ends does not concern what is due
    have hfinish : Step limit { v with due := [] } (finish { v with due := [] } _ succeeded) :=
      .finish succeeded hwriting
    have hwithin := (h.older.turn v.current []).step (fun hsome => absurd rfl hsome) hfinish
    exact .inl ⟨hwithin.turn v.current v.due, h.due, h.pending⟩
  | @read e rest hdue hunread =>
    have hstale : v.Stale 0 (e :: rest) := hunread ▸ h.stale 0
    obtain ⟨last, heq, -⟩ := hstale.read limit hdue rest
    have hwithin := hold hdue
    rw [heq] at hwithin ⊢
    exact .inl ⟨hwithin, .inl hdue, h.pending⟩

/-- The write of an older snapshot ends while the current one is pending, or that of the current one
does. -/
theorem Fares.finish (h : v.Fares limit a₀) {p : UInt64 × List UInt32} (succeeded : Bool)
    (hwriting : v.writing = some p) : Fares limit a₀ (v.finish p succeeded) := by
  obtain ⟨a, hcarries, hstale, hle, hcount⟩ :=
    h.carries fun hrest => by simp [hrest.writing] at hwriting
  cases hcarries with
  | due _ _ hidle => simp [hidle] at hwriting
  | pending hdue hpending hother =>
    -- an older snapshot is being written, so that its failure is old news
    obtain ⟨hlt, hlast⟩ := hother _ hwriting
    have hne : p.1 ≠ v.current := UInt64.ne_of_lt hlt
    refine .carried (.pending hdue hpending nofun) (.inl ⟨hlast, fun e he => ?_⟩) hle ?_
    · rcases List.mem_append.1 he with he | he
      · rcases hstale with ⟨-, hall⟩ | ⟨⟨b, -, hb⟩, -⟩
        · exact hall e he
        · exact absurd hb (hlast b)
      · cases succeeded with
        | true => cases he
        | false =>
          obtain ⟨attempt, -, rfl⟩ := List.mem_map.1 he
          exact hlt
    · show a.toNat = a₀.toNat + (v.finish p succeeded).failed v.current
      simp [failed_finish, hne, hcount]
  | @writing n hdue hpending hcurrent =>
    rw [hcurrent] at hwriting
    cases hwriting
    have hfailed := v.failed_finish (v.current, a :: List.replicate n 0) succeeded v.current
    cases succeeded with
    | true =>
      refine .written (a := a) ⟨hdue, hpending, rfl⟩ ?_ (List.getLast?_concat ..) ?_
      · show v.Stale a (v.unread ++ [])
        rwa [List.append_nil]
      · show a₀.toNat + (v.finish _ true).failed v.current ≤ limit.toNat
        simpa [hfailed, hcount] using UInt32.le_iff_toNat_le.1 hle
    | false =>
      refine .reported (a := a) (u := v.unread) (n := n) ⟨hdue, hpending, rfl⟩ ?_ hstale hle ?_
      · simp [Ledger.finish]
      · show a.toNat + 1 = a₀.toNat + (v.finish _ false).failed v.current
        simp [hfailed, hcount, Nat.add_assoc]

/-- Nothing is acted upon but the failure of the current snapshot. -/
theorem Fares.read (h : v.Fares limit a₀) {rest : List (UInt64 × UInt32)} (hdue : v.due = [])
    (hunread : v.unread = e :: rest) : Fares limit a₀ (hear limit { v with unread := rest } e) := by
  cases h with
  | @carried a hcarries hstale hle hcount =>
    rw [hunread] at hstale
    obtain ⟨last, heq, hstale', hlast⟩ := hstale.read limit hdue rest
    rw [heq]
    refine .carried ?_ hstale' hle hcount
    cases hcarries with
    | due hsome => exact .due hsome ‹_› ‹_›
    | pending _ hpending hother =>
      refine .pending hdue hpending fun p hp => ?_
      obtain ⟨hlt, hnot⟩ := hother p hp
      exact ⟨hlt, hlast hnot⟩
    | writing _ hpending hwriting => exact .writing hdue hpending hwriting
  | @reported a u n hrest hsplit hstale hle hcount =>
    rw [hunread] at hsplit
    cases u with
    | nil =>
      -- the next failure is the one to act upon
      obtain ⟨rfl, rfl⟩ := List.cons.inj hsplit
      exact hstale.retry hrest hle hcount
    | cons e' u =>
      -- there is still old news before it
      obtain ⟨rfl, rfl⟩ := List.cons.inj hsplit
      let rest := u ++ (v.current, a) :: List.replicate n (v.current, 0)
      obtain ⟨last, heq, hstale', -⟩ := hstale.read limit hdue rest
      show Fares limit a₀ (hear limit { v with unread := rest } e)
      rw [heq]
      exact .reported ⟨hdue, hrest.pending, hrest.writing⟩ rfl hstale' hle hcount
  | @givenUp a hrest hlast hall hcount =>
    have he : e = (v.current, 0) := hall e (by simp [hunread])
    have hsame : hear limit { v with unread := rest } e = { v with unread := rest } :=
      hear_of_heard (l := (v.current, a)) hlast (by rw [he]) (by rw [he]; exact UInt32.zero_le)
    rw [hsame]
    exact .givenUp ⟨hdue, hrest.pending, hrest.writing⟩ hlast
      (fun e he => hall e (by simp [hunread, he])) hcount
  | @written a hrest hstale hlast hcount =>
    rw [hunread] at hstale
    obtain ⟨last, heq, hstale', -⟩ := hstale.read limit hdue rest
    rw [heq]
    exact .written ⟨hdue, hrest.pending, hrest.writing⟩ hstale' hlast hcount

theorem Fares.handIn (h : v.Fares limit a₀) {attempt : UInt32} {rest : List UInt32}
    (hdue : v.due = attempt :: rest) : Fares limit a₀ (v.handIn attempt rest) := by
  obtain ⟨a, hcarries, hstale, hle, hcount⟩ := h.carries fun hrest => by simp [hrest.due] at hdue
  cases hcarries with
  | due hone hpending hwriting =>
    rw [hone] at hdue
    cases hdue
    refine .carried (.pending (n := 0) rfl ?_ fun p hp => ?_) hstale hle hcount
    · simp [Ledger.handIn, hpending]
    · simp [Ledger.handIn, hwriting] at hp
  | pending hidle => simp [hidle] at hdue
  | writing hidle => simp [hidle] at hdue

theorem Fares.take (h : v.Fares limit a₀) {p : UInt64 × List UInt32}
    (hpending : v.pending = some p) : Fares limit a₀ (v.take p) := by
  obtain ⟨a, hcarries, hstale, hle, hcount⟩ :=
    h.carries fun hrest => by simp [hrest.pending] at hpending
  cases hcarries with
  | due _ hidle => simp [hidle] at hpending
  | pending hdue hcurrent =>
    rw [hcurrent] at hpending
    cases hpending
    exact .carried (.writing hdue rfl rfl) hstale hle hcount
  | writing _ hidle => simp [hidle] at hpending

/-- The current snapshot uses up its attempts one by one, until there is a newer one. -/
theorem Handed.step (h : v.Handed limit a₀) (hstep : v.Step limit v') :
    (v'.current = v.current ∧ v'.Handed limit a₀) ∨
      (v.current < v'.current ∧ v'.Unhanded limit) := by
  have hwithin : v'.Within (· ≤ v.current) := h.within.step (fun _ => UInt64.le_refl _) hstep
  cases hstep with
  | same => exact .inl ⟨rfl, h⟩
  | commit hdue hlt => exact .inr ⟨hlt, h.commit hdue hlt⟩
  | handIn hdue =>
    exact .inl ⟨rfl, hwithin, List.mem_append_left _ h.handed, h.fares.handIn hdue⟩
  | take hpending => exact .inl ⟨rfl, hwithin, h.handed, h.fares.take hpending⟩
  | finish succeeded hwriting =>
    exact .inl ⟨rfl, hwithin, h.handed, h.fares.finish succeeded hwriting⟩
  | @read e rest hdue hunread =>
    have hsame : (hear limit { v with unread := rest } e).current = v.current ∧
        (hear limit { v with unread := rest } e).handed = v.handed := by
      unfold hear
      split <;> exact ⟨rfl, rfl⟩
    refine .inl ⟨hsame.1, ?_, ?_, h.fares.read hdue hunread⟩
    · rwa [hsame.1]
    · rw [hsame.1, hsame.2]
      exact h.handed

/-! ## What is left in the end -/

theorem Stale.heard (h : v.Stale a ((v.current, a') :: u)) :
    (v.last.any fun l => l.1 == v.current && a' ≤ l.2) = true := by
  rcases h with ⟨-, hall⟩ | ⟨⟨b, -, hlast⟩, hall⟩
  · exact absurd (hall _ List.mem_cons_self) (UInt64.lt_irrefl _)
  · have hzero : a' = 0 := congrArg Prod.snd (hall _ List.mem_cons_self)
    simp [hlast, hzero]

/-- A failure of the current snapshot that is news has the snapshot handed in again if and only if
there are attempts left. -/
theorem Fares.again_iff (h : v.Fares limit a₀) {rest : List (UInt64 × UInt32)}
    (hunread : v.unread = (v.current, a) :: rest)
    (hnews : (v.last.any fun l => l.1 == v.current && a ≤ l.2) = false) :
    a < limit ↔ v.failed v.current + a₀.toNat ≤ limit.toNat := by
  have hold {b : UInt32} {u : List (UInt64 × UInt32)} (hstale : v.Stale b ((v.current, a) :: u)) :
      False := by
    rw [hstale.heard] at hnews
    cases hnews
  cases h with
  | carried _ hstale => exact (hold (hunread ▸ hstale)).elim
  | @reported a' u n hrest hsplit hstale hle hcount =>
    rw [hunread] at hsplit
    cases u with
    | nil =>
      obtain ⟨hhead, -⟩ := List.cons.inj hsplit
      cases hhead
      rw [UInt32.lt_iff_toNat_lt]
      omega
    | cons e u =>
      obtain ⟨rfl, -⟩ := List.cons.inj hsplit
      exact (hold hstale).elim
  | @givenUp b _ hlast hall =>
    have hzero : a = 0 := congrArg Prod.snd (hall _ (hunread ▸ List.mem_cons_self))
    simp [hlast, hzero] at hnews
  | written _ hstale => exact (hold (hunread ▸ hstale)).elim

/-- The current snapshot is on its way, or it was not written and the worker has yet to read that. -/
inductive Underway (v : Ledger) : Prop where
  | due {a : UInt32} : a ∈ v.due → Underway v
  | pending {p : UInt64 × List UInt32} : v.pending = some p → p.1 = v.current → Underway v
  | writing {p : UInt64 × List UInt32} : v.writing = some p → p.1 = v.current → Underway v
  | unread {a : UInt32} : (v.current, a) ∈ v.unread →
      (v.last.any fun l => l.1 == v.current && a ≤ l.2) = false → Underway v

theorem Carries.underway (h : v.Carries a) : v.Underway := by
  cases h with
  | due hdue => exact .due (a := a) (by simp [hdue])
  | pending _ hpending => exact .pending hpending rfl
  | writing _ _ hwriting => exact .writing hwriting rfl

/-- The current snapshot is underway until it has been written, or all of its attempts have failed. -/
theorem Fares.outcome (h : v.Fares limit a₀) :
    v.failed v.current + a₀.toNat ≤ limit.toNat + 1 ∧
      (v.Underway ∨ (v.finished.getLast? = some (v.current, true) ∧
        v.failed v.current + a₀.toNat ≤ limit.toNat) ∨
          v.failed v.current + a₀.toNat = limit.toNat + 1) := by
  cases h with
  | carried hcarries _ hle hcount =>
    have hle := UInt32.le_iff_toNat_le.1 hle
    exact ⟨by omega, .inl hcarries.underway⟩
  | reported _ hsplit hstale hle hcount =>
    have hle := UInt32.le_iff_toNat_le.1 hle
    exact ⟨by omega, .inl (.unread (by simp [hsplit]) hstale.not_heard)⟩
  | givenUp _ _ _ hcount => exact ⟨by omega, .inr (.inr (by omega))⟩
  | written _ _ hlast hcount => exact ⟨by omega, .inr (.inl ⟨hlast, by omega⟩)⟩

/-! ## In the beginning -/

theorem unhanded_new (limit : UInt32) (sequence : UInt64) {due : List UInt32}
    (hdue : due = [] ∨ due = [0]) : Unhanded limit { current := sequence, due } :=
  ⟨⟨nofun, nofun, nofun, nofun, nofun, nofun⟩, hdue, nofun⟩

end Ledger

end PeerTrade
