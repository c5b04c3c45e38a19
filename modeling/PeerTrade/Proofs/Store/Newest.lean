import Mathlib.Data.List.Induction
import PeerTrade.Proofs.Store.Durability
import PeerTrade.Proofs.Store.Flush

/-!
# The newest request of a trade

The newest request of a trade is the last one that was not older than any before it. The store
`Holds` its snapshot: it is pending, or being written, or was the last to be written, and in the
last case it stands in the backend unless that write failed. At a quiet moment only the last case
is left (`Store.Holds.settled_of_quiet`), and it lasts until something as new is handed in
(`Store.Run.settled`).
-/

namespace PeerTrade.Store

/-! ## Newest requests -/

/-- A request that is not older than the earlier ones of its trade. -/
def Leads (earlier : List Trade) (t : Trade) : Prop :=
  ∀ e ∈ earlier, e.id = t.id → e.sequence ≤ t.sequence

/-- The last request of a trade that was not older than the ones before it. -/
def Newest (requests : List Trade) (t : Trade) : Prop :=
  ∃ earlier later, requests = earlier ++ t :: later ∧ Leads earlier t ∧
    ∀ between r after, later = between ++ r :: after → r.id = t.id →
      ¬Leads (earlier ++ t :: between) r

/-- The newer of the newest request so far and a further one. -/
def newer (id : String) (best : Option Trade) (r : Trade) : Option Trade :=
  if r.id = id ∧ best.all (·.sequence ≤ r.sequence) then some r else best

/-- The newest request of a trade, found by going through the requests. -/
def newest? (requests : List Trade) (id : String) : Option Trade :=
  requests.foldl (newer id) none

variable {rs : List Trade} {r t : Trade} {id : String}

theorem newest?_concat (rs : List Trade) (r : Trade) (id : String) :
    newest? (rs ++ [r]) id = newer id (newest? rs id) r := by
  simp [newest?]

theorem newest?_concat_of_ne (hne : r.id ≠ id) : newest? (rs ++ [r]) id = newest? rs id := by
  simp [newest?_concat, newer, hne]

theorem newest?_concat_self (hnewest : ∀ t, newest? rs r.id = some t → t.sequence ≤ r.sequence) :
    newest? (rs ++ [r]) r.id = some r := by
  have hall : (newest? rs r.id).all (·.sequence ≤ r.sequence) = true := by
    cases hbest : newest? rs r.id with
    | none => rfl
    | some t => simpa using hnewest t hbest
  rw [newest?_concat, newer, if_pos ⟨rfl, hall⟩]

theorem newest?_concat_of_lt (ht : newest? rs id = some t) (hlt : r.sequence < t.sequence) :
    newest? (rs ++ [r]) id = some t := by
  have hnot : ¬t.sequence ≤ r.sequence := UInt64.not_le.2 hlt
  rw [newest?_concat, ht, newer, if_neg]
  simp [hnot]

/-- The newest request so far is at least as new as all of its trade, and the last such one. -/
theorem newest?_spec (rs : List Trade) (id : String) :
    (newest? rs id = none ∧ ∀ r ∈ rs, r.id ≠ id) ∨
    ∃ t earlier later, newest? rs id = some t ∧ t.id = id ∧ rs = earlier ++ t :: later ∧
      Leads earlier t ∧ ∀ r ∈ later, r.id = id → r.sequence < t.sequence := by
  induction rs using List.reverseRecOn with
  | nil => exact .inl ⟨rfl, fun r hr => absurd hr List.not_mem_nil⟩
  | append_singleton rs r ih =>
    by_cases hid : r.id = id
    · subst hid
      rcases ih with ⟨hnone, hno⟩ | ⟨t, earlier, later, hbest, hid, rfl, hleads, hlater⟩
      · -- the first request of a trade
        refine .inr ⟨r, rs, [], ?_, rfl, rfl, ?_, fun r hr => absurd hr List.not_mem_nil⟩
        · refine newest?_concat_self fun t ht => ?_
          rw [hnone] at ht
          cases ht
        · intro e he heid
          exact absurd heid (hno e he)
      · by_cases hlt : r.sequence < t.sequence
        · refine .inr ⟨t, earlier, later ++ [r], newest?_concat_of_lt hbest hlt, hid, by simp,
            hleads, fun r' hr' hid' => ?_⟩
          rcases List.mem_append.1 hr' with hr' | hr'
          · exact hlater r' hr' hid'
          · rw [List.mem_singleton.1 hr']
            exact hlt
        · have hle : t.sequence ≤ r.sequence := UInt64.not_lt.1 hlt
          refine .inr ⟨r, earlier ++ t :: later, [], ?_, rfl, rfl, ?_,
            fun r hr => absurd hr List.not_mem_nil⟩
          · refine newest?_concat_self fun t' ht' => ?_
            rw [hbest] at ht'
            cases ht'
            exact hle
          · -- nothing so far was newer than `t`
            intro e he heid
            refine UInt64.le_trans ?_ hle
            rcases List.mem_append.1 he with he | he
            · exact hleads e he (heid.trans hid.symm)
            · rcases List.mem_cons.1 he with rfl | he
              · exact UInt64.le_refl _
              · exact UInt64.le_of_lt (hlater e he heid)
    · rcases ih with ⟨hnone, hno⟩ | ⟨t, earlier, later, hbest, ht, rfl, hleads, hlater⟩
      · refine .inl ⟨(newest?_concat_of_ne hid).trans hnone, fun r' hr' => ?_⟩
        rcases List.mem_append.1 hr' with hr' | hr'
        · exact hno r' hr'
        · rw [List.mem_singleton.1 hr']
          exact hid
      · refine .inr ⟨t, earlier, later ++ [r], (newest?_concat_of_ne hid).trans hbest, ht,
          by simp, hleads, fun r' hr' hid' => ?_⟩
        rcases List.mem_append.1 hr' with hr' | hr'
        · exact hlater r' hr' hid'
        · rw [List.mem_singleton.1 hr'] at hid'
          exact absurd hid' hid

theorem newest_of_newest?_eq_some (h : newest? rs id = some t) : t.id = id ∧ Newest rs t := by
  rcases newest?_spec rs id with ⟨hnone, -⟩ | ⟨t', earlier, later, hbest, hid, hrs, hleads, hlater⟩
  · rw [hnone] at h
    cases h
  · rw [hbest] at h
    cases h
    refine ⟨hid, earlier, later, hrs, hleads, fun between r after hsplit hrid hr => ?_⟩
    -- a later request that leads would be as new as this one
    have hle : t.sequence ≤ r.sequence := hr t (by simp) hrid.symm
    have hlt : r.sequence < t.sequence := hlater r (by simp [hsplit]) (hrid.trans hid)
    exact UInt64.not_le.2 hlt hle

/-- A request is the newest one if it is as new as all before it and newer than all behind it. -/
theorem newest?_eq_some (earlier later : List Trade) (hleads : Leads earlier t)
    (hlater : ∀ r ∈ later, r.id = t.id → r.sequence < t.sequence) :
    newest? (earlier ++ t :: later) t.id = some t := by
  induction later using List.reverseRecOn with
  | nil =>
    refine newest?_concat_self fun t' ht' => ?_
    obtain ⟨hid, before, after, rfl, -⟩ := newest_of_newest?_eq_some ht'
    exact hleads t' (by simp) hid
  | append_singleton later r ih =>
    have hbefore := ih fun r hr => hlater r (List.mem_append_left _ hr)
    rw [← List.cons_append, ← List.append_assoc]
    by_cases hid : r.id = t.id
    · exact newest?_concat_of_lt hbefore (hlater r (by simp) hid)
    · exact (newest?_concat_of_ne hid).trans hbefore

theorem exists_newest? (hr : r ∈ rs) : ∃ t, newest? rs r.id = some t := by
  rcases newest?_spec rs r.id with ⟨-, hno⟩ | ⟨t, -, -, hbest, -⟩
  · exact absurd rfl (hno r hr)
  · exact ⟨t, hbest⟩

/-! ## Holding a snapshot -/

variable {s s' : Store} {b b' : Backend} {action : Action} {actions : List Action} {record : Bytes}

/-- The newest snapshot of a trade has a given record: it is pending, or if nothing is, it is being
written, or else it was the last to be written and stands in the backend if that succeeded. -/
structure Holds (id : String) (record : Bytes) (s : Store) (b : Backend) : Prop where
  pending : ∀ p, s.pending.get? id = some p → p.record = record
  writing : ∀ p held, s.writer = .writing id p held → s.pending.get? id = none →
    p.record = record
  settled : s.pending.get? id = none → (∀ p held, s.writer ≠ .writing id p held) →
    s.writer ≠ .dead →
      ∃ a, s.lastAttempt? id = some a ∧ (a.succeeded = true → b.records.get? id = some record)

/-- Nothing of a trade is pending or being written, and a given record of it is in the backend. -/
structure Settled (id : String) (record : Bytes) (s : Store) (b : Backend) : Prop where
  pending : s.pending.get? id = none
  writing : ∀ p held, s.writer ≠ .writing id p held
  record : b.records.get? id = some record

theorem Holds.settled_of_quiet (h : Holds id record s b) (hquiet : Quiet s)
    (hsucceeded : ∀ a ∈ s.attempts, a.tradeId = id → a.succeeded = true) :
    Settled id record s b := by
  refine ⟨hquiet.pending id, hquiet.writing id, ?_⟩
  obtain ⟨a, hlast, hrecord⟩ := h.settled (hquiet.pending id) (hquiet.writing id) hquiet.alive
  obtain ⟨hmem, hid⟩ := List.mem_filter.1 (List.mem_of_getLast? hlast)
  exact hrecord (hsucceeded a hmem (by simpa using hid))

theorem Holds.congr (h : Holds id record s b)
    (hpending : s'.pending.get? id = s.pending.get? id) (hwriter : s'.writer = s.writer)
    (hattempts : s'.attempts = s.attempts) (hrecords : b'.records = b.records) :
    Holds id record s' b' := by
  constructor
  · rw [hpending]
    exact h.pending
  · rw [hpending, hwriter]
    exact h.writing
  · simp only [lastAttempt?]
    rw [hpending, hwriter, hattempts, hrecords]
    exact h.settled

theorem holds_of_pending {p : Pending} (hp : s.pending.get? id = some p)
    (hrecord : p.record = record) : Holds id record s b := by
  constructor
  · intro p' hp'
    rw [hp] at hp'
    cases hp'
    exact hrecord
  · intro p' held hwriter hnone
    rw [hp] at hnone
    cases hnone
  · intro hnone
    rw [hp] at hnone
    cases hnone

/-! ## Handing in a snapshot -/

/-- A request that is not superseded becomes the one whose snapshot the store holds. -/
theorem holds_of_enqueue (ticket : Ticket) (b : Backend) (record : Bytes)
    (hnewest : ¬s.Superseded ticket.tradeId ticket.sequence) :
    Holds ticket.tradeId record (s.enqueue ticket record) b ∧
      (s.enqueue ticket record).highest =
        s.highest.insert ticket.tradeId ticket.sequence := by
  rcases s.enqueue_cases ticket record with ⟨hold, -⟩ | ⟨hold, -⟩ | ⟨-, p, -, heq⟩ | ⟨-, -, heq⟩
  · exact absurd hold hnewest
  · exact absurd hold hnewest
  · rw [heq]
    exact ⟨holds_of_pending (Dict.get?_insert_self _ _ _) rfl, rfl⟩
  · rw [heq]
    exact ⟨holds_of_pending (Dict.get?_insert_self _ _ _) rfl, rfl⟩

/-- A superseded request changes nothing about the snapshot that the store holds. -/
theorem Holds.enqueue_superseded (h : Holds id record s b) {ticket : Ticket} (old : Bytes)
    (hsuperseded : s.Superseded ticket.tradeId ticket.sequence) :
    Holds id record (s.enqueue ticket old) b := by
  rcases s.enqueue_cases ticket old with ⟨-, p, hp, heq⟩ | ⟨-, -, heq⟩ | ⟨hnewest, -⟩ |
    ⟨hnewest, -⟩
  · rw [heq]
    by_cases hid : id = ticket.tradeId
    · subst hid
      exact holds_of_pending (Dict.get?_insert_self _ _ _) (h.pending p hp)
    · refine h.congr ?_ rfl rfl rfl
      rw [Dict.get?_insert, if_neg (by simpa using hid)]
  · rw [heq]
    exact h.congr rfl rfl rfl rfl
  · exact absurd hsuperseded hnewest
  · exact absurd hsuperseded hnewest

theorem highest_enqueue_superseded {ticket : Ticket}
    (hsuperseded : s.Superseded ticket.tradeId ticket.sequence) :
    (s.enqueue ticket record).highest = s.highest := by
  rcases s.enqueue_cases ticket record with ⟨-, p, -, heq⟩ | ⟨-, -, heq⟩ | ⟨hnewest, -⟩ |
    ⟨hnewest, -⟩
  · rw [heq]
  · rw [heq]
    rfl
  · exact absurd hsuperseded hnewest
  · exact absurd hsuperseded hnewest

/-- What is pending for a trade changes only if that trade is handed in. -/
theorem pending_enqueue_of_ne {ticket : Ticket} (s : Store) (record : Bytes)
    (hne : ticket.tradeId ≠ id) :
    (s.enqueue ticket record).pending.get? id = s.pending.get? id := by
  have hinsert (p : Pending) :
      (s.pending.insert ticket.tradeId p).get? id = s.pending.get? id := by
    rw [Dict.get?_insert, if_neg (by simpa using Ne.symm hne)]
  rcases s.enqueue_cases ticket record with ⟨-, p, -, heq⟩ | ⟨-, -, heq⟩ | ⟨-, p, -, heq⟩ |
    ⟨-, -, heq⟩
  · rw [heq]
    exact hinsert _
  · rw [heq]
    rfl
  · rw [heq]
    exact hinsert _
  · rw [heq]
    exact hinsert _

theorem Holds.enqueue_of_ne (h : Holds id record s b) {ticket : Ticket} {other : Bytes}
    (hne : ticket.tradeId ≠ id) : Holds id record (s.enqueue ticket other) b := by
  obtain ⟨hattempts, hwriter⟩ := s.enqueue_same ticket other
  exact h.congr (s.pending_enqueue_of_ne other hne) hwriter hattempts rfl

theorem Holds.schedule (h : Holds id record s b)
    (holder : t.id = id → s.Superseded id t.sequence) : Holds id record (s.schedule t).1 b := by
  rcases s.schedule_cases t with ⟨failure, heq⟩ | ⟨other, -, heq⟩
  · rw [heq]
    exact h.congr rfl rfl rfl rfl
  · have hissued : Holds id record { s with issued := s.issued + 1 } b := h.congr rfl rfl rfl rfl
    rw [heq]
    by_cases hid : t.id = id
    · subst hid
      exact hissued.enqueue_superseded other (holder rfl)
    · exact hissued.enqueue_of_ne hid

theorem Settled.schedule (h : Settled id record s b)
    (holder : t.id = id → s.Superseded id t.sequence) : Settled id record (s.schedule t).1 b := by
  refine ⟨?_, ?_, h.record⟩
  · rcases s.schedule_cases t with ⟨failure, heq⟩ | ⟨other, -, heq⟩
    · rw [heq]
      exact h.pending
    · rw [heq]
      by_cases hid : t.id = id
      · subst hid
        -- an older snapshot finds nothing pending that it could join
        rcases enqueue_cases { s with issued := s.issued + 1 } ⟨s.issued, t.id, t.sequence⟩ other
          with ⟨-, p, hp, -⟩ | ⟨-, -, heq'⟩ | ⟨hnewest, -⟩ | ⟨hnewest, -⟩
        · exact absurd (hp.symm.trans h.pending) nofun
        · rw [heq']
          exact h.pending
        · exact absurd (holder rfl) hnewest
        · exact absurd (holder rfl) hnewest
      · exact (pending_enqueue_of_ne { s with issued := s.issued + 1 } other hid).trans h.pending
  · rw [(s.schedule_same t).2]
    exact h.writing

theorem Superseded.enqueue {sequence : UInt64} (h : s.Superseded id sequence) (ticket : Ticket)
    (record : Bytes) : (s.enqueue ticket record).Superseded id sequence := by
  obtain ⟨greatest, hgreatest, hlt⟩ := h
  by_cases hold : s.Superseded ticket.tradeId ticket.sequence
  · exact ⟨greatest, by rw [highest_enqueue_superseded hold, hgreatest], hlt⟩
  · have hhighest := (holds_of_enqueue ticket {} record hold).2
    by_cases hid : id = ticket.tradeId
    · -- the greatest sequence only grows
      subst hid
      have hle : greatest ≤ ticket.sequence :=
        UInt64.not_lt.1 fun hlt => hold ⟨greatest, hgreatest, hlt⟩
      exact ⟨_, by rw [hhighest, Dict.get?_insert_self], UInt64.lt_of_lt_of_le hlt hle⟩
    · refine ⟨greatest, ?_, hlt⟩
      rw [hhighest, Dict.get?_insert, if_neg (by simpa using hid), hgreatest]

/-! ## Writing -/

theorem get?_write_of_ne {id' : String} (b : Backend) (record : Bytes) (hne : id' ≠ id) :
    (b.write id' record).1.records.get? id = b.records.get? id := by
  unfold Backend.write
  split
  · rfl
  · split
    · rfl
    · exact (Dict.get?_insert ..).trans (if_neg (by simpa using Ne.symm hne))

theorem Holds.takeNext (h : Holds id record s b) (hready : s.writer = .ready) :
    Holds id record (s.takeNext b) b := by
  rcases s.takeNext_cases b with ⟨id', order, p, -, hp, heq⟩ | ⟨order, -, heq⟩
  · rw [heq]
    by_cases hid : id' = id
    · subst hid
      -- the pending snapshot is the one that is written now
      constructor
      · intro p' hp'
        simp at hp'
      · intro p' held hwriter _
        cases hwriter
        exact h.pending p hp
      · intro _ hidle
        exact absurd rfl (hidle p b.holds)
    · have hpending : (s.pending.erase id').get? id = s.pending.get? id := by
        rw [Dict.get?_erase, if_neg (by simpa using Ne.symm hid)]
      constructor
      · intro p' hp'
        rw [← h.pending p' (hpending ▸ hp')]
      · intro p' held hwriter
        cases hwriter
        exact absurd rfl hid
      · intro hnone _ _
        exact h.settled (hpending ▸ hnone) (by simp [hready]) (by simp [hready])
  · obtain ⟨flushing, writer, hquiet, -, hrest⟩ := rest_eq { s with order }
    rw [heq, hrest]
    constructor
    · exact h.pending
    · intro p' held hwriter
      rcases hquiet with rfl | rfl <;> cases hwriter
    · intro hnone _ _
      exact h.settled hnone (by simp [hready]) (by simp [hready])

theorem Settled.takeNext (h : Settled id record s b) : Settled id record (s.takeNext b) b := by
  rcases s.takeNext_cases b with ⟨id', order, p, -, hp, heq⟩ | ⟨order, -, heq⟩
  · rw [heq]
    refine ⟨?_, fun p' held hwriter => ?_, h.record⟩
    · rw [Dict.get?_erase, h.pending]
      simp
    · -- nothing is pending for this trade, so that another one is written
      cases hwriter
      rw [h.pending] at hp
      cases hp
  · obtain ⟨flushing, writer, hquiet, -, hrest⟩ := rest_eq { s with order }
    rw [heq, hrest]
    refine ⟨h.pending, ?_, h.record⟩
    rcases hquiet with rfl | rfl <;> simp

theorem Holds.answer (h : Holds id record s b) {id' : String} {p : Pending}
    {held succeeded : Bool} (hwriter : s.writer = .writing id' p held)
    (hpending : s'.pending = s.pending)
    (hattempts : s'.attempts = s.attempts ++ [⟨id', p.sequence, succeeded⟩])
    (hready : s'.writer = .ready)
    (hother : id' ≠ id → b'.records.get? id = b.records.get? id)
    (hwritten : succeeded = true → b'.records.get? id' = some p.record) :
    Holds id record s' b' := by
  constructor
  · rw [hpending]
    exact h.pending
  · intro p' held' hp'
    rw [hready] at hp'
    cases hp'
  · intro hnone _ _
    rw [hpending] at hnone
    rw [lastAttempt?_concat hattempts]
    by_cases hid : id' = id
    · -- what was written is the snapshot that the store holds
      subst hid
      refine ⟨_, if_pos rfl, fun hsucceeded => ?_⟩
      rw [← h.writing p held hwriter hnone]
      exact hwritten hsucceeded
    · rw [if_neg hid, hother hid]
      exact h.settled hnone (by simp [hwriter, hid]) (by simp [hwriter])

theorem Holds.finish (h : Holds id record s b) {id' : String} {p : Pending} {held : Bool}
    (hwriter : s.writer = .writing id' p held) :
    Holds id record (s.finish id' p (b.write id' p.record).2) (b.write id' p.record).1 := by
  have hother : id' ≠ id → _ := get?_write_of_ne b p.record
  cases houtcome : (b.write id' p.record).2 with
  | written =>
    exact h.answer hwriter rfl rfl rfl hother fun _ => write_of_written houtcome
  | refused cause =>
    exact h.answer hwriter rfl rfl rfl hother fun hfailed => by cases hfailed
  | broken =>
    -- nothing is claimed of the backend once the writer is dead
    constructor
    · exact h.pending
    · intro p' held' hp'
      cases hp'
    · intro _ _ halive
      exact absurd rfl halive

theorem Settled.finish (h : Settled id record s b) {id' : String} {p : Pending} {held : Bool}
    (hwriter : s.writer = .writing id' p held) :
    Settled id record (s.finish id' p (b.write id' p.record).2) (b.write id' p.record).1 := by
  have hne : id' ≠ id := by
    rintro rfl
    exact h.writing p held hwriter
  refine ⟨?_, fun p' held' => ?_, (get?_write_of_ne b p.record hne).trans h.record⟩
  · cases (b.write id' p.record).2 <;> exact h.pending
  · cases (b.write id' p.record).2 <;> simp [Store.finish]

/-! ## Runs that leave a trade alone -/

/-- Only handing in a snapshot changes the greatest sequences, and a closed store stays closed. -/
theorem act_keeps (hact : s.act b action = some (s', b')) :
    ((∀ t, action ≠ .schedule t) → s'.highest = s.highest) ∧
      (s.closed = true → s'.closed = true) := by
  cases action with
  | schedule t =>
    cases hact
    exact ⟨fun hother => absurd rfl (hother t), fun hclosed => by
      rw [(s.schedule_keeps t).2.1, hclosed]⟩
  | flush =>
    cases hact
    unfold flush
    split <;> exact ⟨fun _ => rfl, id⟩
  | close =>
    cases hact
    exact ⟨fun _ => rfl, fun _ => rfl⟩
  | behave b' =>
    cases hact
    exact ⟨fun _ => rfl, id⟩
  | write =>
    rcases step_cases hact with ⟨-, rfl, -⟩ | ⟨-, rfl, -⟩ | ⟨id, p, held, n, -, -, rfl⟩
    · rcases s.takeNext_cases b with ⟨id, order, p, -, -, heq⟩ | ⟨order, -, heq⟩
      · rw [heq]
        exact ⟨fun _ => rfl, fun hclosed => hclosed⟩
      · obtain ⟨flushing, writer, -, -, hrest⟩ := rest_eq { s with order }
        rw [heq, hrest]
        exact ⟨fun _ => rfl, fun hclosed => hclosed⟩
    · exact ⟨fun _ => rfl, fun hclosed => hclosed⟩
    · cases ({ b with admitted := n }.write id p.record).2 <;>
        exact ⟨fun _ => rfl, fun hclosed => hclosed⟩

/-- A store that is open now has been open all the time. -/
theorem Run.open_before (h : Run s b actions s' b') (hopen : s'.closed = false) :
    s.closed = false := by
  induction h with
  | nil => exact hopen
  | @concat actions s₁ s₂ b₁ b₂ a hrun hact ih =>
    refine ih ?_
    cases hclosed : s₁.closed with
    | false => rfl
    | true =>
      rw [(act_keeps hact).2 hclosed] at hopen
      cases hopen

theorem Superseded.act {sequence : UInt64} (h : s.Superseded id sequence)
    (hact : s.act b action = some (s', b')) : s'.Superseded id sequence := by
  by_cases hscheduled : ∃ t, action = .schedule t
  · obtain ⟨t, rfl⟩ := hscheduled
    cases hact
    rcases s.schedule_cases t with ⟨failure, heq⟩ | ⟨record, -, heq⟩
    · rw [heq]
      exact h
    · rw [heq]
      exact Superseded.enqueue (s := { s with issued := s.issued + 1 }) h _ record
  · have hsame := (act_keeps hact).1 fun t ht => hscheduled ⟨t, ht⟩
    rwa [Superseded, hsame]

/-- Of a trade at most older snapshots are handed in. -/
def Spares (s : Store) (id : String) (action : Action) : Prop :=
  ∀ t, action = .schedule t → t.id = id → s.Superseded id t.sequence

theorem Holds.act (h : Holds id record s b) (hact : s.act b action = some (s', b'))
    (hspares : s.Spares id action) : Holds id record s' b' := by
  cases action with
  | schedule t =>
    cases hact
    exact h.schedule (hspares t rfl)
  | flush =>
    cases hact
    unfold flush
    split <;> exact h.congr rfl rfl rfl rfl
  | close =>
    cases hact
    exact h.congr rfl rfl rfl rfl
  | behave b' =>
    cases hact
    exact h.congr rfl rfl rfl rfl
  | write =>
    rcases step_cases hact with ⟨hready, rfl, rfl⟩ | ⟨hparked, rfl, rfl⟩ |
      ⟨id', p, held, n, hwriter, rfl, rfl⟩
    · exact h.takeNext hready
    · refine ⟨h.pending, fun p held hwriting => (by cases hwriting), fun hnone _ _ => ?_⟩
      exact h.settled hnone (by simp [hparked]) (by simp [hparked])
    · exact Holds.finish (b := { b with admitted := n }) (h.congr rfl rfl rfl rfl) hwriter

theorem Settled.act (h : Settled id record s b) (hact : s.act b action = some (s', b'))
    (hspares : s.Spares id action) : Settled id record s' b' := by
  cases action with
  | schedule t =>
    cases hact
    exact h.schedule (hspares t rfl)
  | flush =>
    cases hact
    unfold flush
    split <;> exact ⟨h.pending, h.writing, h.record⟩
  | close =>
    cases hact
    exact ⟨h.pending, h.writing, h.record⟩
  | behave b' =>
    cases hact
    exact ⟨h.pending, h.writing, h.record⟩
  | write =>
    rcases step_cases hact with ⟨-, rfl, rfl⟩ | ⟨-, rfl, rfl⟩ | ⟨id', p, held, n, hwriter, rfl, rfl⟩
    · exact h.takeNext
    · exact ⟨h.pending, fun p held hwriting => (by cases hwriting), h.record⟩
    · exact Settled.finish (b := { b with admitted := n }) ⟨h.pending, h.writing, h.record⟩ hwriter

theorem Run.superseded {sequence : UInt64} (h : Run s b actions s' b')
    (hs : s.Superseded id sequence) : s'.Superseded id sequence :=
  h.keeps (P := fun s => s.Superseded id sequence) hs fun _ _ _ _ _ hs hact => hs.act hact

theorem Run.spares_of_concat {s₁ : Store} {b₁ : Backend} (h : Run s b actions s₁ b₁)
    (holder : ∀ t ∈ requests (actions ++ [action]), t.id = id → s.Superseded id t.sequence) :
    (∀ t ∈ requests actions, t.id = id → s.Superseded id t.sequence) ∧ s₁.Spares id action := by
  rw [requests_append] at holder
  refine ⟨fun t ht => holder t (List.mem_append_left _ ht), ?_⟩
  rintro t rfl hid
  exact h.superseded (holder t (List.mem_append_right _ List.mem_cons_self) hid)

/-- The store holds the snapshot of a trade until something as new is handed in. -/
theorem Run.holds (h : Run s b actions s' b') (hs : Holds id record s b)
    (holder : ∀ t ∈ requests actions, t.id = id → s.Superseded id t.sequence) :
    Holds id record s' b' := by
  induction h with
  | nil => exact hs
  | concat hrun hact ih =>
    obtain ⟨holder, hspares⟩ := hrun.spares_of_concat holder
    exact (ih holder).act hact hspares

theorem Run.settled (h : Run s b actions s' b') (hs : Settled id record s b)
    (holder : ∀ t ∈ requests actions, t.id = id → s.Superseded id t.sequence) :
    Settled id record s' b' := by
  induction h with
  | nil => exact hs
  | concat hrun hact ih =>
    obtain ⟨holder, hspares⟩ := hrun.spares_of_concat holder
    exact (ih holder).act hact hspares

end PeerTrade.Store
