import PeerTrade.Proofs.Store.Aftermath

/-!
# The store's part for one trade

Most of what happens to a store has nothing to do with a given trade (`Store.Beside`). Otherwise the
current snapshot of that trade joins what is pending (`Store.Joins`), or the writer takes what is
pending, or it finishes a write and tells all who waited for it (`Store.step_of_trade`).
-/

namespace PeerTrade.Store

variable {s s' s'' : Store} {b b' : Backend} {id : String} {t : Trade} {ticket : Ticket}

/-! ## Answers -/

/-- Those who wait for a snapshot, if there is one. -/
def waiters (p : Option Pending) : List Ticket := p.elim [] (·.waiters)

/-- The snapshot of a trade that is being written. -/
def written? (s : Store) (id : String) : Option Pending :=
  match s.writer with
  | .writing id' p _ => if id' = id then some p else none
  | _ => none

theorem written?_eq_some {p : Pending} (h : s.written? id = some p) :
    ∃ held, s.writer = .writing id p held := by
  unfold written? at h
  split at h
  next id' p' held hwriter =>
    split at h
    next heq =>
      cases h
      exact ⟨held, heq ▸ hwriter⟩
    next => cases h
  next => cases h

theorem written?_eq_none (h : ∀ p held, s.writer ≠ .writing id p held) : s.written? id = none := by
  unfold written?
  split
  next id' p held hwriter =>
    split
    next heq => exact absurd (heq ▸ hwriter) (h p held)
    next => rfl
  next => rfl

theorem answer?_eq_none_iff : s.answer? ticket = none ↔ ¬s.Answered ticket.number := by
  simp [answer?, Answered]

theorem answered_of_answer? {result : PersistResult} (h : s.answer? ticket = some result) :
    s.Answered ticket.number := by
  by_contra hnot
  rw [answer?_eq_none_iff.2 hnot] at h
  cases h

/-- An answer is final. -/
theorem answer?_append (h : s.Answered ticket.number) {given : List Answer}
    (hgiven : s'.answers = s.answers ++ given) : s'.answer? ticket = s.answer? ticket := by
  have hsome : (s.answers.find? fun a => a.ticket.number == ticket.number).isSome := by
    obtain ⟨a, ha, hnumber⟩ := h
    exact List.find?_isSome.2 ⟨a, ha, by simp [hnumber]⟩
  obtain ⟨a, ha⟩ := Option.isSome_iff_exists.1 hsome
  rw [answer?, answer?, hgiven, List.find?_append, ha]
  rfl

/-- All who wait for the same write are told the same. -/
theorem answer?_of_told {tickets : List Ticket} {result : PersistResult}
    (hnot : ¬s.Answered ticket.number) (hmem : ticket ∈ tickets)
    (hgiven : s'.answers = s.answers ++ tickets.map fun t => ⟨t, result⟩) :
    s'.answer? ticket = some result := by
  have hnone : s.answers.find? (fun a => a.ticket.number == ticket.number) = none := by
    have hanswer := answer?_eq_none_iff.2 hnot
    rwa [answer?, Option.map_eq_none_iff] at hanswer
  have hsome : ((tickets.map fun t => (⟨t, result⟩ : Answer)).find?
      fun a => a.ticket.number == ticket.number).isSome :=
    List.find?_isSome.2 ⟨⟨ticket, result⟩, List.mem_map_of_mem hmem, by simp⟩
  obtain ⟨a, ha⟩ := Option.isSome_iff_exists.1 hsome
  obtain ⟨t, -, rfl⟩ := List.mem_map.1 (List.mem_of_find?_eq_some ha)
  rw [answer?, hgiven, List.find?_append, hnone, ha]
  rfl

/-! ## What has nothing to do with a trade -/

/-- The store deals with other trades; some tickets may be answered meanwhile. -/
structure Beside (s s' : Store) (id : String) : Prop where
  pending : s'.pending.get? id = s.pending.get? id
  highest : s'.highest.get? id = s.highest.get? id
  written : s'.written? id = s.written? id
  finished : s'.attempts.filter (·.tradeId = id) = s.attempts.filter (·.tradeId = id)
  answers : ∃ given, s'.answers = s.answers ++ given
  issued : s.issued ≤ s'.issued

theorem Beside.refl (s : Store) (id : String) : s.Beside s id :=
  ⟨rfl, rfl, rfl, rfl, ⟨[], (List.append_nil _).symm⟩, Nat.le_refl _⟩

theorem Beside.trans (h : s.Beside s' id) (h' : s'.Beside s'' id) : s.Beside s'' id := by
  obtain ⟨given, hgiven⟩ := h.answers
  obtain ⟨given', hgiven'⟩ := h'.answers
  exact ⟨h'.pending.trans h.pending, h'.highest.trans h.highest, h'.written.trans h.written,
    h'.finished.trans h.finished, ⟨given ++ given', by rw [hgiven', hgiven, List.append_assoc]⟩,
    Nat.le_trans h.issued h'.issued⟩

theorem beside_enqueue (record : Bytes) (hid : ticket.tradeId ≠ id) :
    s.Beside (s.enqueue ticket record) id := by
  have hne : ¬compare id ticket.tradeId = .eq := by
    simpa using Ne.symm hid
  have hnothing : ∀ l : List Answer, ∃ given, l = l ++ given := fun l => ⟨[], by simp⟩
  rcases s.enqueue_cases ticket record with ⟨-, p, -, heq⟩ | ⟨-, -, heq⟩ | ⟨-, p, -, heq⟩ |
    ⟨-, -, heq⟩
  · rw [heq]
    exact ⟨by simp [Dict.get?_insert, hne], rfl, rfl, rfl, hnothing _, Nat.le_refl _⟩
  · rw [heq]
    exact ⟨rfl, rfl, rfl, rfl, ⟨_, rfl⟩, Nat.le_refl _⟩
  · rw [heq]
    exact ⟨by simp [Dict.get?_insert, hne], by simp [Dict.get?_insert, hne], rfl, rfl,
      hnothing _, Nat.le_refl _⟩
  · rw [heq]
    exact ⟨by simp [Dict.get?_insert, hne], by simp [Dict.get?_insert, hne], rfl, rfl,
      hnothing _, Nat.le_refl _⟩

theorem beside_schedule (s : Store) (hid : t.id ≠ id) : s.Beside (s.schedule t).1 id := by
  have hissued : s.Beside { s with issued := s.issued + 1 } id :=
    ⟨rfl, rfl, rfl, rfl, ⟨[], (List.append_nil _).symm⟩, Nat.le_succ _⟩
  rcases s.schedule_cases t with ⟨failure, heq⟩ | ⟨record, -, heq⟩
  · rw [heq]
    exact hissued.trans ⟨rfl, rfl, rfl, rfl, ⟨_, rfl⟩, Nat.le_refl _⟩
  · rw [heq]
    exact hissued.trans (beside_enqueue record hid)

theorem beside_flush (s : Store) (id : String) : s.Beside s.flush.1 id := by
  unfold flush
  split
  · exact .refl s id
  · exact ⟨rfl, rfl, rfl, rfl, ⟨[], (List.append_nil _).symm⟩, Nat.le_refl _⟩

/-! ## What has to do with it -/

/-- The current snapshot of a trade is handed in, and joins what is pending. -/
structure Joins (s s' : Store) (t : Trade) : Prop where
  pending : ∃ record, s'.pending.get? t.id = some ⟨record, t.sequence,
    waiters (s.pending.get? t.id) ++ [⟨s.issued, t.id, t.sequence⟩]⟩
  highest : s'.highest.get? t.id = some t.sequence
  written : s'.written? t.id = s.written? t.id
  attempts : s'.attempts = s.attempts
  answers : s'.answers = s.answers
  issued : s'.issued = s.issued + 1

theorem joins_schedule (hopen : s.closed = false) {record : Bytes}
    (hencode : t.toSnapshot.encode = .ok record)
    (hnewest : ∀ greatest, s.highest.get? t.id = some greatest → greatest ≤ t.sequence) :
    s.Joins (s.schedule t).1 t := by
  have heq : (s.schedule t).1 = { s with issued := s.issued + 1 }.enqueue
      ⟨s.issued, t.id, t.sequence⟩ record := by
    rw [schedule_of_encode_ok hencode, if_neg (by simp [hopen])]
  have hcurrent : ¬Superseded { s with issued := s.issued + 1 } t.id t.sequence := by
    rintro ⟨greatest, hgreatest, hlt⟩
    exact absurd hlt (UInt64.not_lt.2 (hnewest greatest hgreatest))
  rw [heq]
  rcases enqueue_cases { s with issued := s.issued + 1 } ⟨s.issued, t.id, t.sequence⟩ record with
    ⟨hold, -⟩ | ⟨hold, -⟩ | ⟨-, p, hp, heq⟩ | ⟨-, hnone, heq⟩
  · exact absurd hold hcurrent
  · exact absurd hold hcurrent
  · change s.pending.get? t.id = some p at hp
    rw [heq]
    refine ⟨⟨record, ?_⟩, Dict.get?_insert_self _ _ _, rfl, rfl, rfl, rfl⟩
    simp [waiters, hp]
  · change s.pending.get? t.id = none at hnone
    rw [heq]
    refine ⟨⟨record, ?_⟩, Dict.get?_insert_self _ _ _, rfl, rfl, rfl, rfl⟩
    simp [waiters, hnone]

/-- The writer takes the pending snapshot of a trade. -/
structure Takes (s s' : Store) (id : String) (p : Pending) : Prop where
  pending : s.pending.get? id = some p ∧ s'.pending.get? id = none
  highest : s'.highest = s.highest
  written : s.written? id = none ∧ s'.written? id = some p
  attempts : s'.attempts = s.attempts
  answers : s'.answers = s.answers
  issued : s'.issued = s.issued

/-- The writer finishes the write of a trade. -/
structure Finishes (s s' : Store) (id : String) (p : Pending) (succeeded : Bool) : Prop where
  pending : s'.pending = s.pending
  highest : s'.highest = s.highest
  written : s.written? id = some p ∧ s'.written? id = none
  attempts : s'.attempts = s.attempts ++ [⟨id, p.sequence, succeeded⟩]
  answers : ∃ result, s'.answers = s.answers ++ p.waiters.map (⟨·, result⟩) ∧
    if succeeded then result = .ok () else ∃ cause, result = .error ⟨id, p.sequence, cause⟩
  issued : s'.issued = s.issued

theorem beside_or_takes (hready : s.writer = .ready) :
    s.Beside (s.takeNext b) id ∨ ∃ p, s.Takes (s.takeNext b) id p := by
  have hidle : s.written? id = none := written?_eq_none fun _ _ => by simp [hready]
  obtain ⟨hanswers, hattempts, hissued⟩ := s.takeNext_same b
  rcases s.takeNext_cases b with ⟨id', order, p, -, hp, heq⟩ | ⟨order, -, heq⟩
  · by_cases hid : id' = id
    · subst hid
      refine .inr ⟨p, ⟨hp, ?_⟩, ?_, ⟨hidle, ?_⟩, hattempts, hanswers, hissued⟩
      · rw [heq, Dict.get?_erase_self]
      · rw [heq]
      · simp [heq, written?]
    · refine .inl ⟨?_, ?_, ?_, by rw [hattempts], ⟨[], by rw [hanswers, List.append_nil]⟩,
        Nat.le_of_eq hissued.symm⟩
      · rw [heq, Dict.get?_erase, if_neg (by simpa using Ne.symm hid)]
      · rw [heq]
      · rw [hidle, heq]
        simp [written?, hid]
  · obtain ⟨flushing, writer, hquiet, -, hrest⟩ := rest_eq { s with order }
    refine .inl ⟨by rw [heq, hrest], by rw [heq, hrest], ?_, by rw [hattempts],
      ⟨[], by rw [hanswers, List.append_nil]⟩, Nat.le_of_eq hissued.symm⟩
    rw [hidle, heq, hrest]
    rcases hquiet with rfl | rfl <;> rfl

/-- The writer wakes up. -/
theorem beside_of_parked (hparked : s.writer = .parked) :
    s.Beside { s with wake := false, writer := .ready } id := by
  refine ⟨rfl, rfl, ?_, rfl, ⟨[], (List.append_nil _).symm⟩, Nat.le_refl _⟩
  rw [written?_eq_none (s := s) fun _ _ => by simp [hparked]]
  rfl

/-- A write for another trade ends. -/
theorem beside_of_finish {id' : String} {p : Pending} {held : Bool} {result : WriteResult}
    (hwriter : s.writer = .writing id' p held) (hid : id' ≠ id) :
    s.Beside (s.finish id' p result) id := by
  have hidle : s.written? id = none := by simp [written?, hwriter, hid]
  have hwritten : (s.finish id' p result).written? id = none := by
    apply written?_eq_none
    cases result <;> simp [finish]
  obtain ⟨_, hanswers, hpending, hissued⟩ := s.finish_replies id' p result
  refine ⟨by rw [hpending], ?_, hwritten.trans hidle.symm, ?_, ⟨_, hanswers⟩,
    Nat.le_of_eq hissued.symm⟩
  · cases result <;> rfl
  · cases result <;> simp [finish, reply, hid]

theorem finishes_of_finish {p : Pending} {held : Bool} {result : WriteResult}
    (hwriter : s.writer = .writing id p held) (halive : (s.finish id p result).writer ≠ .dead) :
    ∃ succeeded, s.Finishes (s.finish id p result) id p succeeded ∧
      (succeeded = true ↔ result = .written) := by
  have hwritten : s.written? id = some p := by simp [written?, hwriter]
  cases result with
  | written =>
    exact ⟨true, ⟨rfl, rfl, ⟨hwritten, written?_eq_none fun _ _ => nofun⟩, rfl, ⟨_, rfl, rfl⟩, rfl⟩,
      by simp⟩
  | refused cause =>
    exact ⟨false, ⟨rfl, rfl, ⟨hwritten, written?_eq_none fun _ _ => nofun⟩, rfl,
      ⟨_, rfl, _, rfl⟩, rfl⟩, by simp⟩
  | broken => exact absurd rfl halive

/-- A step of the writer is about another trade, or takes the snapshot of this one, or finishes
writing it. -/
theorem step_of_trade (hstep : s.step b = some (s', b')) (halive : s'.writer ≠ .dead)
    (id : String) : s.Beside s' id ∨ (∃ p, s.Takes s' id p) ∨
      ∃ p succeeded, s.Finishes s' id p succeeded := by
  rcases step_cases hstep with ⟨hready, rfl, -⟩ | ⟨hparked, rfl, -⟩ |
    ⟨id', p, held, n, hwriter, -, rfl⟩
  · exact (beside_or_takes hready).imp_right .inl
  · exact .inl (beside_of_parked hparked)
  · by_cases hid : id' = id
    · subst hid
      obtain ⟨succeeded, hfinishes, -⟩ := finishes_of_finish hwriter halive
      exact .inr (.inr ⟨p, succeeded, hfinishes⟩)
    · exact .inl (beside_of_finish hwriter hid)

/-! ## Before anything was handed in -/

/-- Nothing has been handed in for a trade. -/
structure Blank (s : Store) (id : String) : Prop where
  pending : s.pending.get? id = none
  highest : s.highest.get? id = none
  written : s.written? id = none
  attempts : s.attempts.filter (·.tradeId = id) = []

theorem blank_new (id : String) : Blank {} id := ⟨rfl, rfl, rfl, rfl⟩

theorem Blank.beside (h : s.Blank id) (hbeside : s.Beside s' id) : s'.Blank id :=
  ⟨hbeside.pending.trans h.pending, hbeside.highest.trans h.highest,
    hbeside.written.trans h.written, hbeside.finished.trans h.attempts⟩

/-- The writer deals with other trades as long as nothing has been handed in. -/
theorem Blank.beside_step (h : s.Blank id) (hstep : s.step b = some (s', b')) :
    s.Beside s' id := by
  rcases step_cases hstep with ⟨hready, rfl, -⟩ | ⟨hparked, rfl, -⟩ |
    ⟨id', p, held, n, hwriter, -, rfl⟩
  · rcases beside_or_takes hready with hbeside | ⟨p, htakes⟩
    · exact hbeside
    · have hpending := htakes.pending.1
      rw [h.pending] at hpending
      cases hpending
  · exact beside_of_parked hparked
  · apply beside_of_finish hwriter
    rintro rfl
    have hwritten := h.written
    simp [written?, hwriter] at hwritten

theorem issued_step (hstep : s.step b = some (s', b')) : s'.issued = s.issued := by
  rcases step_cases hstep with ⟨-, rfl, -⟩ | ⟨-, rfl, -⟩ | ⟨id', p, held, n, -, -, rfl⟩
  · exact (s.takeNext_same b).2.2
  · rfl
  · have hissued (outcome : WriteResult) : (s.finish id' p outcome).issued = s.issued := by
      cases outcome <;> rfl
    exact hissued _

end PeerTrade.Store
