import PeerTrade.Proofs.Store.Newest

/-!
# Convergence to the newest snapshot

Writes of a trade are begun in the order of their sequences, so that no record is ever replaced by
an older one. A flush answers every ticket that was handed out before it, and where no write failed
the record of a trade is then the snapshot of its newest request, also when the records are read
back (`Store.flush_converges`).
-/

namespace PeerTrade.Store

variable {s s' : Store} {b b₀ b' : Backend} {action : Action} {actions : List Action}
  {rs : List Trade} {t : Trade} {id : String} {record : Bytes}

/-! ## The newest requests and what the store holds -/

/-- The store knows the newest request of every trade, and holds its snapshot. -/
structure Latest (rs : List Trade) (s : Store) (b : Backend) : Prop where
  newest : ∀ id t, newest? rs id = some t → s.highest.get? id = some t.sequence ∧
    ∃ record, t.toSnapshot.encode = .ok record ∧ Holds id record s b
  unknown : ∀ id, newest? rs id = none → s.highest.get? id = none

theorem latest_new (b : Backend) : Latest [] {} b where
  newest _ _ h := by cases h
  unknown _ _ := rfl

theorem Latest.superseded_iff (h : Latest rs s b) {sequence : UInt64} :
    s.Superseded id sequence ↔ ∃ t, newest? rs id = some t ∧ sequence < t.sequence := by
  constructor
  · rintro ⟨greatest, hgreatest, hlt⟩
    cases hnewest : newest? rs id with
    | none =>
      rw [h.unknown id hnewest] at hgreatest
      cases hgreatest
    | some t =>
      rw [(h.newest id t hnewest).1] at hgreatest
      cases hgreatest
      exact ⟨t, rfl, hlt⟩
  · rintro ⟨t, hnewest, hlt⟩
    exact ⟨_, (h.newest id t hnewest).1, hlt⟩

theorem Latest.congr (h : Latest rs s b) (hpending : s'.pending = s.pending)
    (hhighest : s'.highest = s.highest) (hwriter : s'.writer = s.writer)
    (hattempts : s'.attempts = s.attempts) : Latest rs s' b := by
  constructor
  · intro id t ht
    obtain ⟨hgreatest, record, hrecord, hholds⟩ := h.newest id t ht
    exact ⟨by rw [hhighest, hgreatest], record, hrecord,
      hholds.congr (by rw [hpending]) hwriter hattempts rfl⟩
  · intro id hnone
    rw [hhighest, h.unknown id hnone]

theorem Latest.enqueue (h : Latest rs s b) (hencode : t.toSnapshot.encode = .ok record)
    (number : Nat) :
    Latest (rs ++ [t]) (s.enqueue ⟨number, t.id, t.sequence⟩ record) b := by
  by_cases hsuperseded : s.Superseded t.id t.sequence
  · -- neither the newest request nor its snapshot changes for any trade
    obtain ⟨newest, hnewest, hlt⟩ := h.superseded_iff.1 hsuperseded
    have hsame (id : String) : newest? (rs ++ [t]) id = newest? rs id := by
      by_cases hid : t.id = id
      · subst hid
        rw [hnewest, newest?_concat_of_lt hnewest hlt]
      · exact newest?_concat_of_ne hid
    constructor
    · intro id t' ht'
      rw [hsame] at ht'
      obtain ⟨hgreatest, record', hencode', hholds⟩ := h.newest id t' ht'
      exact ⟨by rwa [highest_enqueue_superseded hsuperseded], record', hencode',
        hholds.enqueue_superseded record hsuperseded⟩
    · intro id hnone
      rw [hsame] at hnone
      rw [highest_enqueue_superseded hsuperseded, h.unknown id hnone]
  · -- this request is the newest one of its trade from now on
    have hself : newest? (rs ++ [t]) t.id = some t := by
      refine newest?_concat_self fun t' ht' => ?_
      rw [← UInt64.not_lt]
      exact fun hlt => hsuperseded (h.superseded_iff.2 ⟨t', ht', hlt⟩)
    obtain ⟨hholds, hhighest⟩ := holds_of_enqueue (s := s) ⟨number, t.id, t.sequence⟩ b record
      hsuperseded
    constructor
    · intro id t' ht'
      rw [hhighest]
      by_cases hid : t.id = id
      · subst hid
        rw [hself] at ht'
        cases ht'
        exact ⟨Dict.get?_insert_self _ _ _, record, hencode, hholds⟩
      · rw [newest?_concat_of_ne hid] at ht'
        obtain ⟨hold, record', hencode', hholds'⟩ := h.newest id t' ht'
        refine ⟨?_, record', hencode', hholds'.enqueue_of_ne hid⟩
        rw [Dict.get?_insert, if_neg (by simpa using Ne.symm hid), hold]
    · intro id hnone
      by_cases hid : t.id = id
      · subst hid
        rw [hself] at hnone
        cases hnone
      · rw [newest?_concat_of_ne hid] at hnone
        rw [hhighest, Dict.get?_insert, if_neg (by simpa using Ne.symm hid), h.unknown id hnone]

theorem Latest.schedule (h : Latest rs s b) (hopen : s.closed = false)
    (hencode : t.toSnapshot.encode = .ok record) :
    Latest (rs ++ [t]) (s.schedule t).1 b := by
  have hissued : Latest rs { s with issued := s.issued + 1 } b := h.congr rfl rfl rfl rfl
  have heq : (s.schedule t).1 =
      { s with issued := s.issued + 1 }.enqueue ⟨s.issued, t.id, t.sequence⟩ record := by
    rw [schedule_of_encode_ok hencode, if_neg (by simp [hopen])]
  rw [heq]
  exact hissued.enqueue hencode s.issued

/-- The requests whose snapshots have a stored form. -/
def storable (rs : List Trade) : List Trade := rs.filter fun t => t.toSnapshot.encode.isOk

@[simp] theorem storable_append (rs rs' : List Trade) :
    storable (rs ++ rs') = storable rs ++ storable rs' :=
  List.filter_append ..

theorem isOk_encode_iff {t : Trade} :
    t.toSnapshot.encode.isOk = true ↔ ∃ record, t.toSnapshot.encode = .ok record := by
  cases t.toSnapshot.encode <;> simp [Except.isOk, Except.toBool]

/-- An open store knows the newest request of every trade among those that it can store. -/
theorem Run.latest_storable (h : Run {} b₀ actions s b) (hopen : s.closed = false) :
    Latest (storable (requests actions)) s b := by
  induction h with
  | nil => exact latest_new b₀
  | @concat actions s₁ s₂ b₁ b₂ a _ hact ih =>
    have hopen₁ := (Run.concat .nil hact).open_before hopen
    have hlatest := ih hopen₁
    rw [requests_append, storable_append]
    by_cases hscheduled : ∃ t, a = .schedule t
    · obtain ⟨t, rfl⟩ := hscheduled
      cases hact
      cases hencode : t.toSnapshot.encode with
      | ok record =>
        have hself : storable (requests [.schedule t]) = [t] := by
          simp [storable, hencode, Except.isOk, Except.toBool]
        rw [hself]
        exact hlatest.schedule hopen₁ hencode
      | error cause =>
        have hnone : storable (requests [.schedule t]) = [] := by
          simp [storable, hencode, Except.isOk, Except.toBool]
        have heq : (s₁.schedule t).1 =
            { s₁ with issued := s₁.issued + 1 }.reply [⟨s₁.issued, t.id, t.sequence⟩] fun w =>
              failure w (StoreError.encode cause).message := schedule_of_encode_error hencode s₁
        rw [hnone, List.append_nil, heq]
        exact hlatest.congr rfl rfl rfl rfl
    · have hother : ∀ t, a ≠ .schedule t := fun t ht => hscheduled ⟨t, ht⟩
      rw [requests_of_ne hother, show storable [] = [] from rfl, List.append_nil]
      constructor
      · intro id t ht
        obtain ⟨hgreatest, record, hrecord, hholds⟩ := hlatest.newest id t ht
        refine ⟨by rw [(act_keeps hact).1 hother, hgreatest], record, hrecord, ?_⟩
        exact hholds.act hact fun t ht => absurd ht (hother t)
      · intro id hnone
        rw [(act_keeps hact).1 hother, hlatest.unknown id hnone]

theorem Run.latest (h : Run {} b₀ actions s b) (hopen : s.closed = false)
    (hencode : ∀ t ∈ requests actions, ∃ record, t.toSnapshot.encode = .ok record) :
    Latest (requests actions) s b := by
  have hall : storable (requests actions) = requests actions :=
    List.filter_eq_self.2 fun t ht => isOk_encode_iff.2 (hencode t ht)
  rw [← hall]
  exact h.latest_storable hopen

/-! ## Where records come from -/

/-- A record that is the snapshot of some request for a trade. -/
def Requested (rs : List Trade) (id : String) (record : Bytes) : Prop :=
  ∃ t ∈ rs, t.id = id ∧ t.toSnapshot.encode = .ok record

theorem Requested.append (h : Requested rs id record) (more : List Trade) :
    Requested (rs ++ more) id record := by
  obtain ⟨t, ht, hid, hrecord⟩ := h
  exact ⟨t, List.mem_append_left _ ht, hid, hrecord⟩

/-- What is pending, being written or in the backend was requested, or was in the backend from the
beginning. -/
structure Drawn (b₀ : Backend) (rs : List Trade) (s : Store) (b : Backend) : Prop where
  pending : ∀ id p, s.pending.get? id = some p → Requested rs id p.record
  writing : ∀ id p held, s.writer = .writing id p held → Requested rs id p.record
  records : ∀ id, b.records.get? id = b₀.records.get? id ∨
    ∃ record, b.records.get? id = some record ∧ Requested rs id record

theorem drawn_new (b : Backend) : Drawn b [] {} b where
  pending _ _ h := by cases h
  writing _ _ _ h := by cases h
  records _ := .inl rfl

theorem Drawn.append (h : Drawn b₀ rs s b) (more : List Trade) :
    Drawn b₀ (rs ++ more) s b := by
  refine ⟨fun id p hp => (h.pending id p hp).append more,
    fun id p held hp => (h.writing id p held hp).append more, fun id => ?_⟩
  refine (h.records id).imp_right ?_
  rintro ⟨record, hrecord, hrequested⟩
  exact ⟨record, hrecord, hrequested.append more⟩

theorem Drawn.enqueue (h : Drawn b₀ rs s b) {ticket : Ticket}
    (hrecord : Requested rs ticket.tradeId record) :
    Drawn b₀ rs (s.enqueue ticket record) b := by
  have hinsert (p' : Pending) (hp' : Requested rs ticket.tradeId p'.record) (id : String)
      (p : Pending) (hp : (s.pending.insert ticket.tradeId p').get? id = some p) :
      Requested rs id p.record := by
    rw [Dict.get?_insert] at hp
    split at hp
    next hid =>
      cases hp
      rwa [Std.LawfulEqOrd.eq_of_compare hid]
    next => exact h.pending id p hp
  rcases s.enqueue_cases ticket record with ⟨-, p, hp, heq⟩ | ⟨-, -, heq⟩ | ⟨-, p, -, heq⟩ |
    ⟨-, -, heq⟩
  · rw [heq]
    exact ⟨hinsert _ (h.pending _ p hp), h.writing, h.records⟩
  · rw [heq]
    exact ⟨h.pending, h.writing, h.records⟩
  · rw [heq]
    exact ⟨hinsert _ hrecord, h.writing, h.records⟩
  · rw [heq]
    exact ⟨hinsert _ hrecord, h.writing, h.records⟩

theorem Drawn.schedule (h : Drawn b₀ rs s b) (t : Trade) :
    Drawn b₀ (rs ++ [t]) (s.schedule t).1 b := by
  have hmore := h.append [t]
  rcases s.schedule_cases t with ⟨failure, heq⟩ | ⟨record, hencode, heq⟩
  · rw [heq]
    exact ⟨hmore.pending, hmore.writing, hmore.records⟩
  · have hissued : Drawn b₀ (rs ++ [t]) { s with issued := s.issued + 1 } b :=
      ⟨hmore.pending, hmore.writing, hmore.records⟩
    rw [heq]
    exact hissued.enqueue ⟨t, List.mem_append_right _ List.mem_cons_self, rfl, hencode⟩

theorem Drawn.takeNext (h : Drawn b₀ rs s b) : Drawn b₀ rs (s.takeNext b) b := by
  rcases s.takeNext_cases b with ⟨id, order, p, -, hp, heq⟩ | ⟨order, -, heq⟩
  · rw [heq]
    refine ⟨fun id' p' hp' => ?_, fun id' p' held hwriter => ?_, h.records⟩
    · rw [Dict.get?_erase] at hp'
      split at hp'
      · cases hp'
      · exact h.pending id' p' hp'
    · cases hwriter
      exact h.pending id p hp
  · obtain ⟨flushing, writer, hquiet, -, hrest⟩ := rest_eq { s with order }
    rw [heq, hrest]
    refine ⟨h.pending, fun id p held hwriter => ?_, h.records⟩
    rcases hquiet with rfl | rfl <;> cases hwriter

/-- A write puts its record in place, or changes no record. -/
theorem write_cases (b : Backend) (id : String) (record : Bytes) :
    (b.write id record).2 = .written ∨
      (b.write id record).2 ≠ .written ∧ (b.write id record).1.records = b.records := by
  unfold Backend.write
  split
  · refine .inr ⟨fun hwritten => ?_, rfl⟩
    cases hwritten
  · split
    · refine .inr ⟨fun hwritten => ?_, rfl⟩
      cases hwritten
    · exact .inl rfl

theorem Drawn.finish (h : Drawn b₀ rs s b) {id : String} {p : Pending} {held : Bool}
    (hwriter : s.writer = .writing id p held) :
    Drawn b₀ rs (s.finish id p (b.write id p.record).2) (b.write id p.record).1 := by
  constructor
  · intro id' p' hp'
    obtain ⟨-, -, hpending, -⟩ := s.finish_replies id p (b.write id p.record).2
    rw [hpending] at hp'
    exact h.pending id' p' hp'
  · intro id' p' held' hp'
    cases houtcome : (b.write id p.record).2 <;> rw [houtcome] at hp' <;> cases hp'
  · intro id'
    by_cases hid : id = id'
    · subst hid
      rcases write_cases b id p.record with hwritten | ⟨-, hsame⟩
      · exact .inr ⟨p.record, write_of_written hwritten, h.writing id p held hwriter⟩
      · rw [hsame]
        exact h.records id
    · rw [get?_write_of_ne b p.record hid]
      exact h.records id'

theorem Drawn.act (h : Drawn b₀ rs s b) (hact : s.act b action = some (s', b')) :
    Drawn b₀ (rs ++ requests [action]) s' b' := by
  cases action with
  | schedule t =>
    cases hact
    exact h.schedule t
  | flush =>
    cases hact
    have hmore := h.append (requests [.flush])
    unfold flush
    split <;> exact ⟨hmore.pending, hmore.writing, hmore.records⟩
  | close =>
    cases hact
    have hmore := h.append (requests [.close])
    exact ⟨hmore.pending, hmore.writing, hmore.records⟩
  | behave b' =>
    cases hact
    have hmore := h.append (requests [.behave b'])
    exact ⟨hmore.pending, hmore.writing, hmore.records⟩
  | write =>
    have hmore := h.append (requests [.write])
    rcases step_cases hact with ⟨-, rfl, rfl⟩ | ⟨-, rfl, rfl⟩ | ⟨id, p, held, n, hwriter, rfl, rfl⟩
    · exact hmore.takeNext
    · exact ⟨hmore.pending, fun id p held hp => (by cases hp), hmore.records⟩
    · exact Drawn.finish (b := { b with admitted := n })
        ⟨hmore.pending, hmore.writing, hmore.records⟩ hwriter

theorem Run.drawn (h : Run {} b₀ actions s b) : Drawn b₀ (requests actions) s b := by
  induction h with
  | nil => exact drawn_new b₀
  | concat _ hact ih =>
    rw [requests_append]
    exact ih.act hact

/-! ## Records do not go back -/

/-- The record of a trade is at least as new as every write for it that was accepted. -/
def Upheld (s : Store) (b : Backend) : Prop :=
  ∀ a ∈ s.attempts, a.succeeded = true → ∃ record sequence,
    b.records.get? a.tradeId = some record ∧ Stores record a.tradeId sequence ∧
      a.sequence ≤ sequence

theorem Upheld.finish (h : Upheld s b) (hsound : Sound s) (hascending : Ascending s)
    {id : String} {p : Pending} {held : Bool} (hwriter : s.writer = .writing id p held) :
    Upheld (s.finish id p (b.write id p.record).2) (b.write id p.record).1 := by
  obtain ⟨hserves, -⟩ := hsound.writing id p held hwriter
  obtain ⟨-, hnewest⟩ := hascending.writing id p held hwriter
  rcases write_cases b id p.record with hwritten | ⟨hfailed, hsame⟩
  · have hrecord := write_of_written hwritten
    intro a ha hsucceeded
    rw [hwritten] at ha
    rcases List.mem_append.1 ha with ha | ha
    · by_cases hid : id = a.tradeId
      · -- the earlier writes of this trade carried no greater sequence
        rw [← hid]
        exact ⟨p.record, p.sequence, hrecord, hserves.record, hnewest a ha hid.symm⟩
      · rw [get?_write_of_ne b p.record hid]
        exact h a ha hsucceeded
    · rw [List.mem_singleton.1 ha]
      exact ⟨p.record, p.sequence, hrecord, hserves.record, UInt64.le_refl _⟩
  · intro a ha hsucceeded
    rw [hsame]
    cases houtcome : (b.write id p.record).2 with
    | written => exact absurd houtcome hfailed
    | refused cause =>
      rw [houtcome] at ha
      rcases List.mem_append.1 ha with ha | ha
      · exact h a ha hsucceeded
      · rw [List.mem_singleton.1 ha] at hsucceeded
        cases hsucceeded
    | broken =>
      rw [houtcome] at ha
      exact h a ha hsucceeded

theorem Reachable.upheld (h : Reachable s b) : Upheld s b := by
  induction h with
  | start b => exact fun a ha => absurd ha List.not_mem_nil
  | @act s s' b b' action hs hact ih =>
    cases action with
    | schedule t =>
      cases hact
      intro a ha
      rw [(s.schedule_same t).1] at ha
      exact ih a ha
    | flush =>
      cases hact
      unfold flush
      split <;> exact ih
    | close =>
      cases hact
      exact ih
    | behave b' =>
      cases hact
      exact ih
    | write =>
      rcases step_cases hact with ⟨-, rfl, rfl⟩ | ⟨-, rfl, rfl⟩ | ⟨id, p, held, n, hwriter, rfl, rfl⟩
      · intro a ha
        rw [(s.takeNext_same _).2.1] at ha
        exact ih a ha
      · exact ih
      · exact Upheld.finish (b := { b with admitted := n }) ih hs.sound hs.ascending hwriter

/-! ## Reading the records back -/

/-- What an entry is read as, if it can be read. -/
def asSnapshot? (e : String × Bytes) : Option Snapshot := (Snapshot.decode e.2).toOption

theorem loadAll_eq (hreads : b.refusesReads = none) :
    b.loadAll = .ok (b.records.entries.filterMap asSnapshot?) := by
  have hall : b.readAll = .ok b.records.entries := by simp [Backend.readAll, hreads]
  simp only [Backend.loadAll, Backend.load, hall]
  refine congrArg Except.ok ?_
  rw [List.filterMap_map]
  refine congrArg (List.filterMap · _) (funext fun e => ?_)
  rw [Function.comp_apply, asSnapshot?]
  cases Snapshot.decode e.2 <;> rfl

/-- If no other record names a trade, its own record is what is read back of it. -/
theorem filter_loadAll {snapshot : Snapshot} (hreads : b.refusesReads = none)
    (hrecord : b.records.get? id = some record) (hdecode : Snapshot.decode record = .ok snapshot)
    (hid : snapshot.tradeId = id)
    (hothers : ∀ id' record' snapshot', id' ≠ id → b.records.get? id' = some record' →
      Snapshot.decode record' = .ok snapshot' → snapshot'.tradeId ≠ id) :
    ∃ all, b.loadAll = .ok all ∧ all.filter (·.tradeId = id) = [snapshot] := by
  refine ⟨_, loadAll_eq hreads, ?_⟩
  obtain ⟨front, back, hentries⟩ := List.append_of_mem (Dict.get?_eq_some_iff.1 hrecord)
  have hkeys := b.records.nodup_keys
  rw [Dict.keys, hentries, List.map_append, List.map_cons] at hkeys
  -- every other record is passed over or belongs to another trade
  have hnone : ∀ part : List (String × Bytes), (∀ e ∈ part, e ∈ b.records.entries ∧ e.1 ≠ id) →
      (part.filterMap asSnapshot?).filter (·.tradeId = id) = [] := by
    intro part hpart
    refine List.filter_eq_nil_iff.2 fun snapshot' hsnapshot' => ?_
    obtain ⟨e, he, hread⟩ := List.mem_filterMap.1 hsnapshot'
    obtain ⟨hmem, hne⟩ := hpart e he
    rw [asSnapshot?] at hread
    cases hdecode' : Snapshot.decode e.2 with
    | error cause =>
      rw [hdecode'] at hread
      cases hread
    | ok read =>
      rw [hdecode'] at hread
      cases hread
      simpa using hothers e.1 e.2 _ hne (Dict.get?_eq_some_iff.2 hmem) hdecode'
  obtain ⟨-, hbackKeys, hcross⟩ := List.nodup_append.1 hkeys
  have hfront := hnone front fun e he => by
    refine ⟨by rw [hentries]; exact List.mem_append_left _ he, ?_⟩
    exact hcross e.1 (List.mem_map_of_mem he) id List.mem_cons_self
  have hback := hnone back fun e he => by
    refine ⟨by rw [hentries]; simp [he], ?_⟩
    intro heid
    exact (List.nodup_cons.1 hbackKeys).1 (List.mem_map.2 ⟨e, he, heid⟩)
  have hread : asSnapshot? (id, record) = some snapshot := by
    simp [asSnapshot?, hdecode, Except.toOption]
  rw [hentries, List.filterMap_append, List.filter_append, hfront, List.nil_append,
    List.filterMap_cons_some hread, List.filter_cons_of_pos (by simpa using hid), hback]

/-! ## The end of a flush -/

/-- The writes that were handed to the backend, in order: the finished ones, and the one that is
under way. -/
def begun (s : Store) : List (String × UInt64) :=
  (s.attempts.map fun a => (a.tradeId, a.sequence)) ++
    match s.writer with
    | .writing id p _ => [(id, p.sequence)]
    | _ => []

/-- Writes of a trade are begun in the order of their sequences. -/
theorem Ascending.begun (h : Ascending s) :
    s.begun.Pairwise fun w w' => w.1 = w'.1 → w.2 ≤ w'.2 := by
  have hfinished : (s.attempts.map fun a => (a.tradeId, a.sequence)).Pairwise
      fun w w' => w.1 = w'.1 → w.2 ≤ w'.2 := List.pairwise_map.2 h.attempts
  unfold Store.begun
  split
  next id p held hwriter =>
    refine List.pairwise_append.2 ⟨hfinished, List.pairwise_singleton _ _, ?_⟩
    intro w hw w' hw' hid
    obtain ⟨a, ha, rfl⟩ := List.mem_map.1 hw
    rw [List.mem_singleton.1 hw'] at hid ⊢
    exact (h.writing id p held hwriter).2 a ha hid
  next =>
    rw [List.append_nil]
    exact hfinished

/-- A trade is stored as its newest snapshot once a flush is over that was called after the request
for it, unless something as new was handed in later or a write failed. -/
theorem Run.settled_of_flushed {before after : List Action} {s₁ s : Store} {b₁ b : Backend}
    (h₁ : Run {} b₀ before s₁ b₁) (h : Run s₁.flush.1 b₁ after s b)
    (hflushed : s.isFlushed s₁.flush.2 = true) (hlatest : Latest (requests before) s₁ b₁)
    (ht : newest? (requests before) id = some t)
    (holder : ∀ r ∈ requests after, r.id = id → r.sequence < t.sequence)
    (hsucceeded : ∀ a ∈ s.attempts, a.tradeId = id → a.succeeded = true) :
    ∃ record, t.toSnapshot.encode = .ok record ∧ Settled id record s b := by
  obtain ⟨early, late, s₂, b₂, rfl, hearly, hlate, hquiet⟩ :=
    h.exists_quiet (h₁.queued queued_new) hflushed
  rw [requests_append] at holder
  obtain ⟨hgreatest, record, hrecord, hholds⟩ := hlatest.newest id t ht
  -- whatever is handed in later is superseded
  have hsuperseded : ∀ r ∈ requests early ++ requests late, r.id = id →
      s₁.flush.1.Superseded id r.sequence := fun r hr hid => by
    have hflush := (act_keeps (s₁.act_flush b₁)).1 fun _ => nofun
    exact ⟨t.sequence, by rw [hflush, hgreatest], holder r hr hid⟩
  -- the snapshot was held when the flush began, so that it is settled at the quiet moment
  have hbegin : Holds id record s₁.flush.1 b₁ :=
    hholds.act (s₁.act_flush b₁) fun t ht => by cases ht
  have hquietly := (hearly.holds hbegin fun r hr =>
    hsuperseded r (List.mem_append_left _ hr)).settled_of_quiet hquiet fun a ha =>
      hsucceeded a (hlate.attempts_subset ha)
  refine ⟨record, hrecord, hlate.settled hquietly fun r hr hid => ?_⟩
  exact hearly.superseded (hsuperseded r (List.mem_append_right _ hr) hid)

/-- Writes of a trade never go back, and a record is at least as new as every accepted write. A
flush that is over has seen the answer to every ticket handed out before it. A trade that was not
handed in again since then is stored as its newest snapshot, if none of its writes failed, and that
is also what is read back of it: the very snapshot, unless it names a leap second. -/
theorem flush_converges {before : List Action} {s₁ : Store} {b₁ : Backend}
    (h₁ : Run {} b₀ before s₁ b₁) :
    (s₁.begun.Pairwise fun w w' => w.1 = w'.1 → w.2 ≤ w'.2) ∧ Upheld s₁ b₁ ∧
    ∀ after s b, Run s₁.flush.1 b₁ after s b → s.isFlushed s₁.flush.2 = true →
      (∀ n < s₁.issued, s.Answered n) ∧
      (s₁.closed = false → (∀ t ∈ requests (before ++ after), t.Storable) →
        ∀ r ∈ requests before, (∀ t ∈ requests after, t.id ≠ r.id) →
        (∀ a ∈ s.attempts, a.tradeId = r.id → a.succeeded = true) →
        ∃ t, Newest (requests before) t ∧ t.id = r.id ∧
          (∃ record, t.toSnapshot.encode = .ok record ∧ b.records.get? r.id = some record) ∧
          (b.refusesReads = none →
            (∀ id record snapshot, b₀.records.get? id = some record →
              Snapshot.decode record = .ok snapshot → snapshot.tradeId ≠ r.id) →
            ∃ all, b.loadAll = .ok all ∧
              all.filter (·.tradeId = r.id) = [t.toSnapshot.recorded] ∧
              (t.toSnapshot.recorded = t.toSnapshot ↔ t.toSnapshot.Plain))) := by
  refine ⟨h₁.reachable.ascending.begun, h₁.reachable.upheld, ?_⟩
  intro after s b h hflushed
  have hqueued := h₁.queued queued_new
  constructor
  · -- every ticket has its answer at the quiet moment
    intro n hn
    obtain ⟨early, late, s₂, b₂, -, hearly, hlate, hquiet⟩ := h.exists_quiet hqueued hflushed
    have haccounted : Accounted s₂ := hearly.accounted
      ((h₁.accounted accounted_new).act (s₁.act_flush b₁))
    have hissued : s₁.issued ≤ s₁.flush.1.issued := (answers_grow (s₁.act_flush b₁)).2
    have hn₂ : n < s₂.issued :=
      Nat.lt_of_lt_of_le hn (Nat.le_trans hissued hearly.issued_le)
    exact hlate.answered (haccounted.answered hquiet hn₂)
  · intro hopen hstorable r hr hother hsucceeded
    rw [requests_append] at hstorable
    have hencode : ∀ t ∈ requests before, ∃ record, t.toSnapshot.encode = .ok record := by
      intro t ht
      exact ⟨_, Snapshot.encode_eq_ok (hstorable t (List.mem_append_left _ ht)).toSnapshot⟩
    obtain ⟨t, ht⟩ := exists_newest? hr
    obtain ⟨hid, hnewest⟩ := newest_of_newest?_eq_some ht
    obtain ⟨record, hrecord, hsettled⟩ :=
      h₁.settled_of_flushed h hflushed (h₁.latest hopen hencode) ht
        (fun r hr hrid => absurd hrid (hother r hr)) hsucceeded
    refine ⟨t, hnewest, hid, ⟨record, hrecord, hsettled.record⟩, fun hreads hforeign => ?_⟩
    have htmem : t ∈ requests before := by
      obtain ⟨earlier, later, hsplit, -⟩ := hnewest
      rw [hsplit]
      simp
    have hself := hstorable t (List.mem_append_left _ htmem)
    suffices hothers : ∀ id' record' snapshot, id' ≠ r.id → b.records.get? id' = some record' →
        Snapshot.decode record' = .ok snapshot → snapshot.tradeId ≠ r.id by
      obtain ⟨all, hall, hfilter⟩ :=
        filter_loadAll hreads hsettled.record (hself.decode_eq_ok hrecord) hid hothers
      exact ⟨all, hall, hfilter, hself.toSnapshot.recorded_eq_self_iff⟩
    intro id record' snapshot hne hrecord' hread
    -- any other record was there before, or is the snapshot of another trade
    have hwhole : Run {} b₀ ((before ++ [.flush]) ++ after) s b :=
      (Run.concat h₁ rfl).trans h
    rcases hwhole.drawn.records id with hsame | ⟨record'', hrecord'', t', ht', hid', hencode'⟩
    · exact hforeign id record' snapshot (hsame ▸ hrecord') hread
    · rw [hrecord'] at hrecord''
      cases hrecord''
      have hstorable' : t'.Storable := hstorable t' (by simpa [requests] using ht')
      rw [hstorable'.decode_eq_ok hencode'] at hread
      cases hread
      exact fun heq => hne (hid'.symm.trans heq)

/-- An older request that joins a newer one is answered with it, and the newer one is stored. -/
theorem older_request_joins_newer :
    ∃ s₁ b₁ after s b record, Run {} {} [.schedule (tradeAt 1), .schedule (tradeAt 0)] s₁ b₁ ∧
      Run s₁.flush.1 b₁ after s b ∧ s.isFlushed s₁.flush.2 = true ∧ s.Answered 0 ∧ s.Answered 1 ∧
      (tradeAt 1).toSnapshot.encode = .ok record ∧ b.records.get? "trade_1" = some record := by
  let before : List Action := [.schedule (tradeAt 1), .schedule (tradeAt 0)]
  let s₁ : Store := ((({} : Store).schedule (tradeAt 1)).1.schedule (tradeAt 0)).1
  have h₁ : Run {} {} before s₁ {} := .concat (.concat .nil rfl) rfl
  obtain ⟨s, b, h, hflushed, hattempts⟩ : ∃ s b,
      Run s₁.flush.1 {} [.write, .write, .write] s b ∧ s.isFlushed s₁.flush.2 = true ∧
        s.attempts = [⟨"trade_1", 1, true⟩] :=
    ⟨_, _, .concat (.concat (.concat .nil rfl) rfl) rfl, rfl, rfl⟩
  obtain ⟨-, -, hall⟩ := flush_converges h₁
  obtain ⟨hanswered, hstored⟩ := hall _ s b h hflushed
  have hstorable : ∀ t ∈ requests (before ++ [.write, .write, .write]), t.Storable := by
    intro t ht
    have ht' : t ∈ [tradeAt 1, tradeAt 0] := ht
    simp only [List.mem_cons, List.not_mem_nil, or_false] at ht'
    rcases ht' with rfl | rfl <;> exact storable_tradeAt _
  obtain ⟨t, hnewest, -, ⟨record, hrecord, hget⟩, -⟩ := hstored rfl hstorable (tradeAt 1)
    List.mem_cons_self (fun t ht => absurd ht List.not_mem_nil) fun a ha _ => by
      rw [hattempts] at ha
      rw [List.mem_singleton.1 ha]
  -- the older request does not lead
  have ht : t = tradeAt 1 := by
    obtain ⟨earlier, later, hsplit, hleads, -⟩ := hnewest
    change [tradeAt 1, tradeAt 0] = earlier ++ t :: later at hsplit
    match earlier with
    | [] => exact (List.cons.inj hsplit).1.symm
    | [e] =>
      obtain ⟨rfl, hrest⟩ := List.cons.inj hsplit
      obtain ⟨rfl, -⟩ := List.cons.inj hrest
      exact absurd (hleads _ List.mem_cons_self rfl) (by decide)
    | e :: e' :: more =>
      obtain ⟨-, hrest⟩ := List.cons.inj hsplit
      obtain ⟨-, hnothing⟩ := List.cons.inj hrest
      simp at hnothing
  subst ht
  exact ⟨s₁, {}, _, s, b, record, h₁, h, hflushed, hanswered 0 (by decide), hanswered 1 (by decide),
    hrecord, hget⟩

/-- A trade that was moved last in a leap second. -/
def movedInLeapSecond : Trade := { tradeAt 0 with updatedAt := Snapshot.inLeapSecond }

/-- A snapshot that names a leap second is stored, but what is read back of it names half a second
into the next minute. -/
theorem leap_second_is_read_as_another :
    ∃ s₁ s b all, Run {} {} [.schedule movedInLeapSecond] s₁ {} ∧
      Run s₁.flush.1 {} [.write, .write, .write] s b ∧ s.isFlushed s₁.flush.2 = true ∧
      s.attempts = [⟨"trade_1", 0, true⟩] ∧ b.loadAll = .ok all ∧
      all.filter (·.tradeId = "trade_1") ≠ [movedInLeapSecond.toSnapshot] ∧
      movedInLeapSecond.updatedAt.text = "1970-01-01 00:00:60.500 UTC" ∧
      (all.filter (·.tradeId = "trade_1")).map (·.updatedAt.text) =
        ["1970-01-01 00:01:00.500 UTC"] := by
  have h₁ : Run {} {} [.schedule movedInLeapSecond]
      (({} : Store).schedule movedInLeapSecond).1 {} := .concat .nil rfl
  obtain ⟨s, b, h, hflushed, hattempts, hreads, hkeys⟩ : ∃ s b,
      Run (({} : Store).schedule movedInLeapSecond).1.flush.1 {} [.write, .write, .write] s b ∧
        s.isFlushed (({} : Store).schedule movedInLeapSecond).1.flush.2 = true ∧
        s.attempts = [⟨"trade_1", 0, true⟩] ∧ b.refusesReads = none ∧ b.records.keys = ["trade_1"] :=
    ⟨_, _, .concat (.concat (.concat .nil rfl) rfl) rfl, rfl, rfl, rfl, rfl⟩
  have ht : movedInLeapSecond.Storable := { storable_tradeAt 0 with updatedAt := by decide }
  have hencode : ∀ r ∈ requests [.schedule movedInLeapSecond],
      ∃ record, r.toSnapshot.encode = .ok record := by
    intro r hr
    rw [List.mem_singleton.1 hr]
    exact ⟨_, Snapshot.encode_eq_ok ht.toSnapshot⟩
  have hnewest : newest? (requests [.schedule movedInLeapSecond]) "trade_1" =
      some movedInLeapSecond := rfl
  obtain ⟨record, hrecord, hsettled⟩ := h₁.settled_of_flushed h hflushed (h₁.latest rfl hencode)
    hnewest (fun _ hr => absurd hr List.not_mem_nil) fun a ha _ => by
      rw [hattempts] at ha
      rw [List.mem_singleton.1 ha]
  have hothers {id : String} {record : Bytes} (hne : id ≠ "trade_1")
      (hrecord : b.records.get? id = some record) : False := by
    have hmem : id ∈ b.records.keys := List.mem_map.2 ⟨_, Dict.get?_eq_some_iff.1 hrecord, rfl⟩
    rw [hkeys, List.mem_singleton] at hmem
    exact hne hmem
  obtain ⟨all, hall, hfilter⟩ := filter_loadAll hreads hsettled.record (ht.decode_eq_ok hrecord) rfl
    fun _ _ _ hne hother _ => (hothers hne hother).elim
  refine ⟨_, s, b, all, h₁, h, hflushed, hattempts, hall, ?_, by decide, ?_⟩
  · rw [hfilter]
    intro hsame
    have hplain := ht.toSnapshot.recorded_eq_self_iff.1 (List.cons.inj hsame).1
    exact absurd hplain.updatedAt (by decide)
  · rw [hfilter]
    decide

end PeerTrade.Store
