import PeerTrade.Proofs.Node.Lives

/-!
# Resuming what the store holds

Every record that can be read is restored, or passed over because its trade is live, or skipped with
an error; nothing else makes a difference. The trades that are brought back get new workers and new
timers, so that those who were there before are left alone (`Node.Restores`). What a whole resumption
does is what it does record by record, by induction on the records.
-/

namespace PeerTrade.Node

variable {n n' n'' m : Node} {now : Time} {k : Nat} {w : Worker} {t : Trade}

/-! ## Timers for the deadlines of a new worker -/

/-- The timer of a worker for a deadline, set now. -/
def timerFor (now : Time) (k : Nat) (d : Deadline) : Timer :=
  ⟨d.id, k, now.due (d.expiresAt.remaining now.date), false⟩

/-- Only workers and timers can differ, and who is awake. -/
structure Elsewhere (n n' : Node) : Prop where
  name : n'.name = n.name
  engine : n'.engine = n.engine
  settings : n'.settings = n.settings
  backend : n'.backend = n.backend
  store : n'.store = n.store
  link : n'.link = n.link
  board : n'.board = n.board
  reporters : n'.reporters = n.reporters
  replies : n'.replies = n.replies
  called : n'.called = n.called

theorem Elsewhere.refl (n : Node) : n.Elsewhere n :=
  ⟨rfl, rfl, rfl, rfl, rfl, rfl, rfl, rfl, rfl, rfl⟩

theorem Elsewhere.trans (h : n.Elsewhere n') (h' : n'.Elsewhere n'') : n.Elsewhere n'' :=
  ⟨h'.name.trans h.name, h'.engine.trans h.engine, h'.settings.trans h.settings,
    h'.backend.trans h.backend, h'.store.trans h.store, h'.link.trans h.link,
    h'.board.trans h.board, h'.reporters.trans h.reporters, h'.replies.trans h.replies,
    h'.called.trans h.called⟩

/-- Numbers are given out in order, to workers and to timers. -/
structure Counted (n : Node) : Prop where
  workers : ∀ k w, n.workers.get? k = some w → k < n.started
  timers : ∀ i timer, n.timers.get? i = some timer → i < n.timed ∧ timer.worker < n.started

/-- A kind of deadline that has no timer yet gets one beside the others. -/
theorem startTimer_of_free (hk : n.workers.get? k = some w) {d : Deadline}
    (hfree : w.timers.get? d.id.kind = none) (now : Time) :
    n.startTimer now k d.id (d.expiresAt.remaining now.date) =
      (n.withTimer k w d.id (timerFor now k d).due).wake [.timer n.timed] := by
  have hstop : n.stopTimer k d.id.kind = n := by simp [stopTimer, hk, hfree]
  simp only [startTimer, hstop, hk]
  rfl

/-- The timers of some deadlines, one after the other under the next numbers. -/
structure Armed (n n' : Node) (now : Time) (k : Nat) (w : Worker) (ds : List Deadline) : Prop where
  elsewhere : n.Elsewhere n'
  live : n'.live = n.live
  started : n'.started = n.started
  timed : n'.timed = n.timed + ds.length
  others : ∀ k', k' ≠ k → n'.workers.get? k' = n.workers.get? k'
  worker : ∃ timers, n'.workers.get? k = some { w with timers } ∧
    (∀ j d, ds[j]? = some d → timers.get? d.id.kind = some (n.timed + j)) ∧
    ∀ kind, (∀ d ∈ ds, d.id.kind ≠ kind) → timers.get? kind = w.timers.get? kind
  timers : ∀ i, n'.timers.get? i =
    if i < n.timed then n.timers.get? i else (ds[i - n.timed]?).map (timerFor now k)

theorem armed_nil (hnumbers : ∀ i timer, n.timers.get? i = some timer → i < n.timed)
    (hk : n.workers.get? k = some w) : n.Armed n now k w [] where
  elsewhere := .refl n
  live := rfl
  started := rfl
  timed := rfl
  others _ _ := rfl
  worker := ⟨w.timers, hk, by simp, fun _ _ => rfl⟩
  timers i := by
    split
    · rfl
    next hlate =>
      cases htimer : n.timers.get? i with
      | none => rfl
      | some timer => exact absurd (hnumbers i timer htimer) hlate

/-- The timer of a deadline, and then those of the others. -/
theorem Armed.cons {d : Deadline} {rest : List Deadline}
    (h : Armed ((n.withTimer k w d.id (timerFor now k d).due).wake [.timer n.timed]) n' now k
      { w with timers := w.timers.insert d.id.kind n.timed } rest)
    (hfirst : ∀ d' ∈ rest, d.id.kind ≠ d'.id.kind) : n.Armed n' now k w (d :: rest) where
  elsewhere := by
    let m := (n.withTimer k w d.id (timerFor now k d).due).wake [.timer n.timed]
    have hnext : n.Elsewhere m := ⟨rfl, rfl, rfl, rfl, rfl, rfl, rfl, rfl, rfl, rfl⟩
    exact hnext.trans h.elsewhere
  live := h.live
  started := h.started
  timed := by
    rw [h.timed, List.length_cons]
    show n.timed + 1 + rest.length = _
    omega
  others k' hne := (h.others k' hne).trans
    ((n.get?_workers_withTimer k w d.id (timerFor now k d).due k').trans (if_neg hne))
  worker := by
    obtain ⟨timers, hk', hnew, hold⟩ := h.worker
    refine ⟨timers, hk', fun j d' hj => ?_, fun kind hkind => ?_⟩
    · cases j with
      | zero =>
        obtain rfl : d = d' := Option.some.inj hj
        rw [hold _ fun d' hd' => (hfirst d' hd').symm, get?_timers_insert, if_pos rfl]
        rfl
      | succ j =>
        rw [hnew j d' hj]
        show some (n.timed + 1 + j) = _
        rw [Nat.add_right_comm, Nat.add_assoc]
    · rw [hold kind fun d' hd' => hkind d' (List.mem_cons_of_mem _ hd'), get?_timers_insert,
        if_neg (hkind d List.mem_cons_self).symm]
  timers i := by
    rw [h.timers]
    show (if i < n.timed + 1 then (n.withTimer k w d.id (timerFor now k d).due).timers.get? i
      else (rest[i - (n.timed + 1)]?).map _) = _
    rw [n.get?_timers_withTimer]
    obtain hlt | rfl | hgt := Nat.lt_trichotomy i n.timed
    · rw [if_pos (Nat.lt_succ_of_lt hlt), if_neg (Nat.ne_of_lt hlt), if_pos hlt]
    · simp [timerFor]
    · rw [if_neg (by omega), if_neg (by omega), List.getElem?_cons, if_neg (by omega),
        Nat.sub_sub]

theorem armed_startTimers (ds : List Deadline) (now : Time)
    (hnumbers : ∀ i timer, n.timers.get? i = some timer → i < n.timed)
    (hk : n.workers.get? k = some w) (hfree : ∀ d ∈ ds, w.timers.get? d.id.kind = none)
    (hkinds : ds.Pairwise fun d d' => d.id.kind ≠ d'.id.kind) :
    Armed n (ds.foldl (fun n d => n.startTimer now k d.id (d.expiresAt.remaining now.date)) n)
      now k w ds := by
  induction ds generalizing n w with
  | nil => exact armed_nil hnumbers hk
  | cons d rest ih =>
    obtain ⟨hfirst, hrest⟩ := List.pairwise_cons.1 hkinds
    rw [List.foldl_cons, startTimer_of_free hk (hfree d List.mem_cons_self)]
    refine .cons (ih (fun i timer htimer => ?_) ?_ (fun d' hd' => ?_) hrest) hfirst
    · -- the new timer has the next number
      change (n.withTimer k w d.id (timerFor now k d).due).timers.get? i = some timer at htimer
      rw [n.get?_timers_withTimer] at htimer
      show i < n.timed + 1
      split at htimer
      next heq => exact heq ▸ Nat.lt_succ_self _
      next => exact Nat.lt_succ_of_lt (hnumbers i timer htimer)
    · exact (n.get?_workers_withTimer k w d.id (timerFor now k d).due k).trans (if_pos rfl)
    · show (w.timers.insert d.id.kind n.timed).get? d'.id.kind = none
      rw [get?_timers_insert, if_neg (hfirst d' hd').symm]
      exact hfree d' (List.mem_cons_of_mem _ hd')

/-! ## Taking a stored trade on -/

/-- A worker runs a trade as it was taken on: nothing has been read or is left to do, and there is
one timer for each deadline that is armed, by which it can be stopped again. -/
structure TakenOn (n : Node) (now : Time) (k : Nat) (t : Trade) : Prop where
  worker : ∃ timers first, n.workers.get? k =
      some { trade := t, mailbox := .new n.settings.mailboxCapacity.toNat, timers } ∧
    (∀ kind i, timers.get? kind = some i ↔
      ∃ j d, t.deadlines.values[j]? = some d ∧ d.id.kind = kind ∧ i = first + j) ∧
    ∀ i timer, n.timers.get? i = some timer ∧ timer.worker = k ↔
      ∃ j d, t.deadlines.values[j]? = some d ∧ i = first + j ∧ timer = timerFor now k d

/-- What is different after a stored trade has been taken on: it is live, with a worker of its own,
which begins. -/
structure TakesOn (n : Node) (now : Time) (t : Trade) (n' : Node) : Prop where
  elsewhere : n.Elsewhere n'
  counted : n'.Counted
  live : n'.live = n.live.insert t.id n.started
  started : n'.started = n.started + 1
  others : ∀ k, k ≠ n.started → n'.workers.get? k = n.workers.get? k
  timers : ∀ i timer, timer.worker ≠ n.started →
    (n'.timers.get? i = some timer ↔ n.timers.get? i = some timer)
  takenOn : n'.TakenOn now n.started t

theorem kind_of_liveId? (hkeyed : Trade.Keyed t.deadlines) (kind : DeadlineKind) (id : DeadlineId)
    (h : t.liveId? kind = some id) : id.kind = kind := by
  obtain ⟨d, hd, rfl⟩ := Option.map_eq_some_iff.1 h
  exact hkeyed _ (Dict.get?_eq_some_iff.1 hd)

theorem start_stored (h : n.start now t true = .ok n') :
    n.live.contains t.id = false ∧
      n' = (t.deadlines.values.foldl
        (fun m d => m.startTimer now n.started d.id (d.expiresAt.remaining now.date))
          (n.begin t true)).wake [.worker n.started] := by
  unfold start at h
  split at h
  · cases h
  next hfree =>
    cases h
    exact ⟨by simpa using hfree, rfl⟩

theorem live_of_start_error {e : NodeError} (h : n.start now t true = .error e) :
    n.live.contains t.id = true := by
  unfold start at h
  split at h
  · assumption
  · cases h

theorem get?_workers_begin (n : Node) (t : Trade) (isStored : Bool) (k : Nat) :
    (n.begin t isStored).workers.get? k = if k = n.started then
      some { trade := t, mailbox := .new n.settings.mailboxCapacity.toNat }
    else n.workers.get? k :=
  n.get?_setWorker n.started k _

/-- A new worker has started the timers of its trade. -/
abbrev Equipped (n : Node) (now : Time) (t : Trade) (m : Node) : Prop :=
  (n.begin t true).Armed m now n.started
    { trade := t, mailbox := .new n.settings.mailboxCapacity.toNat } t.deadlines.values

variable {i : Nat}

theorem Counted.equipped (h : n.Counted) (hkeyed : Trade.Keyed t.deadlines) (now : Time) :
    n.Equipped now t (t.deadlines.values.foldl
      (fun m d => m.startTimer now n.started d.id (d.expiresAt.remaining now.date))
        (n.begin t true)) :=
  armed_startTimers t.deadlines.values now (fun i timer htimer => (h.timers i timer htimer).1)
    ((n.get?_workers_begin t true n.started).trans (if_pos rfl)) (fun _ _ => rfl)
    (pairwise_values (kind_of_liveId? hkeyed))

/-- A number below the next one is that of a timer from before. -/
theorem Equipped.get?_of_lt (h : n.Equipped now t m) (hi : i < n.timed) :
    m.timers.get? i = n.timers.get? i :=
  (h.timers i).trans (if_pos hi)

theorem Equipped.get?_of_not_lt (h : n.Equipped now t m) (hi : ¬i < n.timed) :
    m.timers.get? i = (t.deadlines.values[i - n.timed]?).map (timerFor now n.started) :=
  (h.timers i).trans (if_neg hi)

theorem Equipped.get?_of_ne (h : n.Equipped now t m) (hne : k ≠ n.started) :
    m.workers.get? k = n.workers.get? k := by
  rw [h.others k hne, get?_workers_begin, if_neg hne]

theorem Equipped.counted (h : n.Equipped now t m) (hn : n.Counted) : m.Counted where
  workers k w hk := by
    rw [h.started]
    by_cases hne : k = n.started
    · exact hne ▸ Nat.lt_succ_self _
    · exact Nat.lt_succ_of_lt (hn.workers k w ((h.get?_of_ne hne).symm.trans hk))
  timers i timer htimer := by
    rw [h.timed, h.started]
    by_cases hi : i < n.timed
    · obtain ⟨-, hworker⟩ := hn.timers i timer ((h.get?_of_lt hi).symm.trans htimer)
      exact ⟨Nat.lt_add_right _ hi, Nat.lt_succ_of_lt hworker⟩
    · obtain ⟨d, hd, rfl⟩ := Option.map_eq_some_iff.1 ((h.get?_of_not_lt hi).symm.trans htimer)
      have := (List.getElem?_eq_some_iff.1 hd).1
      refine ⟨?_, Nat.lt_succ_self _⟩
      show i < n.timed + _
      omega

theorem Equipped.timers_iff (h : n.Equipped now t m) (hn : n.Counted) {timer : Timer}
    (hother : timer.worker ≠ n.started) :
    m.timers.get? i = some timer ↔ n.timers.get? i = some timer := by
  by_cases hi : i < n.timed
  · rw [h.get?_of_lt hi]
  · constructor
    · intro htimer
      obtain ⟨d, -, rfl⟩ := Option.map_eq_some_iff.1 ((h.get?_of_not_lt hi).symm.trans htimer)
      exact absurd rfl hother
    · exact fun htimer => absurd (hn.timers i timer htimer).1 hi

theorem Equipped.takenOn (h : n.Equipped now t m) (hn : n.Counted) :
    m.TakenOn now n.started t := by
  obtain ⟨timers, hk, hnew, hold⟩ := h.worker
  refine ⟨timers, n.timed, ?_, fun kind i => ⟨fun hi => ?_, ?_⟩, fun i timer => ⟨?_, ?_⟩⟩
  · rw [hk, h.elsewhere.settings]
    rfl
  · by_cases hkind : ∃ d ∈ t.deadlines.values, d.id.kind = kind
    · obtain ⟨d, hd, rfl⟩ := hkind
      obtain ⟨j, hj⟩ := List.mem_iff_getElem?.1 hd
      rw [hnew j d hj] at hi
      exact ⟨j, d, hj, rfl, (Option.some.inj hi).symm⟩
    · rw [hold kind fun d hd heq => hkind ⟨d, hd, heq⟩] at hi
      cases hi
  · rintro ⟨j, d, hj, rfl, rfl⟩
    exact hnew j d hj
  · rintro ⟨htimer, hworker⟩
    by_cases hi : i < n.timed
    · rw [h.get?_of_lt hi] at htimer
      exact absurd (hn.timers i timer htimer).2 (hworker ▸ Nat.lt_irrefl _)
    · obtain ⟨d, hd, rfl⟩ := Option.map_eq_some_iff.1 ((h.get?_of_not_lt hi).symm.trans htimer)
      exact ⟨i - n.timed, d, hd, by omega, rfl⟩
  · rintro ⟨j, d, hj, rfl, rfl⟩
    rw [h.get?_of_not_lt (by omega), Nat.add_sub_cancel_left, hj]
    exact ⟨rfl, rfl⟩

theorem Counted.takesOn (h : n.Counted) (hkeyed : Trade.Keyed t.deadlines)
    (hstart : n.start now t true = .ok n') : n.TakesOn now t n' := by
  obtain ⟨-, rfl⟩ := start_stored hstart
  have hequipped := h.equipped hkeyed now
  generalize t.deadlines.values.foldl _ (n.begin t true) = m at hequipped ⊢
  have hbegin : n.Elsewhere (n.begin t true) := ⟨rfl, rfl, rfl, rfl, rfl, rfl, rfl, rfl, rfl, rfl⟩
  have hwake : m.Elsewhere (m.wake [.worker n.started]) :=
    ⟨rfl, rfl, rfl, rfl, rfl, rfl, rfl, rfl, rfl, rfl⟩
  have hcounted := hequipped.counted h
  exact ⟨hbegin.trans (hequipped.elsewhere.trans hwake), ⟨hcounted.workers, hcounted.timers⟩,
    hequipped.live, hequipped.started, fun k hne => hequipped.get?_of_ne hne,
    fun i timer hother => hequipped.timers_iff h hother, ⟨(hequipped.takenOn h).worker⟩⟩

/-- What is taken on later leaves the other workers and their timers alone. -/
theorem TakenOn.takesOn {t' : Trade} (h : n.TakenOn now k t) (hne : k ≠ n.started)
    (htakes : n.TakesOn now t' n') : n'.TakenOn now k t := by
  obtain ⟨timers, first, hk, hkinds, htimers⟩ := h.worker
  refine ⟨timers, first, ?_, hkinds, fun i timer => ?_⟩
  · rw [htakes.others k hne, htakes.elsewhere.settings, hk]
  · rw [← htimers]
    refine and_congr_left fun hworker => htakes.timers i timer ?_
    rwa [hworker]

/-! ## Record by record -/

/-- The ids of the trades that snapshots bring back, if they are not live already. -/
def restorable (n : Node) (snapshots : List Snapshot) : List String :=
  ((snapshots.filter fun s => (n.engine.restore s).isOk).map (·.tradeId)).filter
    fun id => !n.live.contains id

/-- The error with which a snapshot is refused, if it is. -/
def refusal? (n : Node) (s : Snapshot) : Option (String × SetupError) :=
  match n.engine.restore s with
  | .error e => some (s.tradeId, e)
  | .ok _ => none

/-- What has become of some snapshots, read one after the other. -/
structure Restores (n : Node) (now : Time) (snapshots : List Snapshot) (n' : Node)
    (r : Resumption) : Prop where
  /-- Those that are refused are skipped, with the error. -/
  skipped : r.skipped = snapshots.filterMap n.refusal?
  /-- Of the others, the first one of each trade that is not live brings it back. -/
  resumed : r.resumed = (n.restorable snapshots).eraseDups
  nodup : r.resumed.Nodup
  started : n.started ≤ n'.started
  /-- Live are those who were live, and the resumed ones. -/
  live : ∀ id, n'.live.contains id = true ↔ n.live.contains id = true ∨ id ∈ r.resumed
  /-- Whoever was live has the worker it had. -/
  kept : ∀ id k, n.live.get? id = some k → n'.live.get? id = some k
  /-- No worker that was there has changed, and all others run resumed trades. -/
  workers : ∀ k w, n'.workers.get? k = some w ↔ n.workers.get? k = some w ∨
    n'.workers.get? k = some w ∧ n.started ≤ k ∧ ∃ id ∈ r.resumed, n'.live.get? id = some k
  /-- No timer that was there has changed, and all others belong to new workers. -/
  timers : ∀ i timer, n'.timers.get? i = some timer ↔ n.timers.get? i = some timer ∨
    n'.timers.get? i = some timer ∧ n.started ≤ timer.worker
  /-- A resumed trade is what was restored of the first snapshot of it that could be, and has a
  timer for each of its deadlines. -/
  takenOn : ∀ id ∈ r.resumed, ∃ before s after t k, snapshots = before ++ s :: after ∧
    s.tradeId = id ∧ (∀ s' ∈ before, s'.tradeId = id → (n.engine.restore s').isOk = false) ∧
    n.engine.restore s = .ok t ∧ n'.live.get? id = some k ∧ n.started ≤ k ∧ n'.TakenOn now k t
  /-- Nothing is handed in or posted, and nobody is answered. -/
  elsewhere : n.Elsewhere n'

theorem restores_nil (n : Node) (now : Time) : n.Restores now [] n {} where
  skipped := rfl
  resumed := rfl
  nodup := .nil
  started := Nat.le_refl _
  live id := by simp
  kept _ _ h := h
  workers k w := by simp
  timers i timer := ⟨.inl, fun h => h.elim id (·.1)⟩
  takenOn id hid := absurd hid List.not_mem_nil
  elsewhere := .refl n

variable {snapshots : List Snapshot} {r : Resumption} {s : Snapshot}

theorem restorable_concat (n : Node) (snapshots : List Snapshot) (s : Snapshot) :
    n.restorable (snapshots ++ [s]) = n.restorable snapshots ++ n.restorable [s] := by
  simp [restorable]

theorem restorable_of_live (hlive : n.live.contains s.tradeId = true) : n.restorable [s] = [] := by
  rw [restorable, List.filter_eq_nil_iff]
  intro id hid
  obtain ⟨s', hs', rfl⟩ := List.mem_map.1 hid
  obtain rfl : s' = s := List.mem_singleton.1 (List.mem_of_mem_filter hs')
  simp [hlive]

theorem restorable_of_free (hrestore : n.engine.restore s = .ok t)
    (hfree : n.live.contains s.tradeId = false) : n.restorable [s] = [s.tradeId] := by
  simp [restorable, hrestore, hfree, Except.isOk, Except.toBool]

theorem id_of_restore (h : n.engine.restore s = .ok t) : t.id = s.tradeId := by
  obtain ⟨-, -, -, -, -, rfl⟩ := Trade.restore_eq_ok_iff.1 h
  rfl

theorem keyed_of_restore (h : n.engine.restore s = .ok t) : Trade.Keyed t.deadlines := by
  obtain ⟨-, -, -, -, -, rfl⟩ := Trade.restore_eq_ok_iff.1 h
  exact Trade.keyed_ofList _

/-- A snapshot that is refused is added to those that are skipped. -/
theorem Restores.refused (h : n.Restores now snapshots n' r) {e : SetupError}
    (hrestore : n.engine.restore s = .error e) :
    n.Restores now (snapshots ++ [s]) n' { r with skipped := r.skipped ++ [(s.tradeId, e)] } := by
  have hnone : n.restorable [s] = [] := by simp [restorable, hrestore, Except.isOk, Except.toBool]
  refine { h with skipped := ?_, resumed := ?_, takenOn := fun id hid => ?_ }
  · simp [h.skipped, refusal?, hrestore]
  · rw [restorable_concat, hnone, List.append_nil, ← h.resumed]
  · obtain ⟨before, s', after, t, k, rfl, htaken⟩ := h.takenOn id hid
    exact ⟨before, s', after ++ [s], t, k, by simp, htaken⟩

/-- A snapshot of a live trade is passed over. -/
theorem Restores.passedOver (h : n.Restores now snapshots n' r)
    (hrestore : n.engine.restore s = .ok t) (hlive : n'.live.contains s.tradeId = true) :
    n.Restores now (snapshots ++ [s]) n' r := by
  refine { h with skipped := ?_, resumed := ?_, takenOn := fun id hid => ?_ }
  · simp [h.skipped, refusal?, hrestore]
  · rw [restorable_concat]
    cases hbefore : n.live.contains s.tradeId with
    | true => rw [restorable_of_live hbefore, List.append_nil, ← h.resumed]
    | false =>
      -- it has been resumed from an earlier record
      have hresumed := ((h.live _).1 hlive).resolve_left (by simp [hbefore])
      rw [h.resumed, List.mem_eraseDups] at hresumed
      rw [restorable_of_free hrestore hbefore, List.eraseDups_append, ← h.resumed]
      simp [List.cons_removeAll, hresumed]
  · obtain ⟨before, s', after, t, k, rfl, htaken⟩ := h.takenOn id hid
    exact ⟨before, s', after ++ [s], t, k, by simp, htaken⟩

namespace TakesOn

theorem get?_live (h : n'.TakesOn now t n'') (id : String) :
    n''.live.get? id = if id = t.id then some n'.started else n'.live.get? id := by
  rw [h.live, Dict.get?_insert]
  simp

/-- Whoever is live stays so, with the same worker. -/
theorem stays_live (h : n'.TakesOn now t n'') (hfree : n'.live.contains t.id = false) {id : String}
    (hk : n'.live.get? id = some k) : n''.live.get? id = some k := by
  rw [h.get?_live, if_neg, hk]
  rintro rfl
  simp [Dict.contains, hk] at hfree

/-- No worker that is there changes. -/
theorem stays (h : n'.TakesOn now t n'') (hcounted : n'.Counted)
    (hk : n'.workers.get? k = some w) : n''.workers.get? k = some w :=
  (h.others k (Nat.ne_of_lt (hcounted.workers k w hk))).trans hk

end TakesOn

/-- What has not been brought back yet is restorable for the first time. -/
theorem Restores.resumed_concat (h : n.Restores now snapshots n' r)
    (hrestore : n.engine.restore s = .ok t) (hbefore : n.live.contains s.tradeId = false)
    (hfresh : s.tradeId ∉ r.resumed) :
    r.resumed ++ [s.tradeId] = (n.restorable (snapshots ++ [s])).eraseDups := by
  have hnone : s.tradeId ∉ n.restorable snapshots := by
    rwa [h.resumed, List.mem_eraseDups] at hfresh
  rw [restorable_concat, restorable_of_free hrestore hbefore, List.eraseDups_append, ← h.resumed]
  simp [List.cons_removeAll, hnone, List.eraseDups_cons]

theorem Restores.refused_before (h : n.Restores now snapshots n' r)
    (hbefore : n.live.contains s.tradeId = false) (hfresh : s.tradeId ∉ r.resumed) :
    ∀ s' ∈ snapshots, s'.tradeId = s.tradeId → (n.engine.restore s').isOk = false := by
  intro s' hs' hid
  by_contra haccepted
  refine hfresh ?_
  rw [h.resumed, List.mem_eraseDups, restorable]
  simp only [List.mem_filter, List.mem_map]
  exact ⟨⟨s', ⟨hs', by simpa using haccepted⟩, hid⟩, by simpa using hbefore⟩

/-- A snapshot of a trade that is not live brings it back. -/
theorem Restores.takesOn (h : n.Restores now snapshots n' r) (hcounted : n'.Counted)
    (hrestore : n.engine.restore s = .ok t) (hfree : n'.live.contains s.tradeId = false)
    (htakes : n'.TakesOn now t n'') :
    n.Restores now (snapshots ++ [s]) n'' { r with resumed := r.resumed ++ [s.tradeId] } := by
  obtain ⟨hnone, hfresh⟩ := not_or.1 ((h.live s.tradeId).not.1 (by simp [hfree]))
  have hbefore : n.live.contains s.tradeId = false := by simpa using hnone
  have hid : t.id = s.tradeId := id_of_restore hrestore
  have hlive : n''.live.get? s.tradeId = some n'.started :=
    (htakes.get?_live _).trans (if_pos hid.symm)
  have hstays {id : String} {k : Nat} (hk : n'.live.get? id = some k) :
      n''.live.get? id = some k := htakes.stays_live (hid ▸ hfree) hk
  exact {
    skipped := by simp [h.skipped, refusal?, hrestore]
    resumed := h.resumed_concat hrestore hbefore hfresh
    nodup := List.nodup_append.2 ⟨h.nodup, List.nodup_cons.2 ⟨List.not_mem_nil, .nil⟩, by
      rintro id hmem _ hs rfl
      exact hfresh (List.mem_singleton.1 hs ▸ hmem)⟩
    started := by
      rw [htakes.started]
      exact Nat.le_succ_of_le h.started
    live := by
      intro id
      rw [Dict.contains, htakes.get?_live, hid]
      by_cases hself : id = s.tradeId
      · simp [hself]
      · rw [if_neg hself, ← Dict.contains, h.live]
        simp [hself]
    kept := fun id k hk => hstays (h.kept id k hk)
    workers := by
      intro k w
      constructor
      · intro hk
        -- a worker that is not one of the old ones begins now, or has begun before
        by_cases hself : k = n'.started
        · subst hself
          exact .inr ⟨hk, h.started, s.tradeId, by simp, hlive⟩
        · rw [htakes.others k hself] at hk
          obtain hold | ⟨-, hlate, id, hmem, hk'⟩ := (h.workers k w).1 hk
          · exact .inl hold
          · exact .inr ⟨htakes.stays hcounted hk, hlate, id, List.mem_append_left _ hmem,
              hstays hk'⟩
      · rintro (hk | ⟨hk, -⟩)
        · exact htakes.stays hcounted ((h.workers k w).2 (.inl hk))
        · exact hk
    timers := by
      intro i timer
      constructor
      · intro htimer
        by_cases hself : timer.worker = n'.started
        · exact .inr ⟨htimer, hself ▸ h.started⟩
        · exact ((h.timers i timer).1 ((htakes.timers i timer hself).1 htimer)).imp_right
            fun hlate => ⟨htimer, hlate.2⟩
      · rintro (htimer | ⟨htimer, -⟩)
        · have hkept := (h.timers i timer).2 (.inl htimer)
          exact (htakes.timers i timer (Nat.ne_of_lt (hcounted.timers i timer hkept).2)).2 hkept
        · exact htimer
    takenOn := by
      intro id hmem
      obtain hmem | rfl := by simpa using hmem
      · -- what was taken on before is left alone
        obtain ⟨before, s', after, t', k, rfl, hs', hfirst, hrestore', hk, hlate, htaken⟩ :=
          h.takenOn id hmem
        obtain ⟨_, _, hworker, -⟩ := htaken.worker
        have hne := Nat.ne_of_lt (hcounted.workers k _ hworker)
        exact ⟨before, s', after ++ [s], t', k, by simp, hs', hfirst, hrestore', hstays hk, hlate,
          htaken.takesOn hne htakes⟩
      · exact ⟨snapshots, s, [], t, n'.started, rfl, rfl, h.refused_before hbefore hfresh, hrestore,
          hlive, h.started, htakes.takenOn⟩
    elsewhere := h.elsewhere.trans htakes.elsewhere }

/-- What resuming does is done snapshot by snapshot. -/
theorem Counted.restores (hn : n.Counted) (now : Time) (snapshots : List Snapshot) :
    ∃ n' r, snapshots.foldl (resumeOne now) (n, {}) = (n', r) ∧ n'.Counted ∧
      n.Restores now snapshots n' r := by
  induction snapshots using List.reverseRecOn with
  | nil => exact ⟨n, {}, rfl, hn, restores_nil n now⟩
  | append_singleton snapshots s ih =>
    obtain ⟨n', r, hfold, hcounted, h⟩ := ih
    rw [List.foldl_append, List.foldl_cons, List.foldl_nil, hfold]
    have hengine : n'.engine = n.engine := h.elsewhere.engine
    cases hrestore : n.engine.restore s with
    | error e =>
      refine ⟨n', { r with skipped := r.skipped ++ [(s.tradeId, e)] }, ?_, hcounted,
        h.refused hrestore⟩
      simp only [resumeOne, hengine, hrestore]
    | ok t =>
      cases hstart : n'.start now t true with
      | error e =>
        refine ⟨n', r, ?_, hcounted, h.passedOver hrestore ?_⟩
        · simp only [resumeOne, hengine, hrestore, hstart]
        · rw [← id_of_restore hrestore]
          exact live_of_start_error hstart
      | ok n'' =>
        have htakes := hcounted.takesOn (keyed_of_restore hrestore) hstart
        refine ⟨n'', { r with resumed := r.resumed ++ [s.tradeId] }, ?_, htakes.counted,
          h.takesOn hcounted hrestore ?_ htakes⟩
        · simp only [resumeOne, hengine, hrestore, hstart]
        · rw [← id_of_restore hrestore]
          exact (start_stored hstart).1

/-! ## Every node and every backend -/

variable {x : Watched}

theorem Watched.Reachable.counted (h : x.Reachable) : x.node.Counted := by
  obtain ⟨⟨book, hbook⟩, hregistered⟩ := h.onTime.punctual
  refine ⟨h.linear.known, fun i timer htimer => ⟨(hbook.timer i timer htimer).1, ?_⟩⟩
  obtain ⟨w, hw, -⟩ := hregistered i timer htimer
  exact h.linear.known _ w hw

/-- Whatever its backend holds and whichever trades are live: a node brings back what can be
restored and is not live, in the order of the keys, says what it had to skip, and disturbs nobody.
If the records cannot be read, that is all that happens. -/
theorem resume_restores (h : x.Reachable) (b : Backend) (now : Time) :
    (∀ cause, b.readAll = .error cause →
      ({ x.node with backend := b } : Node).resume now = .error (.store cause)) ∧
    ∀ records, b.readAll = .ok records →
      (records.Pairwise fun a a' => compare a.1 a'.1 = .lt) ∧
      ∃ n' r, ({ x.node with backend := b } : Node).resume now = .ok (n', r) ∧
        Restores { x.node with backend := b } now (records.filterMap Store.asSnapshot?) n' r := by
  refine ⟨fun cause hcause => ?_, fun records hrecords => ?_⟩
  · rw [resume, show ({ x.node with backend := b } : Node).backend.loadAll = .error cause by
      simp only [Backend.loadAll, Backend.load, hcause]
      rfl]
    rfl
  · cases hreads : b.refusesReads with
    | some text =>
      rw [Backend.readAll, hreads] at hrecords
      cases hrecords
    | none =>
      have hload := Store.loadAll_eq hreads
      rw [Backend.readAll, hreads] at hrecords
      cases hrecords
      have hcounted : ({ x.node with backend := b } : Node).Counted :=
        ⟨h.counted.workers, h.counted.timers⟩
      obtain ⟨n', r, hfold, -, hrestores⟩ := hcounted.restores now
        (b.records.entries.filterMap Store.asSnapshot?)
      refine ⟨b.records.sorted, n', r, ?_, hrestores⟩
      rw [resume, hload, ← hfold]
      rfl

/-- A trade under another id. -/
def named (t : Trade) (id : String) : Trade := { t with id }

theorem storable_named {id : String} (ht : t.Storable) (hid : Fits id) : (named t id).Storable := by
  refine { ht with texts := fun text htext => ?_ }
  obtain rfl | htext := List.mem_cons.1 htext
  · exact hid
  · exact ht.texts text (List.mem_cons_of_mem _ htext)

/-- The record of a trade. -/
def recordOf (t : Trade) : Bytes := t.toSnapshot.encode.toOption.getD []

theorem asSnapshot?_recordOf (ht : t.Storable) (hplain : t.Plain) (key : String) :
    Store.asSnapshot? (key, recordOf t) = some t.toSnapshot := by
  obtain ⟨record, hencode, hdecode⟩ :=
    Snapshot.exists_encode_eq_ok ht.toSnapshot (UInt32.le_refl _)
  have hexact := ht.toSnapshot.recorded_eq_self_iff.2 hplain
  simp [Store.asSnapshot?, recordOf, hencode, hdecode, hexact, Except.toOption]

open Store (tradeAt storable_tradeAt)

/-- A record that nobody can read, one of a live trade, two of another trade, and one without id. -/
def mixture : Backend where
  records :=
    ⟨[("a", []), ("b", recordOf (tradeAt 1)),
      ("c", recordOf (named (takenAt 0) "trade_2")), ("d", recordOf (named (tradeAt 0) "trade_2")),
      ("e", recordOf (named (tradeAt 0) ""))], by
      have hkeys : ["a", "b", "c", "d", "e"].Pairwise fun a b => compare a b = .lt := by decide
      exact List.Pairwise.of_map Prod.fst (fun _ _ h => h) hkeys⟩

theorem readable_mixture : mixture.records.entries.filterMap Store.asSnapshot? =
    [tradeAt 1, named (takenAt 0) "trade_2", named (tradeAt 0) "trade_2",
      named (tradeAt 0) ""].map (·.toSnapshot) := by
  have hunreadable : Store.asSnapshot? ("a", []) = none := rfl
  have hfits : Fits "trade_2" ∧ Fits "" := by decide
  have hread {t : Trade} (ht : t.Storable) (hplain : t.Plain) (key : String)
      (rest : List (String × Bytes)) :
      ((key, recordOf t) :: rest).filterMap Store.asSnapshot? =
        t.toSnapshot :: rest.filterMap Store.asSnapshot? :=
    List.filterMap_cons_some (asSnapshot?_recordOf ht hplain key)
  -- naming a trade anew leaves its instants alone
  have htaken : (named (takenAt 0) "trade_2").Plain := { plain_takenAt 0 with }
  rw [mixture, List.filterMap_cons_none hunreadable, hread (storable_tradeAt 1) (plain_tradeAt 1),
    hread (storable_named (storable_takenAt 0) hfits.1) htaken,
    hread (storable_named (storable_tradeAt 0) hfits.1) { plain_tradeAt 0 with },
    hread (storable_named (storable_tradeAt 0) hfits.2) { plain_tradeAt 0 with }]
  rfl

theorem readAll_mixture : mixture.readAll = .ok mixture.records.entries := by
  simp [Backend.readAll, mixture]

/-- The record of a second trade brings it back with its deadline; those of the live trade and of
another snapshot of the second trade are passed over, and the one without id is skipped. -/
theorem mixture_restores :
    ∃ (x : Watched) (n' : Node) (r : Resumption), x.Reachable ∧ x.node.trades = ["trade_1"] ∧
      ({ x.node with backend := mixture } : Node).resume ⟨.epoch, 0, .farFuture⟩ = .ok (n', r) ∧
      r.resumed = ["trade_2"] ∧ r.skipped = [("", .emptyTradeId)] ∧
      ∃ k, n'.live.get? "trade_2" = some k ∧
        n'.TakenOn ⟨.epoch, 0, .farFuture⟩ k (named (takenAt 0) "trade_2") := by
  obtain ⟨x, hplay, hengine, hlive⟩ : ∃ x,
      (fresh {}).play [.launch ⟨.epoch, 0, .farFuture⟩ (tradeAt 0)] = some x ∧
        x.node.engine = lenient false ∧
        x.node.live = .ofList [("trade_1", 0)] := ⟨_, rfl, rfl, rfl⟩
  have hreachable : x.Reachable := ⟨_, _, _, _, _, _, Watched.run_of_play hplay⟩
  obtain ⟨-, n', r, hresult, hrestores⟩ :=
    (resume_restores hreachable mixture ⟨.epoch, 0, .farFuture⟩).2 _ readAll_mixture
  rw [readable_mixture] at hrestores
  have hrestore {t : Trade} (ht : t.Restorable (lenient false).registry) :
      x.node.engine.restore t.toSnapshot = .ok t := by
    rw [hengine]
    exact ht.restore_toSnapshot
  have hlive₁ : x.node.live.contains "trade_1" = true := by
    rw [hlive]
    rfl
  have hfree₂ : x.node.live.contains "trade_2" = false := by
    rw [hlive]
    rfl
  have hfirst := hrestore (restorable_tradeAt 1)
  have hsecond := hrestore (t := named (takenAt 0) "trade_2")
    { restorable_takenAt 0 with id := rfl }
  have hthird := hrestore (t := named (tradeAt 0) "trade_2")
    { restorable_tradeAt 0 with id := rfl }
  have hfourth : x.node.engine.restore (named (tradeAt 0) "").toSnapshot = .error .emptyTradeId :=
    rfl
  have hresumed : r.resumed = ["trade_2"] := by
    have hid : (tradeAt 1).toSnapshot.tradeId = "trade_1" := rfl
    have hid' (t : Trade) (id : String) : (named t id).toSnapshot.tradeId = id := rfl
    rw [hrestores.resumed]
    simp [restorable, hfirst, hsecond, hthird, hfourth, hid, hid', hlive₁, hfree₂, Except.isOk,
      Except.toBool, List.eraseDups_cons]
  have hskipped : r.skipped = [("", .emptyTradeId)] := by
    rw [hrestores.skipped]
    simp [refusal?, hfirst, hsecond, hthird, hfourth]
    rfl
  obtain ⟨before, s, after, t, k, hsplit, hid, hnone, hrestored, hk, -, htaken⟩ :=
    hrestores.takenOn "trade_2" (by simp [hresumed])
  -- of the two records of the second trade, it is the first one
  have ht : t = named (takenAt 0) "trade_2" := by
    cases before with
    | nil =>
      cases hsplit
      exact absurd hid (by decide)
    | cons _ before =>
      cases before with
      | nil =>
        cases hsplit
        exact Except.ok.inj (hrestored.symm.trans hsecond)
      | cons s₂ before =>
        have hs₂ : (named (takenAt 0) "trade_2").toSnapshot = s₂ :=
          (List.cons.inj (List.cons.inj hsplit).2).1
        have hrefused := hnone s₂ (by simp) (hs₂ ▸ rfl)
        rw [← hs₂] at hrefused
        simp [hsecond, Except.isOk, Except.toBool] at hrefused
  exact ⟨x, n', r, hreachable, by rw [trades, hlive]; rfl, hresult, hresumed, hskipped, k, hk,
    ht ▸ htaken⟩

end PeerTrade.Node
