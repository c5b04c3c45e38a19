import PeerTrade.Proofs.Node.Acceptance
import PeerTrade.Proofs.Node.Handover
import PeerTrade.Proofs.Trade.Restart

/-!
# Shutting down

A shutdown lets go of the trades, waits for their workers one after the other, and then flushes the
store. A worker that has ended has read all its mail and handed in its trade, so that the flush
leaves that trade in the backend (`Node.shutdown_loses_nothing`), unless something newer is there
under the same id, the worker broke down, another call waits for it, its sequence has wrapped around
or the store was closed (`Node.shutdown_can_lose`).
-/

namespace PeerTrade

/-- Every record is the snapshot of a trade under its own id. -/
def Backend.Written (b : Backend) : Prop :=
  ∀ id record, b.records.get? id = some record → ∃ t : Trade, t.id = id ∧ t.Storable ∧
    Trade.Keyed t.deadlines ∧ t.toSnapshot.encode = .ok record

/-- A snapshot that a backend holds. -/
def Backend.HasSnapshot (b : Backend) (s : Snapshot) : Prop :=
  ∃ record, b.records.get? s.tradeId = some record ∧ Snapshot.decode record = .ok s

namespace Node

open Store (tradeAt storable_tradeAt)

/-! ## Calls of shutdown -/

namespace Watched

/-- Workers are let go of one after the other, the next one when the one before has ended. -/
inductive Ends : Watched → List Nat → List Action → Watched → Prop where
  | nil {x x' : Watched} {actions : List Action} : x.Run actions x' → Ends x [] actions x'
  | cons {x x₁ x₂ x₃ x' : Watched} {k : Nat} {ks : List Nat}
      {before waiting rest : List Action} :
      x.Run before x₁ → x₁.act (.release k) = some x₂ → x₂.Run waiting x₃ →
      x₃.node.isRunning k = false → Ends x₃ ks rest x' →
      Ends x (k :: ks) (before ++ .release k :: (waiting ++ rest)) x'

/-- A call of shutdown, from the moment at which it lets go of the trades until it returns. -/
inductive Shutdown : Watched → List Action → Watched → Prop where
  | intro {x x₁ x₂ x₃ x' : Watched} {ending flushing : List Action} :
      x.act .forget = some x₁ → Ends x₁ x.node.forget.2 ending x₂ → x₂.act .flush = some x₃ →
      x₃.Run flushing x' → x'.node.store.isFlushed x₂.node.store.flush.2 = true →
      Shutdown x (.forget :: (ending ++ .flush :: flushing)) x'

end Watched

variable {x x₂ x₃ x' : Watched} {actions : List Action} {k : Nat} {ks : List Nat}
  {w w' : Worker} {t : Trade} {source : Snapshot → Prop}

theorem isRunning_eq_false_iff {n : Node} (hk : n.workers.get? k = some w) :
    n.isRunning k = false ↔ w.phase ≠ .running := by
  simp [isRunning, hk]

/-! ## Workers that have stopped -/

theorem Linear.exists_worker_of_run (h : Linear x) (hrun : x.Run actions x')
    (hk : x.node.workers.get? k = some w) : ∃ w', x'.node.workers.get? k = some w' := by
  induction hrun with
  | nil => exact ⟨w, hk⟩
  | concat hbefore hact ih =>
    obtain ⟨w₁, hk₁⟩ := ih
    obtain ⟨w₂, hk₂, -⟩ := (h.run hbefore).turn hact hk₁
    exact ⟨w₂, hk₂⟩

/-- A worker that does not run any more keeps its trade, and hands nothing in. -/
theorem Linear.stopped (h : Linear x) (hrun : x.Run actions x')
    (hk : x.node.workers.get? k = some w) (hstopped : w.phase ≠ .running) :
    ∃ w' more, x'.node.workers.get? k = some w' ∧ w'.trade = w.trade ∧ w'.phase = w.phase ∧
      x'.handed = x.handed ++ more ∧ ∀ e ∈ more, e.1 ≠ k := by
  induction hrun with
  | nil =>
    exact ⟨w, [], hk, rfl, rfl, (List.append_nil _).symm, fun e he => absurd he List.not_mem_nil⟩
  | @concat actions x₁ x₂ a hbefore hact ih =>
    obtain ⟨w₁, more, hk₁, htrade, hphase, hhanded, hothers⟩ := ih
    obtain ⟨w₂, hk₂, hturn⟩ := (h.run hbefore).turn hact hk₁
    obtain ⟨hhanded', -⟩ := Watched.of_act hact
    have hstopped₁ : w₁.phase ≠ .running := by rwa [hphase]
    cases hturn with
    | idles hheard hhands htrade' hphase' =>
      refine ⟨w₂, more ++ x₁.node.handsIn a, hk₂, htrade'.trans htrade, hphase'.trans hphase,
        by rw [hhanded', hhanded, List.append_assoc], fun e he => ?_⟩
      rcases List.mem_append.1 he with he | he
      · exact hothers e he
      · rintro rfl
        exact hhands e.2 he
    | does _ hrunning => exact absurd hrunning hstopped₁
    | reads _ _ _ hrunning => exact absurd hrunning hstopped₁
    | breaks _ _ hrunning => exact absurd hrunning hstopped₁
    | ends _ _ hrunning => exact absurd hrunning hstopped₁

theorem Watched.Ends.run (h : x.Ends ks actions x') : x.Run actions x' := by
  induction h with
  | nil hrun => exact hrun
  | cons hbefore hrelease hwaiting hended hrest ih =>
    have hfirst := (Watched.Run.concat hbefore hrelease).trans (hwaiting.trans ih)
    rwa [List.append_assoc] at hfirst

theorem Watched.Ends.prepend {before : List Action} (h : x.Ends ks actions x')
    (hbefore : x₂.Run before x) : x₂.Ends ks (before ++ actions) x' := by
  cases h with
  | nil hrun => exact .nil (hbefore.trans hrun)
  | cons hrun hrelease hwaiting hended hrest =>
    rw [← List.append_assoc]
    exact .cons (hbefore.trans hrun) hrelease hwaiting hended hrest

/-- All workers that were waited for have stopped. -/
theorem Watched.Ends.stopped (h : x.Ends ks actions x') (hlinear : Linear x) (hk : k ∈ ks)
    (hworker : x.node.workers.get? k = some w) :
    ∃ w', x'.node.workers.get? k = some w' ∧ w'.phase ≠ .running := by
  induction h generalizing w with
  | nil => cases hk
  | @cons x x₁ x₂ x₃ x' k' ks before waiting rest hbefore hrelease hwaiting hended hrest ih =>
    have hrun : x.Run _ x₃ := (Watched.Run.concat hbefore hrelease).trans hwaiting
    obtain ⟨w₃, hw₃⟩ := hlinear.exists_worker_of_run hrun hworker
    rcases List.mem_cons.1 hk with rfl | hk
    · -- this worker has stopped while the others are waited for
      obtain ⟨w', -, hw', -, hphase, -⟩ := (hlinear.run hrun).stopped hrest.run hw₃
        ((isRunning_eq_false_iff hw₃).1 hended)
      refine ⟨w', hw', ?_⟩
      rw [hphase]
      exact (isRunning_eq_false_iff hw₃).1 hended
    · exact ih (hlinear.run hrun) hk hw₃

/-! ## The store's part -/

/-- The run of the store around a flush: `x` is the moment at which it is called, and `x'` the one
at which it is over. -/
structure Flushed (b₀ : Backend) (x x' : Watched) (more : List (Nat × Trade)) : Prop where
  before : ∃ moves, Store.Run {} b₀ moves x.node.store x.node.backend ∧
    Store.requests moves = x.handed.map (·.2)
  after : ∃ moves, Store.Run x.node.store.flush.1 x.node.backend moves x'.node.store
    x'.node.backend ∧ Store.requests moves = more.map (·.2)
  handed : x'.handed = x.handed ++ more
  flushed : x'.node.store.isFlushed x.node.store.flush.2 = true

theorem exists_flushed {name : String} {engine : Engine} {settings : WorkerSettings}
    {b₀ : Backend} {identity : Peer} {before late : List Action}
    (hbefore : (Watched.new name engine settings b₀ identity).Run before x)
    (hflush : x.act .flush = some x₃) (hlate : x₃.Run late x')
    (hflushed : x'.node.store.isFlushed x.node.store.flush.2 = true) :
    ∃ more, Flushed b₀ x x' more := by
  obtain ⟨moves, handed, hmoves, hhanded, hrequests⟩ := hbefore.store
  obtain ⟨moves', more, hmoves', hhanded', hrequests'⟩ := hlate.store
  have hall : x.handed = handed := hhanded
  -- the flush itself hands nothing in
  cases hflush
  refine ⟨more, ⟨moves, hmoves, by rw [hrequests, hall]⟩, ⟨moves', hmoves', hrequests'⟩, ?_,
    hflushed⟩
  rw [hhanded']
  exact congrArg (· ++ more) (List.append_nil x.handed)

/-- The last snapshot that a worker handed in before a flush is stored when the flush is over, if
nobody else hands in anything as new for that trade. -/
theorem Flushed.stored {b₀ : Backend} {more : List (Nat × Trade)} (h : Flushed b₀ x x' more)
    (hopen : x.node.store.closed = false)
    (hwrites : ∀ a ∈ x'.node.store.attempts, a.succeeded = true)
    (hstorable : ∀ e ∈ x.handed, e.2.Storable) (hlast : x.LastHanded k t)
    (hself : ∀ e ∈ more, e.1 ≠ k)
    (hsequence : ∀ e ∈ x'.handed, e.2.id = t.id →
      e.2.sequence ≤ t.sequence ∧ (e.1 ≠ k → e.2.sequence < t.sequence)) :
    ∃ record, t.toSnapshot.encode = .ok record ∧
      x'.node.backend.records.get? t.id = some record := by
  obtain ⟨moves, hmoves, hrequests⟩ := h.before
  obtain ⟨moves', hmoves', hrequests'⟩ := h.after
  obtain ⟨earlier, later, hsplit, hlater⟩ := hlast
  have hin {e : Nat × Trade} (he : e ∈ x.handed ++ more) : e ∈ x'.handed := by rwa [h.handed]
  -- this snapshot is the newest one that was handed in before the flush
  have hnewest : Store.newest? (Store.requests moves) t.id = some t := by
    rw [hrequests, hsplit, List.map_append, List.map_cons]
    refine Store.newest?_eq_some _ _ (fun r hr hid => ?_) fun r hr hid => ?_
    · obtain ⟨e, he, rfl⟩ := List.mem_map.1 hr
      exact (hsequence e (hin (by simp [hsplit, he])) hid).1
    · obtain ⟨e, he, rfl⟩ := List.mem_map.1 hr
      exact (hsequence e (hin (by simp [hsplit, he])) hid).2 (hlater e he)
  have hencode : ∀ t ∈ Store.requests moves, ∃ record, t.toSnapshot.encode = .ok record := by
    intro r hr
    rw [hrequests] at hr
    obtain ⟨e, he, rfl⟩ := List.mem_map.1 hr
    exact ⟨_, Snapshot.encode_eq_ok (hstorable e he).toSnapshot⟩
  have holder : ∀ r ∈ Store.requests moves', r.id = t.id → r.sequence < t.sequence := by
    intro r hr hid
    rw [hrequests'] at hr
    obtain ⟨e, he, rfl⟩ := List.mem_map.1 hr
    exact (hsequence e (hin (List.mem_append_right _ he)) hid).2 (hself e he)
  obtain ⟨record, hrecord, hsettled⟩ := hmoves.settled_of_flushed hmoves' h.flushed
    (hmoves.latest hopen hencode) hnewest holder fun a ha _ => hwrites a ha
  exact ⟨record, hrecord, hsettled.record⟩

theorem Flushed.open_before {b₀ : Backend} {more : List (Nat × Trade)}
    (h : Flushed b₀ x x' more) (hopen : x'.node.store.closed = false) :
    x.node.store.closed = false := by
  obtain ⟨moves, hmoves, -⟩ := h.after
  exact ((Store.Run.concat .nil (x.node.store.act_flush x.node.backend)).trans hmoves).open_before
    hopen

/-- A record for which nothing was handed in is the one from the beginning. -/
theorem Flushed.untouched {b₀ : Backend} {more : List (Nat × Trade)} {id : String}
    (h : Flushed b₀ x x' more) (hnone : ∀ e ∈ x'.handed, e.2.id ≠ id) :
    x'.node.backend.records.get? id = b₀.records.get? id := by
  obtain ⟨moves, hmoves, hrequests⟩ := h.before
  obtain ⟨moves', hmoves', hrequests'⟩ := h.after
  have hwhole := (Store.Run.concat hmoves (x.node.store.act_flush x.node.backend)).trans hmoves'
  rcases hwhole.drawn.records id with hsame | ⟨record, -, r, hr, hid, -⟩
  · exact hsame
  · have hr' : r ∈ x'.handed.map (·.2) := by
      rw [h.handed, List.map_append, ← hrequests, ← hrequests']
      simpa [Store.requests] using hr
    obtain ⟨e, he, rfl⟩ := List.mem_map.1 hr'
    exact absurd hid (hnone e he)

/-- A trade that was resumed from an old record, and for which nothing was handed in, is stored as
it is. -/
theorem Flushed.stored_of_resumed {b₀ : Backend} {more : List (Nat × Trade)}
    (h : Flushed b₀ x x' more) (hearlier : b₀.Written)
    (hnone : ∀ e ∈ x'.handed, e.2.id ≠ t.id) {engine : Engine} {s : Snapshot}
    (hs : b₀.HasSnapshot s) (hrestore : engine.restore s = .ok t) :
    ∃ record, x'.node.backend.records.get? t.id = some record ∧
      Snapshot.decode record = .ok t.toSnapshot.recorded ∧
      (t.toSnapshot.recorded = t.toSnapshot ↔ t.Plain) := by
  obtain ⟨record, hrecord, hdecode⟩ := hs
  obtain ⟨old, -, hstorable, hkeyed, hencode⟩ := hearlier _ record hrecord
  cases (hstorable.decode_eq_ok hencode).symm.trans hdecode
  have hsame : t.toSnapshot = old.toSnapshot.recorded := by
    rw [← Trade.toSnapshot_recorded] at hrestore ⊢
    exact Trade.toSnapshot_of_restore (hkeyed.map fun _ => rfl) hrestore
  have hid : t.id = old.id := congrArg Snapshot.tradeId hsame
  -- what was read from a record has no leap second in it
  rw [Trade.Plain, hsame, Snapshot.recorded_recorded, h.untouched hnone, hid]
  exact ⟨record, hrecord, hdecode, iff_of_true rfl old.toSnapshot.plain_recorded⟩

/-! ## Sequences -/

/-- The sequences of the trades have not wrapped around. -/
def Watched.Fits (x : Watched) : Prop :=
  ∀ k t₀, (x.journal k).origin = some t₀ →
    t₀.sequence.toNat +
      (x.node.engine.history t₀ (Mail.stream (x.journal k).read)).length < 2 ^ 64

/-- No other trade that was taken on under the id of a worker's trade has reached the sequence with
which that worker began, and there is none if that worker has handed nothing in. -/
def Watched.Foremost (x : Watched) (k : Nat) (w : Worker) : Prop :=
  ∀ k' w', x.node.workers.get? k' = some w' → k' ≠ k → w'.trade.id = w.trade.id →
    (∃ t, (k, t) ∈ x.handed) ∧
      ∀ t₀, (x.journal k).origin = some t₀ → w'.trade.sequence < t₀.sequence

/-- The first worker is the only one. -/
theorem Linear.eq_zero (h : Linear x) (hstarted : x.node.started = 1)
    (hk : x.node.workers.get? k = some w) : k = 0 := by
  have hknown := h.known k w hk
  omega

theorem Linear.fits_of_single (h : Linear x) (hstarted : x.node.started = 1) {t₀ : Trade}
    (horigin : (x.journal 0).origin = some t₀)
    (hfits : t₀.sequence.toNat +
      (x.node.engine.history t₀ (Mail.stream (x.journal 0).read)).length < 2 ^ 64) : x.Fits := by
  intro k t ht
  cases hk : x.node.workers.get? k with
  | none => cases (h.blank k hk).symm.trans ht
  | some w =>
    obtain rfl := h.eq_zero hstarted hk
    cases horigin.symm.trans ht
    exact hfits

/-- A trade that was shown at some place has the id of the trade as it is now, and is not newer. -/
theorem Follows.not_newer (h : Follows x.node.engine (x.journal k) w) (hfits : x.Fits) {i : Nat}
    (hshows : (x.journal k).Shows x.node.engine i t) :
    t.id = w.trade.id ∧ t.sequence ≤ w.trade.sequence := by
  obtain ⟨t₀, ht₀, hw⟩ := h.trade
  obtain ⟨t₁, ht₁, rfl⟩ := hshows
  cases ht₀.symm.trans ht₁
  rw [List.take_length] at hw
  have hwhole := hfits k t₀ ht₀
  rw [← List.take_append_drop i (x.journal k).read, Mail.stream_append] at hw hwhole
  rw [hw, Engine.run_id, Engine.run_id]
  exact ⟨rfl, x.node.engine.sequence_le_run t₀ _ _ hwhole⟩

/-- What was handed in for the id of the foremost trade is not newer than that trade. -/
theorem Tended.sequence_le (h : Tended source x) (hlinear : Linear x) (hfits : x.Fits)
    (hk : x.node.workers.get? k = some w) (hforemost : x.Foremost k w) {e : Nat × Trade}
    (he : e ∈ x.handed) (hid : e.2.id = w.trade.id) :
    e.2.sequence ≤ w.trade.sequence ∧
      (e.1 ≠ k → e.2.sequence < w.trade.sequence ∧ ∃ t, (k, t) ∈ x.handed) := by
  have hfollows {k : Nat} {w : Worker} (hk : x.node.workers.get? k = some w) :
      Follows x.node.engine (x.journal k) w := (hlinear.straight k w hk).follows
  obtain ⟨w', hk'⟩ := h.known e he
  obtain ⟨i, -, hshows⟩ := (h.kept e.1 w' hk').handed e.2 he
  obtain ⟨hid', hle⟩ := (hfollows hk').not_newer hfits hshows
  by_cases heq : e.1 = k
  · subst heq
    cases hk.symm.trans hk'
    exact ⟨hle, fun hne => absurd rfl hne⟩
  · obtain ⟨hhanded, hless⟩ := hforemost e.1 w' hk' heq (hid'.symm.trans hid)
    -- the trade has not fallen behind the one that its worker began with
    obtain ⟨t₀, ht₀, -⟩ := (hfollows hk).trade
    have horigin : (x.journal k).Shows x.node.engine 0 t₀ := ⟨t₀, ht₀, rfl⟩
    have hlt : e.2.sequence < w.trade.sequence :=
      UInt64.lt_of_le_of_lt hle
        (UInt64.lt_of_lt_of_le (hless t₀ ht₀) ((hfollows hk).not_newer hfits horigin).2)
    exact ⟨UInt64.le_of_lt hlt, fun _ => ⟨hlt, hhanded⟩⟩

/-! ## Sessions -/

/-- In a call of shutdown there is a flush, and before it the workers that the call has let go of
have stopped. -/
theorem Watched.Shutdown.exists_flush {during : List Action} (h : x.Shutdown during x') :
    ∃ early x₂ late x₃, during = early ++ .flush :: late ∧ x.Run early x₂ ∧
      x₂.act .flush = some x₃ ∧ x₃.Run late x' ∧
      x'.node.store.isFlushed x₂.node.store.flush.2 = true ∧
      (Linear x → ∀ k ∈ x.node.live.values, ∃ w, x₂.node.workers.get? k = some w ∧
        w.phase ≠ .running) := by
  cases h with
  | @intro x₁ x₂ x₃ x' ending flushing hforget hends hflush hrun hflushed =>
    have hfirst : x.Run [.forget] x₁ := .concat .nil hforget
    refine ⟨.forget :: ending, x₂, flushing, x₃, rfl, hfirst.trans hends.run, hflush, hrun,
      hflushed, fun hlinear k hk => ?_⟩
    obtain ⟨⟨id, k'⟩, hmem, rfl⟩ := List.mem_map.1 hk
    obtain ⟨w, hw, -⟩ := hlinear.live id k' (Dict.get?_eq_some_iff.2 hmem)
    obtain ⟨w₁, hw₁⟩ := hlinear.exists_worker_of_run hfirst hw
    exact hends.stopped (hlinear.run hfirst) hk hw₁

theorem Watched.Shutdown.run {during : List Action} (h : x.Shutdown during x') :
    x.Run during x' := by
  obtain ⟨early, x₂, late, x₃, rfl, hearly, hflush, hlate, -⟩ := h.exists_flush
  exact hearly.trans ((Watched.Run.concat .nil hflush).trans hlate)

/-- The trade of a worker that has stopped is stored when a flush is over, if nobody else has handed
in anything as new under its id. -/
theorem Kept.stored {b₀ : Backend} {more : List (Nat × Trade)}
    (h : Kept b₀.HasSnapshot x k w) (hstopped : w.phase ≠ .running)
    (hpart : Flushed b₀ x x' more) (hothers : ∀ e ∈ more, e.1 ≠ k) (hearlier : b₀.Written)
    (hopen : x'.node.store.closed = false)
    (hwrites : ∀ a ∈ x'.node.store.attempts, a.succeeded = true)
    (hstorable : ∀ e ∈ x'.handed, e.2.Storable)
    (hsequence : ∀ e ∈ x'.handed, e.2.id = w.trade.id →
      e.2.sequence ≤ w.trade.sequence ∧
        (e.1 ≠ k → e.2.sequence < w.trade.sequence ∧ ∃ t, (k, t) ∈ x'.handed)) :
    ∃ record, x'.node.backend.records.get? w.trade.id = some record ∧
      Snapshot.decode record = .ok w.trade.toSnapshot.recorded ∧
      (w.trade.toSnapshot.recorded = w.trade.toSnapshot ↔ w.trade.Plain) := by
  have hin {e : Nat × Trade} (he : e ∈ x.handed) : e ∈ x'.handed := by
    rw [hpart.handed]
    exact List.mem_append_left _ he
  rcases h.newest with ⟨attempt, hmem⟩ | hlast | ⟨hnone, s, hs, hrestore⟩
  · -- a worker that has stopped has nothing left to do
    rw [h.resting hstopped] at hmem
    cases hmem
  · obtain ⟨record, hencode, hrecord⟩ := hpart.stored (hpart.open_before hopen) hwrites
      (fun e he => hstorable e (hin he)) hlast hothers fun e he hid =>
        ⟨(hsequence e he hid).1, fun hne => ((hsequence e he hid).2 hne).1⟩
    obtain ⟨earlier, later, hsplit, -⟩ := hlast
    have hself := hstorable (k, w.trade) (hin (by simp [hsplit]))
    exact ⟨record, hrecord, hself.decode_eq_ok hencode, hself.toSnapshot.recorded_eq_self_iff⟩
  · refine hpart.stored_of_resumed hearlier (fun e he hid => ?_) hs hrestore
    -- neither this worker nor another one of the same id has handed anything in
    have hself : ∀ e ∈ x'.handed, e.1 ≠ k := by
      intro e he
      rw [hpart.handed] at he
      exact (List.mem_append.1 he).elim (hnone e) (hothers e)
    obtain ⟨-, t, ht⟩ := (hsequence e he hid).2 (hself e he)
    exact hself (k, t) ht rfl

/-- A new node over a backend whose records are those of an earlier store, and a call of shutdown
there, which is made at `x` and has returned at `x'`. No write has failed, every snapshot that was
handed in has a stored form, and only old records were resumed. -/
structure Watched.Session (x : Watched) (b₀ : Backend) (before during : List Action)
    (x' : Watched) : Prop where
  run : ∃ name engine settings identity,
    (Watched.new name engine settings b₀ identity).Run before x
  shutdown : x.Shutdown during x'
  earlier : b₀.Written
  resumed : ∀ now s, .resume now s ∈ before ++ during → b₀.HasSnapshot s
  writes : ∀ a ∈ x'.node.store.attempts, a.succeeded = true
  storable : ∀ e ∈ x'.handed, e.2.Storable

theorem Watched.Session.linear {b₀ : Backend} {before during : List Action}
    (h : x.Session b₀ before during x') : Linear x := by
  obtain ⟨name, engine, settings, identity, hbefore⟩ := h.run
  exact (linear_new name engine settings b₀ identity).run hbefore

/-- The worker of a trade that is let go of has stopped when the store is flushed, and keeps its
trade. -/
theorem Watched.Session.exists_flushed {b₀ : Backend} {before during : List Action}
    (h : x.Session b₀ before during x') (hk : x.node.workers.get? k = some w)
    (htaken : k ∈ x.node.live.values ∨ x.node.isRunning k = false) :
    ∃ x₂ w₂ w' more, x.Run during x' ∧ Tended b₀.HasSnapshot x' ∧ Kept b₀.HasSnapshot x₂ k w₂ ∧
      w₂.phase ≠ .running ∧ x'.node.workers.get? k = some w' ∧ w'.trade = w₂.trade ∧
      w'.phase = w₂.phase ∧ Flushed b₀ x₂ x' more ∧ ∀ e ∈ more, e.1 ≠ k := by
  obtain ⟨name, engine, settings, identity, hbefore⟩ := h.run
  obtain ⟨early, x₂, late, x₃, rfl, hearly, hflush, hlate, hflushed, hstopped⟩ :=
    h.shutdown.exists_flush
  have hlinear := h.linear
  have hlinear₂ := hlinear.run hearly
  have hbefore₂ := hbefore.trans hearly
  have hflushing : x₂.Run (.flush :: late) x' := (Watched.Run.concat .nil hflush).trans hlate
  -- only old records are resumed, before the flush and after it
  have htended₂ : Tended b₀.HasSnapshot x₂ :=
    hbefore₂.tended (linear_new ..) (tended_new ..) fun now s hs => h.resumed now s (by
      rw [← List.append_assoc]
      exact List.mem_append_left _ hs)
  have htended' : Tended b₀.HasSnapshot x' :=
    hflushing.tended hlinear₂ htended₂ fun now s hs => h.resumed now s (by
      rw [← List.append_assoc]
      exact List.mem_append_right _ hs)
  obtain ⟨w₂, hk₂, hphase₂⟩ : ∃ w₂, x₂.node.workers.get? k = some w₂ ∧ w₂.phase ≠ .running := by
    rcases htaken with hlive | hnot
    · exact hstopped hlinear k hlive
    · have hphase := (isRunning_eq_false_iff hk).1 hnot
      obtain ⟨w₂, -, hk₂, -, hphase₂, -⟩ := hlinear.stopped hearly hk hphase
      exact ⟨w₂, hk₂, by rwa [hphase₂]⟩
  obtain ⟨w', more, hk', htrade, hphase', hhanded, hothers⟩ :=
    hlinear₂.stopped hflushing hk₂ hphase₂
  obtain ⟨more', hpart⟩ := Node.exists_flushed hbefore₂ hflush hlate hflushed
  obtain rfl : more = more' := List.append_cancel_left (hhanded.symm.trans hpart.handed)
  exact ⟨x₂, w₂, w', more, hearly.trans hflushing, htended', htended₂.kept k w₂ hk₂, hphase₂, hk',
    htrade, hphase', hpart, hothers⟩

/-! ## Played sessions -/

/-- Whether an action does anything else than resume. -/
def Action.isNew : Action → Bool
  | .resume .. => false
  | _ => true

namespace Watched

/-- Workers are let go of in turn, with the actions while each of them is waited for. -/
def playEnds (x : Watched) : List Nat → List (List Action) → Option Watched
  | [], _ => some x
  | _ :: _, [] => none
  | k :: ks, waiting :: rest => do
    let x₁ ← x.act (.release k)
    let x₂ ← x₁.play waiting
    if x₂.node.isRunning k then none else x₂.playEnds ks rest

/-- A call of shutdown, with the actions while the workers and the flush are waited for. -/
def playShutdown (x : Watched) (waiting : List (List Action)) (flushing : List Action) :
    Option Watched := do
  let x₁ ← x.act .forget
  let x₂ ← x₁.playEnds x.node.forget.2 waiting
  let x₃ ← x₂.act .flush
  let x' ← x₃.play flushing
  if x'.node.store.isFlushed x₂.node.store.flush.2 then some x' else none

theorem ends_of_play {waiting : List (List Action)} (h : x.playEnds ks waiting = some x')
    (hnew : ∀ actions ∈ waiting, ∀ a ∈ actions, a.isNew = true) :
    ∃ actions, x.Ends ks actions x' ∧ ∀ a ∈ actions, a.isNew = true := by
  induction ks generalizing x waiting with
  | nil =>
    cases h
    exact ⟨[], .nil .nil, fun a ha => absurd ha List.not_mem_nil⟩
  | cons k ks ih =>
    cases waiting with
    | nil => cases h
    | cons waiting rest =>
      simp only [playEnds, Option.bind_eq_bind, Option.bind_eq_some_iff] at h
      obtain ⟨x₁, hrelease, x₂, hplay, hrest⟩ := h
      split at hrest
      · cases hrest
      · rename_i hended
        obtain ⟨actions, hends, hnew'⟩ :=
          ih hrest fun actions ha => hnew actions (List.mem_cons_of_mem _ ha)
        refine ⟨_, .cons .nil hrelease (run_of_play hplay) (by simpa using hended) hends, ?_⟩
        simp only [List.nil_append, List.mem_cons, List.mem_append]
        rintro a (rfl | ha | ha)
        · rfl
        · exact hnew _ List.mem_cons_self a ha
        · exact hnew' a ha

theorem shutdown_of_play {waiting : List (List Action)} {flushing : List Action}
    (h : x.playShutdown waiting flushing = some x')
    (hnew : ∀ actions ∈ waiting, ∀ a ∈ actions, a.isNew = true)
    (hnew' : ∀ a ∈ flushing, a.isNew = true) :
    ∃ actions, x.Shutdown actions x' ∧ ∀ a ∈ actions, a.isNew = true := by
  simp only [playShutdown, Option.bind_eq_bind, Option.bind_eq_some_iff] at h
  obtain ⟨x₁, hforget, x₂, hends, x₃, hflush, y, hplay, hflushed⟩ := h
  split at hflushed
  · cases hflushed
    obtain ⟨actions, hends', hall⟩ := ends_of_play hends hnew
    refine ⟨_, .intro hforget hends' hflush (run_of_play hplay) ‹_›, ?_⟩
    simp only [List.mem_cons, List.mem_append]
    rintro a (rfl | ha | rfl | ha)
    · rfl
    · exact hall a ha
    · rfl
    · exact hnew' a ha
  · cases hflushed

end Watched

theorem session_of_play {engine : Engine} {before flushing : List Action}
    {waiting : List (List Action)} {handed : List (Nat × Trade)}
    (hbefore : (Watched.new "a" engine {} {} ⟨"local"⟩).play before = some x)
    (hshutdown : x.playShutdown waiting flushing = some x')
    (hnew : (before ++ waiting.flatten ++ flushing).all (·.isNew) = true)
    (hwrites : x'.node.store.attempts.all (·.succeeded) = true)
    (hhanded : x'.handed = handed) (hstorable : ∀ e ∈ handed, e.2.Storable) :
    ∃ during, x.Session {} before during x' := by
  simp only [List.all_eq_true, List.mem_append, List.mem_flatten] at hnew
  obtain ⟨during, hduring, hall⟩ := Watched.shutdown_of_play hshutdown
    (fun actions hactions a ha => hnew a (.inl (.inr ⟨actions, hactions, ha⟩)))
    fun a ha => hnew a (.inr ha)
  refine ⟨during, ⟨"a", engine, {}, ⟨"local"⟩, Watched.run_of_play hbefore⟩, hduring,
    fun id record hrecord => (by cases hrecord), fun now s hs => ?_,
    fun a ha => (by simpa using List.all_eq_true.1 hwrites a ha), ?_⟩
  · have hresumes := (List.mem_append.1 hs).elim (fun hs => hnew _ (.inl (.inl hs))) (hall _)
    cases hresumes
  · rwa [hhanded]

/-- An order to cancel a trade. -/
def cancellation : Event := .command ⟨"c", .cancelTrade, [], []⟩

/-- An engine whose verifier accepts every signature, or breaks down over it. -/
def lenient (crashes : Bool) : Engine where
  registry := .standard
  verifier := { accepts := fun _ _ _ => true, crashes }

/-- A trade after its cancellation. -/
def cancelledAt (sequence : UInt64) : Trade :=
  ((lenient false).handle .epoch (tradeAt sequence) cancellation).1

theorem storable_cancelledAt (sequence : UInt64) : (cancelledAt sequence).Storable := by
  refine ⟨?_, ?_, ?_, ?_, ?_⟩
  · show Instant.epoch.IsStorable
    decide
  · show Instant.epoch.IsStorable
    decide
  · intro d hd
    cases hd
  · show ∀ x ∈ ["trade_1", "maker", "BTC", "EUR", "EUR", "c"], Fits x
    decide
  · show 1 < 2 ^ 64
    decide

def atOnce (actor : Actor) : Action := .step ⟨.epoch, 0, .farFuture⟩ actor

/-- A trade is launched, and is to be cancelled. -/
def cancelling (sequence : UInt64) : List Action :=
  [.launch ⟨.epoch, 0, .farFuture⟩ (tradeAt sequence), .call 0 (.dispatch cancellation)]

/-- The worker of that trade cancels it, sees to what follows from that, and ends. -/
def ending : List Action := List.replicate 6 (atOnce (.worker 0))

/-- The writer of the store writes one record. -/
def writing : List Action := List.replicate 3 (atOnce .writer)

/-! ## The result -/

/-- When a shutdown returns, the workers of the trades that it has let go of, and those that had
stopped before, have read all the mail that had been accepted for them, in order, unless they broke
down. What is stored of such a trade is the trade as its worker left it, exactly so unless one of its
instants lies within a leap second, provided that nothing under the same id has come to be as new as
the trade was in the beginning. -/
theorem shutdown_loses_nothing {b₀ : Backend} {before during : List Action}
    (h : x.Session b₀ before during x') (hopen : x'.node.store.closed = false)
    (hfits : x'.Fits) (hk : x.node.workers.get? k = some w)
    (htaken : k ∈ x.node.live.values ∨ x.node.isRunning k = false) :
    ∃ w', x'.node.workers.get? k = some w' ∧ w'.phase ≠ .running ∧
      (w'.phase ≠ .broken →
        (x.acceptedFor k).Sublist (x.journal k).placed ∧
          (x.journal k).placed <+: (x'.journal k).placed ∧
          (x'.journal k).placed = (x'.journal k).read.map (·.2)) ∧
      (x'.Foremost k w' → ∃ record,
        x'.node.backend.records.get? w'.trade.id = some record ∧
          Snapshot.decode record = .ok w'.trade.toSnapshot.recorded ∧
          (w'.trade.toSnapshot.recorded = w'.trade.toSnapshot ↔ w'.trade.Plain)) := by
  obtain ⟨x₂, w₂, w', more, hrun, htended, hkept, hphase₂, hk', htrade, hphase, hpart, hothers⟩ :=
    h.exists_flushed hk htaken
  have hlinear := h.linear
  have hlinear' := hlinear.run hrun
  have hrunning : w'.phase ≠ .running := by rwa [hphase]
  refine ⟨w', hk', hrunning, fun hsound => ?_, fun hforemost => ?_⟩
  · have hended : w'.phase = .ended := by
      cases hw' : w'.phase with
      | running => exact absurd hw' hrunning
      | ended => rfl
      | broken => exact absurd hw' hsound
    obtain ⟨name, engine, settings, identity, hbefore⟩ := h.run
    have haccepted : x.Accounts :=
      hbefore.accounts (linear_new ..) (accounts_new name engine settings b₀ identity)
    obtain ⟨t₀, ht₀, -⟩ := (hlinear.straight k w hk).follows.trade
    obtain ⟨-, -, hplaced⟩ := (hlinear.extends_of_run hrun).journal k t₀ ht₀
    refine ⟨(haccepted k).2, hplaced, ?_⟩
    rw [(hlinear'.straight k w' hk').follows.queue hsound, (htended.kept k w' hk').emptied hended,
      List.append_nil]
  · rw [htrade]
    refine hkept.stored hphase₂ hpart hothers h.earlier hopen h.writes h.storable fun e he hid => ?_
    rw [← htrade] at hid ⊢
    exact htended.sequence_le hlinear' hfits hk' hforemost he hid

/-- A trade is cancelled after the shutdown has begun, since the order was accepted before. -/
theorem lateCancellation_is_stored :
    ∃ (x x' : Watched) (before during : List Action) (w : Worker) (record : Bytes),
      x.Session {} before during x' ∧ x'.node.store.closed = false ∧ x'.Fits ∧
        0 ∈ x.node.live.values ∧ x.acceptedFor 0 = [.event cancellation none] ∧
        (x.journal 0).read = [] ∧ x'.node.workers.get? 0 = some w ∧ w.phase = .ended ∧
        x'.Foremost 0 w ∧ (x.acceptedFor 0).Sublist ((x'.journal 0).read.map (·.2)) ∧
        w.trade.state = .cancelled ∧
        x'.node.backend.records.get? w.trade.id = some record ∧
        Snapshot.decode record = .ok w.trade.toSnapshot := by
  obtain ⟨x, x', w, w', hplay, hshutdown, hwrites, hhanded, hopen, hlive, haccepted, hread, hk,
      hstarted, horigin, hread', hengine, hk', hphase, htrade⟩ :
      ∃ (x x' : Watched) (w w' : Worker),
        (Watched.new "a" (lenient false) {} {} ⟨"local"⟩).play (cancelling 0) = some x ∧
        x.playShutdown [ending] writing = some x' ∧
        x'.node.store.attempts.all (·.succeeded) = true ∧
        x'.handed = [(0, tradeAt 0), (0, cancelledAt 0)] ∧ x'.node.store.closed = false ∧
        x.node.live.values = [0] ∧ x.acceptedFor 0 = [.event cancellation none] ∧
        (x.journal 0).read = [] ∧ x.node.workers.get? 0 = some w ∧ x'.node.started = 1 ∧
        (x'.journal 0).origin = some (tradeAt 0) ∧
        (x'.journal 0).read = [(.epoch, .event cancellation none)] ∧
        x'.node.engine = lenient false ∧ x'.node.workers.get? 0 = some w' ∧
        w'.phase = .ended ∧ w'.trade = cancelledAt 0 :=
    ⟨_, _, _, _, rfl, rfl, rfl, rfl, rfl, rfl, rfl, rfl, rfl, rfl, rfl, rfl, rfl, rfl, rfl, rfl⟩
  obtain ⟨during, hsession⟩ := session_of_play hplay hshutdown rfl hwrites hhanded (by
    simp [storable_tradeAt, storable_cancelledAt])
  have hlinear := hsession.linear.run hsession.shutdown.run
  have hfits : x'.Fits := hlinear.fits_of_single hstarted horigin (by
    rw [hread', hengine]
    decide)
  have hforemost : x'.Foremost 0 w' := fun k v hv hne => absurd (hlinear.eq_zero hstarted hv) hne
  have hlive' : 0 ∈ x.node.live.values := by simp [hlive]
  obtain ⟨w'', hk'', -, hhandled, hstored⟩ :=
    shutdown_loses_nothing hsession hopen hfits hk (.inl hlive')
  cases hk'.symm.trans hk''
  obtain ⟨hsub, hprefix, hall⟩ := hhandled (by simp [hphase])
  obtain ⟨record, hrecord, hdecode, hexact⟩ := hstored hforemost
  have hplain : w'.trade.Plain := htrade ▸ ⟨rfl, rfl, fun d hd => absurd hd List.not_mem_nil⟩
  rw [hexact.2 hplain] at hdecode
  exact ⟨x, x', _, during, w', record, hsession, hopen, hfits, hlive', haccepted, hread, hk',
    hphase, hforemost, hall ▸ hsub.trans hprefix.sublist, by rw [htrade]; rfl, hrecord, hdecode⟩

/-! ## What a shutdown cannot save -/

/-- All the mail that was accepted for a worker has been read, and its trade is stored as it is. -/
def Watched.Saves (x x' : Watched) (k : Nat) : Prop :=
  ∃ w, x'.node.workers.get? k = some w ∧
    (x.acceptedFor k).Sublist ((x'.journal k).read.map (·.2)) ∧
    ∃ record, x'.node.backend.records.get? w.trade.id = some record ∧
      Snapshot.decode record = .ok w.trade.toSnapshot

/-- A shutdown at a node over an empty backend has not saved the trade of a worker. -/
def Watched.Loses (x x' : Watched) (k : Nat) : Prop :=
  (∃ before during, x.Session {} before during x') ∧
    (∃ w, x.node.workers.get? k = some w) ∧ ¬x.Saves x' k

theorem loses_of_unread {before during : List Action} (h : x.Session {} before during x')
    (hk : x.node.workers.get? k = some w) {mail : Mail}
    (haccepted : x.acceptedFor k = [mail]) (hread : (x'.journal k).read = []) :
    x.Loses x' k := by
  refine ⟨⟨before, during, h⟩, ⟨w, hk⟩, ?_⟩
  rintro ⟨w', -, hsaved, -⟩
  rw [haccepted, hread] at hsaved
  simp at hsaved

theorem loses_of_older {before during : List Action} (h : x.Session {} before during x')
    (hk : x.node.workers.get? k = some w) (hk' : x'.node.workers.get? k = some w')
    {record : Bytes} (hrecord : x'.node.backend.records.get? w'.trade.id = some record)
    (hencode : t.toSnapshot.encode = .ok record) (ht : t.Storable)
    (hne : t.sequence ≠ w'.trade.sequence) : x.Loses x' k := by
  refine ⟨⟨before, during, h⟩, ⟨w, hk⟩, ?_⟩
  rintro ⟨w'', hk'', -, record', hrecord', hdecode⟩
  cases hk'.symm.trans hk''
  cases hrecord.symm.trans hrecord'
  rw [ht.decode_eq_ok hencode] at hdecode
  exact hne (congrArg Snapshot.sequence (Except.ok.inj hdecode))

/-- A trade is launched under the id of one that was cancelled before. For the store its snapshot is
older than the one that is there. -/
theorem relaunched_is_lost :
    ∃ x x' : Watched, x.Loses x' 1 ∧ x'.node.store.closed = false ∧ 1 ∈ x.node.live.values ∧
      ∃ w, x'.node.workers.get? 1 = some w ∧ w.phase = .ended := by
  obtain ⟨x, x', w, w', record, hplay, hshutdown, hwrites, hhanded, hopen, hlive, hk, hk', hphase,
      hrecord, hencode, hsequence⟩ :
      ∃ (x x' : Watched) (w w' : Worker) (record : Bytes),
        (Watched.new "a" (lenient false) {} {} ⟨"local"⟩).play (cancelling 0 ++
          [.forget, .release 0] ++ ending ++ .flush :: writing ++
          [.launch ⟨.epoch, 0, .farFuture⟩ (tradeAt 0)]) = some x ∧
        x.playShutdown [[atOnce (.worker 1)]] [] = some x' ∧
        x'.node.store.attempts.all (·.succeeded) = true ∧
        x'.handed = [(0, tradeAt 0), (0, cancelledAt 0), (1, tradeAt 0)] ∧
        x'.node.store.closed = false ∧ x.node.live.values = [1] ∧
        x.node.workers.get? 1 = some w ∧ x'.node.workers.get? 1 = some w' ∧ w'.phase = .ended ∧
        x'.node.backend.records.get? w'.trade.id = some record ∧
        (cancelledAt 0).toSnapshot.encode = .ok record ∧ w'.trade.sequence = 0 :=
    ⟨_, _, _, _, _, rfl, rfl, rfl, rfl, rfl, rfl, rfl, rfl, rfl, rfl, rfl, rfl⟩
  obtain ⟨during, hsession⟩ := session_of_play hplay hshutdown rfl hwrites hhanded (by
    simp [storable_tradeAt, storable_cancelledAt])
  refine ⟨x, x', ?_, hopen, by simp [hlive], w', hk', hphase⟩
  refine loses_of_older hsession hk hk' hrecord hencode (storable_cancelledAt 0) ?_
  rw [hsequence]
  decide

/-- Another call has let go of the trade just before, so that this one does not wait for its
worker. -/
theorem unawaited_is_lost :
    ∃ x x' : Watched, x.Loses x' 0 ∧ x'.node.store.closed = false ∧ x.node.live.values = [] ∧
      x.node.isRunning 0 = true := by
  obtain ⟨x, x', w, hplay, hshutdown, hwrites, hhanded, hopen, hlive, hk, hrunning, haccepted,
      hread⟩ :
      ∃ (x x' : Watched) (w : Worker),
        (Watched.new "a" (lenient false) {} {} ⟨"local"⟩).play (cancelling 0 ++ [.forget]) =
          some x ∧
        x.playShutdown [] writing = some x' ∧
        x'.node.store.attempts.all (·.succeeded) = true ∧
        x'.handed = [(0, tradeAt 0)] ∧ x'.node.store.closed = false ∧
        x.node.live.values = [] ∧ x.node.workers.get? 0 = some w ∧ x.node.isRunning 0 = true ∧
        x.acceptedFor 0 = [.event cancellation none] ∧ (x'.journal 0).read = [] :=
    ⟨_, _, _, rfl, rfl, rfl, rfl, rfl, rfl, rfl, rfl, rfl, rfl⟩
  obtain ⟨during, hsession⟩ := session_of_play hplay hshutdown rfl hwrites hhanded (by
    simp [storable_tradeAt])
  exact ⟨x, x', loses_of_unread hsession hk haccepted hread, hopen, hlive, hrunning⟩

/-- A seller who waits for the deposit. -/
def awaiting : Trade :=
  { Trade.initial .epoch "trade_1" ⟨.sellerAsMaker, .multisigEscrow⟩ Trade.soundTerms ⟨"taker"⟩
      Standard.Escrow.sellerAsMaker with state := .awaitingDeposit, sequence := 1 }

theorem storable_awaiting : awaiting.Storable := by
  refine ⟨?_, ?_, ?_, ?_, ?_⟩ <;> decide

/-- The news that the deposit has been signed. -/
def deposit : Event := .inbound ⟨"trade_1", 2, ⟨"taker"⟩, .depositTxSigned, [1], [2]⟩

/-- The worker breaks down over a signature, and never reads on. -/
theorem broken_is_lost :
    ∃ x x' : Watched, x.Loses x' 0 ∧ x'.node.store.closed = false ∧ 0 ∈ x.node.live.values ∧
      ∃ w, x'.node.workers.get? 0 = some w ∧ w.phase = .broken := by
  obtain ⟨x, x', w, w', hplay, hshutdown, hwrites, hhanded, hopen, hlive, hk, hk', hphase,
      haccepted, hread⟩ :
      ∃ (x x' : Watched) (w w' : Worker),
        (Watched.new "a" (lenient true) {} {} ⟨"local"⟩).play
          [.launch ⟨.epoch, 0, .farFuture⟩ awaiting, .call 0 (.dispatch deposit)] = some x ∧
        x.playShutdown [[atOnce (.worker 0)]] writing = some x' ∧
        x'.node.store.attempts.all (·.succeeded) = true ∧
        x'.handed = [(0, awaiting)] ∧ x'.node.store.closed = false ∧ x.node.live.values = [0] ∧
        x.node.workers.get? 0 = some w ∧ x'.node.workers.get? 0 = some w' ∧
        w'.phase = .broken ∧ x.acceptedFor 0 = [.event deposit none] ∧
        (x'.journal 0).read = [] :=
    ⟨_, _, _, _, rfl, rfl, rfl, rfl, rfl, rfl, rfl, rfl, rfl, rfl, rfl⟩
  obtain ⟨during, hsession⟩ := session_of_play hplay hshutdown rfl hwrites hhanded (by
    simp [storable_awaiting])
  have hloses := loses_of_unread hsession hk haccepted hread
  exact ⟨x, x', hloses, hopen, by simp [hlive], w', hk', hphase⟩

/-- The sequence wraps around, and the first snapshot counts as the newest one. -/
theorem wrapped_is_lost :
    ∃ x x' : Watched, x.Loses x' 0 ∧ x'.node.store.closed = false ∧ 0 ∈ x.node.live.values ∧
      ∃ w, x'.node.workers.get? 0 = some w ∧ w.phase = .ended ∧ w.trade.sequence = 0 := by
  obtain ⟨x, x', w, w', record, hplay, hshutdown, hwrites, hhanded, hopen, hlive, hk, hk', hphase,
      hrecord, hencode, hsequence⟩ :
      ∃ (x x' : Watched) (w w' : Worker) (record : Bytes),
        (Watched.new "a" (lenient false) {} {} ⟨"local"⟩).play (cancelling 0xFFFFFFFFFFFFFFFF) =
          some x ∧
        x.playShutdown [ending] writing = some x' ∧
        x'.node.store.attempts.all (·.succeeded) = true ∧
        x'.handed = [(0, tradeAt 0xFFFFFFFFFFFFFFFF), (0, cancelledAt 0xFFFFFFFFFFFFFFFF)] ∧
        x'.node.store.closed = false ∧ x.node.live.values = [0] ∧
        x.node.workers.get? 0 = some w ∧ x'.node.workers.get? 0 = some w' ∧ w'.phase = .ended ∧
        x'.node.backend.records.get? w'.trade.id = some record ∧
        (tradeAt 0xFFFFFFFFFFFFFFFF).toSnapshot.encode = .ok record ∧ w'.trade.sequence = 0 :=
    ⟨_, _, _, _, _, rfl, rfl, rfl, rfl, rfl, rfl, rfl, rfl, rfl, rfl, rfl, rfl⟩
  obtain ⟨during, hsession⟩ := session_of_play hplay hshutdown rfl hwrites hhanded (by
    simp [storable_tradeAt, storable_cancelledAt])
  refine ⟨x, x', ?_, hopen, by simp [hlive], w', hk', hphase, hsequence⟩
  refine loses_of_older hsession hk hk' hrecord hencode (storable_tradeAt _) ?_
  rw [hsequence]
  decide

/-- The store has been closed, and takes no snapshot any more. -/
theorem closed_is_lost :
    ∃ x x' : Watched, x.Loses x' 0 ∧ x'.node.store.closed = true ∧ 0 ∈ x.node.live.values ∧
      ∃ w, x'.node.workers.get? 0 = some w ∧ w.phase = .ended := by
  obtain ⟨x, x', w, w', record, hplay, hshutdown, hwrites, hhanded, hclosed, hlive, hk, hk',
      hphase, hrecord, hencode, hsequence⟩ :
      ∃ (x x' : Watched) (w w' : Worker) (record : Bytes),
        (Watched.new "a" (lenient false) {} {} ⟨"local"⟩).play
          [.launch ⟨.epoch, 0, .farFuture⟩ (tradeAt 0), .close, .call 0 (.dispatch cancellation)] =
            some x ∧
        x.playShutdown [ending] writing = some x' ∧
        x'.node.store.attempts.all (·.succeeded) = true ∧
        x'.handed = [(0, tradeAt 0), (0, cancelledAt 0)] ∧
        x'.node.store.closed = true ∧ x.node.live.values = [0] ∧
        x.node.workers.get? 0 = some w ∧ x'.node.workers.get? 0 = some w' ∧ w'.phase = .ended ∧
        x'.node.backend.records.get? w'.trade.id = some record ∧
        (tradeAt 0).toSnapshot.encode = .ok record ∧ w'.trade.sequence = 1 :=
    ⟨_, _, _, _, _, rfl, rfl, rfl, rfl, rfl, rfl, rfl, rfl, rfl, rfl, rfl, rfl⟩
  obtain ⟨during, hsession⟩ := session_of_play hplay hshutdown rfl hwrites hhanded (by
    simp [storable_tradeAt, storable_cancelledAt])
  refine ⟨x, x', ?_, hclosed, by simp [hlive], w', hk', hphase⟩
  refine loses_of_older hsession hk hk' hrecord hencode (storable_tradeAt 0) ?_
  rw [hsequence]
  decide

/-- None of the conditions of the theorem above can be left out: an old trade of the same id, a
trade that another call waits for, a worker that breaks down, a sequence that wraps around, and a
closed store. -/
theorem shutdown_can_lose :
    (∃ x x' : Watched, x.Loses x' 1 ∧ x'.node.store.closed = false ∧ 1 ∈ x.node.live.values ∧
      ∃ w, x'.node.workers.get? 1 = some w ∧ w.phase = .ended) ∧
    (∃ x x' : Watched, x.Loses x' 0 ∧ x'.node.store.closed = false ∧ x.node.live.values = [] ∧
      x.node.isRunning 0 = true) ∧
    (∃ x x' : Watched, x.Loses x' 0 ∧ x'.node.store.closed = false ∧ 0 ∈ x.node.live.values ∧
      ∃ w, x'.node.workers.get? 0 = some w ∧ w.phase = .broken) ∧
    (∃ x x' : Watched, x.Loses x' 0 ∧ x'.node.store.closed = false ∧ 0 ∈ x.node.live.values ∧
      ∃ w, x'.node.workers.get? 0 = some w ∧ w.phase = .ended ∧ w.trade.sequence = 0) ∧
    ∃ x x' : Watched, x.Loses x' 0 ∧ x'.node.store.closed = true ∧ 0 ∈ x.node.live.values ∧
      ∃ w, x'.node.workers.get? 0 = some w ∧ w.phase = .ended :=
  ⟨relaunched_is_lost, unawaited_is_lost, broken_is_lost, wrapped_is_lost, closed_is_lost⟩

end Node

end PeerTrade
