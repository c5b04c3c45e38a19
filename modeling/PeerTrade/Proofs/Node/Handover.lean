import PeerTrade.Proofs.Node.Linearization
import PeerTrade.Proofs.Store.Convergence

/-!
# What workers hand to the store

For the store a run of the node is a run of its own, whose requests are the snapshots that the
workers hand in (`Node.Watched.Run.store`). Every one of them is the trade of its worker as it was
after some of its mail, and the last one is the trade as it is now, unless the worker has still to
hand it in or resumed it and changed nothing (`Node.Kept`).
-/

namespace PeerTrade.Node

variable {n m : Node} {x x' : Watched} {a : Action} {actions : List Action} {k : Nat}
  {w w' : Worker} {t : Trade}

/-! ## Runs of the store -/

theorem Change.store_run (h : Change n a m) :
    ∃ moves, Store.Run n.store n.backend moves m.store m.backend ∧
      Store.requests moves = (n.handsIn a).map (·.2) := by
  have hnothing (hstore : m.store = n.store) (hbackend : m.backend = n.backend)
      (hhands : n.handsIn a = []) : ∃ moves, Store.Run n.store n.backend moves m.store m.backend ∧
        Store.requests moves = (n.handsIn a).map (·.2) := by
    refine ⟨[], ?_, by rw [hhands]; rfl⟩
    rw [hstore, hbackend]
    exact .nil
  cases h with
  | still ha => exact hnothing rfl rfl (n.handsIn_of_plain ha)
  | store move ha hother hact =>
    refine ⟨[move], .concat .nil hact, ?_⟩
    rw [n.handsIn_of_plain ha, Store.requests_of_ne hother]
    rfl
  | lost => exact hnothing rfl rfl rfl
  | call => exact hnothing rfl rfl rfl
  | news ha => exact hnothing rfl rfl (n.handsIn_of_plain ha)
  | enter ha => exact hnothing rfl rfl (n.handsIn_of_plain ha)
  | @chore now k w chore chores hk hrunning hchores =>
    cases chore with
    | persist attempt =>
      have hhands : n.handsIn (.step now (.worker k)) = [(k, w.trade)] := by
        simp [handsIn, hk, hrunning, hchores]
      exact ⟨[.schedule w.trade], .concat .nil rfl, by rw [hhands]; rfl⟩
    | _ => exact hnothing rfl rfl (by simp [handsIn, hk, hrunning, hchores])
  | @read now k w mail mailbox admitted hk hrunning hchores =>
    obtain ⟨-, hstore, hbackend⟩ := n.read_same now k { w with mailbox } mail
    exact hnothing hstore hbackend (by simp [handsIn, hk, hrunning, hchores])
  | ended hk hrunning hchores => exact hnothing rfl rfl (by simp [handsIn, hk, hrunning, hchores])
  | @launch now t => exact ⟨[.schedule t], .concat .nil rfl, rfl⟩
  | resume => exact hnothing rfl rfl rfl
  | forget => exact hnothing rfl rfl rfl

theorem Watched.Run.store (h : x.Run actions x') :
    ∃ moves more, Store.Run x.node.store x.node.backend moves x'.node.store x'.node.backend ∧
      x'.handed = x.handed ++ more ∧ Store.requests moves = more.map (·.2) := by
  induction h with
  | nil => exact ⟨[], [], .nil, (List.append_nil _).symm, rfl⟩
  | @concat actions x₁ x₂ a hrun hact ih =>
    obtain ⟨moves, more, hmoves, hhanded, hrequests⟩ := ih
    obtain ⟨m, n', hchange, hstill, rfl⟩ := Watched.exists_change_of_act hact
    obtain ⟨moves', hmoves', hrequests'⟩ := hchange.store_run
    rw [← hstill.store, ← hstill.backend] at hmoves'
    refine ⟨moves ++ moves', more ++ x₁.node.handsIn a, hmoves.trans hmoves', ?_, ?_⟩
    · show _ ++ _ = _
      rw [hhanded, List.append_assoc]
    · rw [Store.requests_append, hrequests, hrequests', List.map_append]

/-! ## What was handed in -/

/-- The last snapshot that a worker handed in is that of a given trade. -/
def Watched.LastHanded (x : Watched) (k : Nat) (t : Trade) : Prop :=
  ∃ earlier later, x.handed = earlier ++ (k, t) :: later ∧ ∀ e ∈ later, e.1 ≠ k

/-- A worker has handed nothing in, and its trade is what some snapshot was restored to. -/
def Watched.Untouched (source : Snapshot → Prop) (x : Watched) (k : Nat) (t : Trade) : Prop :=
  (∀ e ∈ x.handed, e.1 ≠ k) ∧ ∃ s, source s ∧ x.node.engine.restore s = .ok t

/-- What was handed in for a worker: its trade as it was at some place, and last of all the trade
as it is now, unless that is still to be done or the trade was resumed and never changed. -/
structure Kept (source : Snapshot → Prop) (x : Watched) (k : Nat) (w : Worker) : Prop where
  resting : w.phase ≠ .running → w.chores = []
  emptied : w.phase = .ended → w.mailbox.queue = []
  handed : ∀ t, (k, t) ∈ x.handed →
    ∃ i ≤ (x.journal k).read.length, (x.journal k).Shows x.node.engine i t
  newest : (∃ attempt, .persist attempt ∈ w.chores) ∨ x.LastHanded k w.trade ∨
    x.Untouched source k w.trade

/-- What was handed in for the workers of a node. -/
structure Tended (source : Snapshot → Prop) (x : Watched) : Prop where
  known : ∀ e ∈ x.handed, ∃ w, x.node.workers.get? e.1 = some w
  kept : ∀ k w, x.node.workers.get? k = some w → Kept source x k w

variable {source : Snapshot → Prop}

/-- What is observed of an action. -/
theorem Watched.of_act (hact : x.act a = some x') :
    x'.handed = x.handed ++ x.node.handsIn a ∧ ∀ k, x'.journal k =
      (x.journal k).note (x.node.heard k a) (x.node.workers.get? k) (x'.node.workers.get? k) := by
  obtain ⟨n', -, rfl⟩ := Option.map_eq_some_iff.1 hact
  exact ⟨rfl, fun _ => rfl⟩

theorem Watched.LastHanded.append (h : x.LastHanded k t) (more : List (Nat × Trade))
    (hhanded : x'.handed = x.handed ++ more) (hothers : ∀ t, (k, t) ∉ more) :
    x'.LastHanded k t := by
  obtain ⟨earlier, later, hsplit, hlater⟩ := h
  refine ⟨earlier, later ++ more, by simp [hhanded, hsplit], fun e he => ?_⟩
  rcases List.mem_append.1 he with he | he
  · exact hlater e he
  · rintro rfl
    exact hothers e.2 he

theorem Watched.Untouched.append (h : x.Untouched source k t) (more : List (Nat × Trade))
    (hhanded : x'.handed = x.handed ++ more) (hothers : ∀ t, (k, t) ∉ more)
    (hengine : x'.node.engine = x.node.engine) : x'.Untouched source k t := by
  obtain ⟨hnone, s, hs, hrestore⟩ := h
  refine ⟨fun e he => ?_, s, hs, by rw [hengine, hrestore]⟩
  rw [hhanded] at he
  rcases List.mem_append.1 he with he | he
  · exact hnone e he
  · rintro rfl
    exact hothers e.2 he

/-- What is handed in for a worker in an action is its trade as it is now. -/
theorem Kept.handed_after (h : Kept source x k w) (hx : x.Extends x')
    (hfollows : Follows x.node.engine (x.journal k) w)
    (hhanded : x'.handed = x.handed ++ x.node.handsIn a)
    (hnew : ∀ t, (k, t) ∈ x.node.handsIn a → t = w.trade) (t : Trade) (ht : (k, t) ∈ x'.handed) :
    ∃ i ≤ (x'.journal k).read.length, (x'.journal k).Shows x'.node.engine i t := by
  rw [hhanded] at ht
  rcases List.mem_append.1 ht with ht | ht
  · obtain ⟨i, hi, hshows⟩ := h.handed t ht
    obtain ⟨hread, hshows'⟩ := hx.shows hshows hi
    exact ⟨i, Nat.le_trans hi hread.length_le, hshows'⟩
  · obtain ⟨hread, hshows'⟩ := hx.shows hfollows.trade (Nat.le_refl _)
    rw [hnew t ht]
    exact ⟨_, hread.length_le, hshows'⟩

/-- As long as nothing is handed in, the last snapshot stays the last one. -/
theorem Kept.newest_after (h : Kept source x k w) (hx : x.Extends x')
    (hhanded : x'.handed = x.handed ++ x.node.handsIn a)
    (hhands : ∀ t, (k, t) ∉ x.node.handsIn a) :
    (∃ attempt, .persist attempt ∈ w.chores) ∨ x'.LastHanded k w.trade ∨
      x'.Untouched source k w.trade :=
  h.newest.imp_right (.imp (·.append _ hhanded hhands) (·.append _ hhanded hhands hx.engine))

/-- A chore hands the trade in as it is now, or leaves what was handed in alone. -/
theorem Kept.chore (h : Kept source x k w) (hx : x.Extends x')
    (hfollows : Follows x.node.engine (x.journal k) w)
    (hhanded : x'.handed = x.handed ++ x.node.handsIn a) {chore : Chore}
    (hhands : x.node.handsIn a = match chore with
      | .persist _ => [(k, w.trade)]
      | _ => [])
    (hchores : w.chores = chore :: w'.chores) (htrade : w'.trade = w.trade)
    (hphase : w'.phase = .running) : Kept source x' k w' := by
  have hrunning : ¬w'.phase ≠ .running := by simp [hphase]
  have hended : w'.phase ≠ .ended := by simp [hphase]
  by_cases hpersist : ∃ attempt, chore = .persist attempt
  · obtain ⟨attempt, rfl⟩ := hpersist
    refine ⟨fun h => absurd h hrunning, fun h => absurd h hended,
      h.handed_after hx hfollows hhanded fun t ht => ?_,
      .inr (.inl ⟨x.handed, [], ?_, fun e he => absurd he List.not_mem_nil⟩)⟩
    · rw [hhands] at ht
      exact congrArg Prod.snd (List.mem_singleton.1 ht)
    · rw [hhanded, hhands, htrade]
  · have hnothing (t : Trade) : (k, t) ∉ x.node.handsIn a := by
      rw [hhands]
      cases chore with
      | persist attempt => exact absurd ⟨attempt, rfl⟩ hpersist
      | _ => exact List.not_mem_nil
    refine ⟨fun h => absurd h hrunning, fun h => absurd h hended,
      h.handed_after hx hfollows hhanded fun t ht => absurd ht (hnothing t), ?_⟩
    rw [htrade]
    refine (h.newest_after hx hhanded hnothing).imp_left ?_
    rintro ⟨attempt, hmem⟩
    rw [hchores] at hmem
    rcases List.mem_cons.1 hmem with heq | hmem
    · exact absurd ⟨attempt, heq.symm⟩ hpersist
    · exact ⟨attempt, hmem⟩

theorem Kept.turn (h : Kept source x k w) (hx : x.Extends x')
    (hfollows : Follows x.node.engine (x.journal k) w)
    (hhanded : x'.handed = x.handed ++ x.node.handsIn a) (hturn : Turn x.node a k w w') :
    Kept source x' k w' := by
  have hplaces (hhands : ∀ t, (k, t) ∉ x.node.handsIn a) :=
    h.handed_after hx hfollows hhanded fun t ht => absurd ht (hhands t)
  have hidle (hhands : ∀ t, (k, t) ∉ x.node.handsIn a) (hchores : w.chores = []) :
      x'.LastHanded k w.trade ∨ x'.Untouched source k w.trade :=
    (h.newest_after hx hhanded hhands).resolve_left (by simp [hchores])
  cases hturn with
  | idles hheard hhands htrade hphase hchores hqueue =>
    refine ⟨?_, ?_, hplaces hhands, ?_⟩
    · rw [hphase, hchores]
      exact h.resting
    · rw [hphase]
      intro hended
      rw [hqueue (by simp [hended]), h.emptied hended]
    · rw [htrade, hchores]
      exact h.newest_after hx hhanded hhands
  | does hheard hrunning hchores htrade hphase hhands =>
    exact h.chore hx hfollows hhanded hhands hchores htrade hphase
  | reads ha hhands hheard hrunning hchores hqueue htrade hphase hpersist =>
    have hnothing (t : Trade) : (k, t) ∉ x.node.handsIn a := by simp [hhands]
    refine ⟨fun h => absurd hphase h, fun h => ?_, hplaces hnothing, ?_⟩
    · rw [hphase] at h
      cases h
    · rcases hpersist with hsame | hmem
      · rw [hsame]
        exact .inr (hidle hnothing hchores)
      · exact .inl ⟨0, hmem⟩
  | breaks hheard hhands hrunning hchores htrade hphase hchores' =>
    have hnothing (t : Trade) : (k, t) ∉ x.node.handsIn a := by simp [hhands]
    refine ⟨fun _ => hchores', fun h => ?_, hplaces hnothing, ?_⟩
    · rw [hphase] at h
      cases h
    · rw [htrade]
      exact .inr (hidle hnothing hchores)
  | ends hheard hhands hrunning hchores hqueue htrade hphase hchores' hqueue' =>
    have hnothing (t : Trade) : (k, t) ∉ x.node.handsIn a := by simp [hhands]
    refine ⟨fun _ => hchores', fun _ => hqueue', hplaces hnothing, ?_⟩
    rw [htrade]
    exact .inr (hidle hnothing hchores)

/-- A new worker has handed in the trade that it begins with, or resumed it. -/
theorem kept_of_begins (hknown : ∀ e ∈ x.handed, e.1 ≠ k)
    (horigin : (x'.journal k).origin = some w.trade) (hengine : x'.node.engine = x.node.engine)
    (hhanded : x'.handed = x.handed ++ x.node.handsIn a) (hbegins : Begins x.node a k w)
    (hphase : w.phase = .running) (hchores : w.chores = [])
    (hsource : ∀ now s, a = .resume now s → source s) : Kept source x' k w := by
  refine ⟨fun _ => hchores, fun h => ?_, fun t ht => ?_, .inr ?_⟩
  · rw [hphase] at h
    cases h
  · rw [hhanded] at ht
    rcases List.mem_append.1 ht with ht | ht
    · exact absurd rfl (hknown _ ht)
    · refine ⟨0, Nat.zero_le _, w.trade, horigin, ?_⟩
      cases hbegins with
      | launched ha hk =>
        rw [ha] at ht
        exact congrArg Prod.snd (List.mem_singleton.1 ht)
      | resumed ha =>
        rw [ha] at ht
        cases ht
  · cases hbegins with
    | launched ha hk =>
      refine .inl ⟨x.handed, [], ?_, fun e he => absurd he List.not_mem_nil⟩
      rw [hhanded, ha, hk]
      rfl
    | resumed ha hrestore hk =>
      refine .inr ⟨fun e he => hknown e ?_, _, hsource _ _ ha, by rw [hengine, hrestore]⟩
      rw [hhanded, ha] at he
      simpa [handsIn] using he

/-- Whoever hands something in is a worker. -/
theorem Linear.exists_worker_of_mem_handsIn (h : Linear x) (hact : x.act a = some x')
    {e : Nat × Trade} (he : e ∈ x.node.handsIn a) : ∃ w, x'.node.workers.get? e.1 = some w := by
  by_cases hlaunch : ∃ now t, a = .launch now t
  · obtain ⟨now, t, rfl⟩ := hlaunch
    obtain ⟨m, n', hchange, hstill, rfl⟩ := Watched.exists_change_of_act hact
    rw [List.mem_singleton.1 he]
    cases hchange with
    | still ha => exact ha.elim
    | store move ha => exact ha.elim
    | news ha => exact ha.elim
    | enter ha => exact ha.elim
    | launch hfree =>
      obtain ⟨w, hk, -⟩ := hstill.present x.node.started _
        ((x.node.get?_setWorker x.node.started x.node.started _).trans (if_pos rfl))
      exact ⟨w, hk⟩
  · obtain ⟨w, hk⟩ : ∃ w, x.node.workers.get? e.1 = some w := by
      unfold handsIn at he
      split at he
      next now k =>
        split at he
        next w hk =>
          split at he
          · rw [List.mem_singleton.1 he]
            exact ⟨w, hk⟩
          · cases he
        next => cases he
      next now t => exact absurd ⟨now, t, rfl⟩ hlaunch
      next => cases he
    obtain ⟨w', hk', -⟩ := h.turn hact hk
    exact ⟨w', hk'⟩

theorem tended_new (source : Snapshot → Prop) (name : String) (engine : Engine)
    (settings : WorkerSettings) (backend : Backend) (identity : Peer) :
    Tended source (.new name engine settings backend identity) :=
  ⟨fun e he => absurd he List.not_mem_nil, fun k w hk => by cases hk⟩

theorem Tended.act (h : Tended source x) (hlinear : Linear x) (hact : x.act a = some x')
    (hsource : ∀ now s, a = .resume now s → source s) : Tended source x' := by
  have hx := hlinear.extends_of_act hact
  obtain ⟨hhanded, -⟩ := Watched.of_act hact
  constructor
  · intro e he
    rw [hhanded] at he
    rcases List.mem_append.1 he with he | he
    · obtain ⟨w, hk⟩ := h.known e he
      obtain ⟨w', hk', -⟩ := hlinear.turn hact hk
      exact ⟨w', hk'⟩
    · exact hlinear.exists_worker_of_mem_handsIn hact he
  · intro k w' hk'
    cases hk : x.node.workers.get? k with
    | none =>
      obtain ⟨hbegins, hphase, hchores, horigin⟩ := Watched.begins_of_act hact hk hk'
      refine kept_of_begins (fun e he heq => ?_) horigin hx.engine hhanded hbegins hphase hchores
        hsource
      obtain ⟨w, hw⟩ := h.known e he
      rw [heq, hk] at hw
      cases hw
    | some w =>
      obtain ⟨w'', hk'', hturn⟩ := hlinear.turn hact hk
      cases hk'.symm.trans hk''
      exact (h.kept k w hk).turn hx (hlinear.straight k w hk).follows hhanded hturn

theorem Watched.Run.tended (h : x.Run actions x') (hlinear : Linear x) (htended : Tended source x)
    (hsource : ∀ now s, .resume now s ∈ actions → source s) : Tended source x' := by
  induction h with
  | nil => exact htended
  | concat hrun hact ih =>
    have htended := ih fun now s hs => hsource now s (List.mem_append_left _ hs)
    refine htended.act (hlinear.run hrun) hact fun now s hs => hsource now s ?_
    rw [hs]
    exact List.mem_append_right _ List.mem_cons_self

end PeerTrade.Node
