import PeerTrade.Proofs.Node.Linearization
import PeerTrade.Proofs.Node.Ticks
import PeerTrade.Proofs.Standard.Expiry
import PeerTrade.Proofs.Standard.Tables

/-!
# Deadlines of workers

A worker keeps its deadlines twice, in its trade and as timers, and what keeps the two together are the
effects of its commits, which it carries out one by one. Between two mails they agree: whatever is
armed is minded, and no timer is left of a deadline that was cleared or armed anew
(`Node.deadlines_are_minded`).
-/

namespace PeerTrade

open DeadlineMove

/-! ## Effects -/

/-- An effect does something about a kind of deadline. -/
def Effect.Concerns (kind : DeadlineKind) : Effect → Prop
  | arm id _ => id.kind = kind
  | clear k => k = kind
  | send _ => False

theorem Effect.concerns_iff {e : Effect} {kind : DeadlineKind} :
    e.Concerns kind ↔ ∃ m, e.move? = some m ∧ m.kind = kind := by
  cases e <;> simp [Concerns, move?, DeadlineMove.kind]

/-- The effects of the commits in a history, in order. -/
def History.effects (h : History) : List Effect := h.flatMap (·.2.effects)

theorem History.effects_append (h h' : History) :
    (h ++ h').effects = h.effects ++ h'.effects :=
  List.flatMap_append

/-- A deadline of a trade stands after some effects: the last one that concerns its kind armed it,
or there is none and it was armed before. -/
def Trade.StandsAfter (t : Trade) (effects : List Effect) (id : DeadlineId) : Prop :=
  (∃ before after since, effects = before ++ .arm id after :: since ∧
    ∀ e ∈ since, ¬e.Concerns id.kind) ∨
    (id ∈ t.armed ∧ ∀ e ∈ effects, ¬e.Concerns id.kind)

/-- The deadline that is armed after some effects was armed by the last one that concerns its kind,
or was armed before and there is no such effect. -/
theorem Effect.last_of_liveAfter {kind : DeadlineKind} {start : Option DeadlineId}
    {effects : List Effect} {id : DeadlineId}
    (h : liveAfter kind start (Effect.moves effects) = some id) :
    (∃ before after since, effects = before ++ .arm id after :: since ∧
      ∀ e ∈ since, ¬e.Concerns kind) ∨
      (start = some id ∧ ∀ e ∈ effects, ¬e.Concerns kind) := by
  induction effects using List.reverseRecOn with
  | nil => exact .inr ⟨h, fun _ he => absurd he List.not_mem_nil⟩
  | append_singleton rest e ih =>
    rw [Effect.moves_append, liveAfter_append] at h
    by_cases hconcerns : e.Concerns kind
    · -- the last effect decides
      cases e with
      | send m => exact hconcerns.elim
      | arm id' after =>
        have hid : some id' = some id := (if_pos hconcerns).symm.trans h
        cases hid
        exact .inl ⟨rest, after, [], rfl, fun _ he => absurd he List.not_mem_nil⟩
      | clear k =>
        have hnone : none = some id := (if_pos hconcerns).symm.trans h
        cases hnone
    · have huntouched : ∀ m ∈ Effect.moves [e], m.kind ≠ kind := by
        intro m hm hkind
        obtain ⟨e', he', hmove⟩ := List.mem_filterMap.1 hm
        cases List.mem_singleton.1 he'
        exact hconcerns (Effect.concerns_iff.2 ⟨m, hmove, hkind⟩)
      rw [liveAfter_of_untouched huntouched] at h
      have hlast {effects : List Effect} (hall : ∀ e ∈ effects, ¬e.Concerns kind) :
          ∀ e' ∈ effects ++ [e], ¬e'.Concerns kind := by
        intro e' he'
        rcases List.mem_append.1 he' with he' | he'
        · exact hall e' he'
        · rw [List.mem_singleton.1 he']
          exact hconcerns
      rcases ih h with ⟨before, after, since, rfl, hsince⟩ | ⟨hstart, hall⟩
      · exact .inl ⟨before, after, since ++ [e], by simp, hlast hsince⟩
      · exact .inr ⟨hstart, hlast hall⟩

/-! ## What an outcome asks of a worker -/

theorem Event.filterMap_expiry (e : Event) : e.expiry.filterMap Chore.effect? = [] := by
  cases e <;> rfl

/-- The chores that an outcome entails carry out the effects of the commit, in their order. -/
theorem Outcome.filterMap_chores (event : Event) (o : Outcome) :
    (o.chores event).filterMap Chore.effect? = (o.commit?.map (·.effects)).getD [] := by
  cases o with
  | rejected r => rfl
  | committed c =>
    have heffects : (c.effects.map Effect.chore).filterMap Chore.effect? = c.effects := by
      induction c.effects with
      | nil => rfl
      | cons e rest ih => simp [ih]
    have hend : (.post (.stateChanged c.source c.target) ::
        if c.finalized then [.post (.finalized c.target)] else []).filterMap Chore.effect? = [] := by
      split <;> rfl
    show (.persist 0 :: event.expiry ++ c.effects.map Effect.chore ++ _).filterMap _ = _
    rw [List.filterMap_append, hend, List.append_nil, List.filterMap_append, heffects]
    show event.expiry.filterMap Chore.effect? ++ c.effects = c.effects
    rw [Event.filterMap_expiry, List.nil_append]

namespace Node

variable {x x' : Watched} {n n' : Node} {a : Action} {k : Nat} {w w' : Worker} {t₀ : Trade}

/-! ## Chores -/

theorem done_of_plain (n : Node) (k : Nat) (ha : a.IsPlain) : n.done k a = [] := by
  cases a with
  | step now actor =>
    cases actor with
    | worker => exact ha.elim
    | _ => rfl
  | _ => rfl

/-- Nothing gets lost of what a worker has to do: the effects that were pending and those of the
event that is read, if there is one, are carried out or pending after an action. -/
def Proceeds (n : Node) (a : Action) (k : Nat) (w w' : Worker) : Prop :=
  w.pending ++ (n.engine.history w.trade (Mail.stream (n.heard k a).toList)).effects =
    n.done k a ++ w'.pending

theorem proceeds_of_idle (hheard : n.heard k a = none) (hdone : n.done k a = [])
    (hchores : w'.chores = w.chores) : Proceeds n a k w w' := by
  rw [Proceeds, hheard, hdone, Worker.pending, Worker.pending, hchores]
  exact List.append_nil _

/-- What is pending after an event has been decided on are the effects of its commit. -/
theorem pending_decide (w : Worker) (engine : Engine) (date : Instant) (event : Event)
    (caller : Option Nat) :
    (w.decide engine date event caller).pending =
      (engine.history w.trade [(date, event)]).effects := by
  have hanswers (o : Outcome) :
      (caller.toList.map (Chore.answer · o)).filterMap Chore.effect? = [] := by
    cases caller <;> rfl
  show (Outcome.chores event (engine.handle date w.trade event).2 ++
    caller.toList.map (Chore.answer · (engine.handle date w.trade event).2)).filterMap _ = _
  rw [List.filterMap_append, hanswers, List.append_nil, Outcome.filterMap_chores]
  cases houtcome : engine.handle date w.trade event with
  | mk t' o =>
    cases o with
    | rejected r =>
      rw [Engine.history_cons_of_rejected houtcome]
      rfl
    | committed c =>
      rw [Engine.history_cons_of_committed houtcome]
      exact (List.append_nil _).symm

theorem pending_hear (w : Worker) (limit : UInt32) (f : PersistFailure) (attempt : UInt32)
    (hchores : w.chores = []) : (w.hear limit f attempt).pending = [] := by
  rw [Worker.pending, Worker.hear]
  split
  · rw [hchores]
    rfl
  · dsimp only
    split <;> rfl

/-- A worker that reads a mail. -/
theorem proceeds_read {now : Time} {mail : Mail} {mailbox : Mailbox Actor Mail}
    {admitted : Option Actor} (hk : n.workers.get? k = some w) (hrunning : w.phase = .running)
    (hchores : w.chores = []) (htake : w.mailbox.take = some (mail, mailbox, admitted))
    (hk' : (n.read now k { w with mailbox } mail).workers.get? k = some w') :
    Proceeds n (.step now (.worker k)) k w w' := by
  obtain ⟨hqueue, -⟩ := Mailbox.take_eq htake
  have hheard := heard_eq now hk hrunning hchores hqueue
  have hdone : n.done k (.step now (.worker k)) = [] := by simp [done, hk, hchores]
  have hpending : w.pending = [] := by rw [Worker.pending, hchores]; rfl
  have hset {w₁ : Worker} (h : (n.setWorker k w₁).workers.get? k = some w') : w' = w₁ := by
    rw [get?_setWorker, if_pos rfl] at h
    exact (Option.some.inj h).symm
  -- a mail that is decided on says what is pending
  have hdecided {date : Instant} (hheard : n.heard k (.step now (.worker k)) = some (date, mail))
      (hafter : w'.pending =
        (n.engine.history w.trade (Mail.stream [(date, mail)])).effects) :
      Proceeds n (.step now (.worker k)) k w w' := by
    rw [Proceeds, hheard, hdone, hpending, hafter]
    rfl
  cases mail with
  | event e caller =>
    rw [read] at hk'
    split at hk'
    next hcrash =>
      have hbroken := hset (by rw [← hk', (n.breakDown_same k _ caller).2.2.2.2.2.2])
      refine proceeds_of_idle (hheard.trans (if_pos hcrash)) hdone ?_
      rw [hbroken]
    next hcrash =>
      refine hdecided (hheard.trans (if_neg hcrash)) ?_
      rw [hset hk', pending_decide]
      rfl
  | inspect c =>
    refine hdecided hheard ?_
    rw [hset hk']
    exact hpending
  | persistFailed f attempt =>
    refine hdecided hheard ?_
    rw [hset hk']
    exact pending_hear { w with mailbox } _ f attempt hchores

/-- Mail that arrives gives nobody anything to do yet. -/
theorem proceeds_of_arrival {k' : Nat} {w₀ : Worker} {mailbox : Mailbox Actor Mail}
    (hheard : n.heard k a = none) (hdone : n.done k a = []) (hk₀ : n.workers.get? k' = some w₀)
    (hk : n.workers.get? k = some w)
    (hk' : (n.setWorker k' { w₀ with mailbox }).workers.get? k = some w') :
    Proceeds n a k w w' := by
  refine proceeds_of_idle hheard hdone ?_
  rw [get?_setWorker] at hk'
  split at hk'
  next heq =>
    cases hk'
    rw [heq, hk₀] at hk
    cases hk
    rfl
  next =>
    cases hk.symm.trans hk'
    rfl

/-- A chore is done, and it was the next one. -/
theorem proceeds_of_chore {now : Time} {k' : Nat} {w₀ : Worker} {chore : Chore}
    {chores : List Chore} (hk₀ : n.workers.get? k' = some w₀) (hrunning : w₀.phase = .running)
    (hchores : w₀.chores = chore :: chores) (hk : n.workers.get? k = some w)
    (hk' : ((n.setWorker k' { w₀ with chores }).settle w₀.trade chore).workers.get? k = some w') :
    Proceeds n (.step now (.worker k')) k w w' := by
  have hworkers : ((n.setWorker k' { w₀ with chores }).settle w₀.trade chore).workers =
      (n.setWorker k' { w₀ with chores }).workers := by cases chore <;> rfl
  rw [hworkers, get?_setWorker] at hk'
  split at hk'
  next heq =>
    subst heq
    cases hk'
    cases hk₀.symm.trans hk
    have hdone : n.done k (.step now (.worker k)) = chore.effect?.toList := by
      simp [done, hk, hrunning, hchores]
    have hheard : n.heard k (.step now (.worker k)) = none := by simp [heard, hk, hchores]
    rw [Proceeds, hdone, hheard, Worker.pending, hchores, List.filterMap_cons]
    cases chore.effect? <;> exact List.append_nil _
  next hne =>
    cases hk.symm.trans hk'
    exact proceeds_of_idle (n.heard_of_ne (Ne.symm hne)) (n.done_of_ne (Ne.symm hne)) rfl

theorem Change.proceeds {m : Node} (h : Change n a m) (hnew : n.workers.get? n.started = none)
    (hk : n.workers.get? k = some w) (hk' : m.workers.get? k = some w') :
    Proceeds n a k w w' := by
  have hsame (hheard : n.heard k a = none) (hdone : n.done k a = [])
      (hk' : n.workers.get? k = some w') : Proceeds n a k w w' := by
    cases hk.symm.trans hk'
    exact proceeds_of_idle hheard hdone rfl
  have hplain (ha : a.IsPlain) : n.heard k a = none ∧ n.done k a = [] :=
    ⟨n.heard_of_plain k ha, n.done_of_plain k ha⟩
  -- a new worker has a number of its own
  have hbegin {t : Trade} {isStored : Bool} (hk' : (n.begin t isStored).workers.get? k = some w') :
      n.workers.get? k = some w' := by
    have hold : k ≠ n.started := by
      rintro rfl
      rw [hnew] at hk
      cases hk
    exact ((n.get?_setWorker n.started k _).trans (if_neg hold)).symm.trans hk'
  cases h with
  | still ha => exact hsame (hplain ha).1 (hplain ha).2 hk'
  | store move ha => exact hsame (hplain ha).1 (hplain ha).2 hk'
  | lost => exact hsame rfl rfl hk'
  | call hk₀ => exact proceeds_of_arrival rfl rfl hk₀ hk hk'
  | news ha hk₀ => exact proceeds_of_arrival (hplain ha).1 (hplain ha).2 hk₀ hk hk'
  | enter ha hk₀ => exact proceeds_of_arrival (hplain ha).1 (hplain ha).2 hk₀ hk hk'
  | launch => exact hsame rfl rfl (hbegin hk')
  | resume => exact hsame rfl rfl (hbegin hk')
  | forget => exact hsame rfl rfl hk'
  | chore hk₀ hrunning hchores => exact proceeds_of_chore hk₀ hrunning hchores hk hk'
  | @read now k₀ w₀ mail mailbox admitted hk₀ hrunning hchores htake =>
    by_cases heq : k = k₀
    · subst heq
      cases hk₀.symm.trans hk
      exact proceeds_read hk hrunning hchores htake hk'
    · rw [n.get?_read_of_ne now _ mail heq] at hk'
      exact hsame (n.heard_of_ne (Ne.symm heq)) (n.done_of_ne (Ne.symm heq)) hk'
  | @ended now k₀ w₀ hk₀ hrunning hchores hqueue =>
    rw [get?_setWorker] at hk'
    split at hk'
    next heq =>
      subst heq
      cases hk₀.symm.trans hk
      cases hk'
      refine proceeds_of_idle ?_ ?_ rfl
      · simp [heard, hk, hqueue]
      · simp [done, hk, hchores]
    next hne => exact hsame (n.heard_of_ne (Ne.symm hne)) (n.done_of_ne (Ne.symm hne)) hk'

theorem proceeds_of_act (hact : n.act a = some n') (hnew : n.workers.get? n.started = none)
    (hk : n.workers.get? k = some w) (hk' : n'.workers.get? k = some w') :
    Proceeds n a k w w' := by
  obtain ⟨m, hchange, hstill⟩ := exists_change_of_act hact
  obtain ⟨w₁, hk₁, hw⟩ := hstill.exists_before hk'
  have hproceeds := hchange.proceeds hnew hk hk₁
  rwa [Proceeds, Worker.pending, Worker.pending, ← hw.chores] at hproceeds

/-- A worker that reads has nothing else to do. -/
theorem chores_of_heard {entry : Instant × Mail} (h : n.heard k a = some entry)
    (hk : n.workers.get? k = some w) : w.chores = [] ∧ n.done k a = [] := by
  cases a with
  | step now actor =>
    cases actor with
    | worker k' =>
      have hchores : w.chores = [] := by
        simp only [heard, hk, Option.bind_eq_bind, Option.bind_some] at h
        split at h
        next hidle => exact hidle.2.2
        next => cases h
      exact ⟨hchores, by simp [done, hk, hchores]⟩
    | _ => cases h
  | _ => cases h

theorem Turn.trade_eq (h : Turn n a k w w') :
    w'.trade = (n.engine.run w.trade (Mail.stream (n.heard k a).toList)).1 := by
  cases h with
  | idles hheard _ ht => rw [hheard, ht]; rfl
  | does hheard _ _ ht => rw [hheard, ht]; rfl
  | breaks hheard _ _ _ ht => rw [hheard, ht]; rfl
  | ends hheard _ _ _ _ ht => rw [hheard, ht]; rfl
  | reads _ _ hheard _ _ _ ht => rw [hheard, ht]; rfl

/-- If an action arms a deadline, that is all it does about deadlines. -/
theorem moves_done_of_armed {id : DeadlineId} (h : armed id ∈ Effect.moves (n.done k a)) :
    Effect.moves (n.done k a) = [armed id] := by
  obtain ⟨effect, hdone⟩ : ∃ effect : Option Effect, n.done k a = effect.toList := by
    cases a with
    | step now actor =>
      cases actor with
      | worker => exact ⟨_, rfl⟩
      | _ => exact ⟨none, rfl⟩
    | _ => exact ⟨none, rfl⟩
  rw [hdone] at h ⊢
  cases effect with
  | none => cases h
  | some e =>
    obtain ⟨e', he', hmove⟩ := List.mem_filterMap.1 h
    cases List.mem_singleton.1 he'
    rw [Effect.moves, Option.toList, List.filterMap_cons, hmove]
    rfl

/-! ## The two copies of the deadlines -/

/-- What is armed in a worker's trade is what the effects that it has yet to carry out make of
deadlines that are minded. -/
def Secures (n : Node) (k : Nat) (w : Worker) : Prop :=
  ∃ armed : DeadlineKind → Option DeadlineId,
    (∀ kind, w.trade.liveId? kind = liveAfter kind (armed kind) (Effect.moves w.pending)) ∧
      ∀ kind id, armed kind = some id → id.kind = kind ∧ n.Minds k id

/-- The timers of a worker are up to the effects that it has carried out, and what is armed in its
trade will be minded once it has carried out the others. -/
structure Agrees (x : Watched) (k : Nat) (w : Worker) (t₀ : Trade) : Prop where
  timed : ∃ applied,
    (x.node.engine.history t₀ (Mail.stream (x.journal k).read)).effects = applied ++ w.pending ∧
      ∀ id, x.node.Times k id →
        liveAfter id.kind (t₀.liveId? id.kind) (Effect.moves applied) = some id
  secured : x.node.IsOpen k → x.node.Secures k w

/-- A worker that begins has a timer for everything that is armed. -/
theorem Agrees.of_begins (hlinear : Linear x) (hpunctual : x.node.Punctual)
    (hact : x.act a = some x') (hk : x.node.workers.get? k = none)
    (hk' : x'.node.workers.get? k = some w)
    (hnamed : ∀ kind id, w.trade.liveId? kind = some id → id.kind = kind) :
    Agrees x' k w w.trade := by
  obtain ⟨hbegins, -, hchores, -⟩ := Watched.begins_of_act hact hk hk'
  obtain ⟨n', hn', rfl⟩ := Option.map_eq_some_iff.1 hact
  obtain ⟨htimes, hminds⟩ := hpunctual.begins hlinear.get?_started hn' hbegins hnamed
  have hpending : w.pending = [] := by rw [Worker.pending, hchores]; rfl
  -- nothing has been read yet, and nothing is left to be carried out
  have hread : ((x.note a n').journal k).read = [] := by
    show ((x.journal k).note _ _ _).read = []
    rw [hk, show n'.workers.get? k = some w from hk']
    rfl
  refine ⟨⟨[], ?_, htimes⟩, fun _ => ⟨w.trade.liveId?, fun kind => ?_, fun kind id hlive => ?_⟩⟩
  · rw [hread, hpending]
    rfl
  · rw [hpending]
    rfl
  · have hkind := hnamed kind id hlive
    exact ⟨hkind, hminds id (hkind ▸ hlive)⟩

/-- The timers go with the effects that are carried out. -/
theorem Agrees.timed_act (h : Agrees x k w t₀) (htrade : (x.journal k).Shows x.node.engine
    (x.journal k).read.length w.trade) (horigin : (x.journal k).origin = some t₀)
    (hread : (x'.journal k).read = (x.journal k).read ++ (x.node.heard k a).toList)
    (hengine : x'.node.engine = x.node.engine) (hproceeds : Proceeds x.node a k w w')
    (htick : x.node.Tick x'.node k (Effect.moves (x.node.done k a))
      ((x.node.heard k a).map (·.2))) :
    ∃ applied,
      (x'.node.engine.history t₀ (Mail.stream (x'.journal k).read)).effects =
        applied ++ w'.pending ∧
      ∀ id, x'.node.Times k id →
        liveAfter id.kind (t₀.liveId? id.kind) (Effect.moves applied) = some id := by
  obtain ⟨applied, heffects, htimes⟩ := h.timed
  refine ⟨applied ++ x.node.done k a, ?_, fun id ht => ?_⟩
  · -- the history goes on from the trade as it was
    obtain ⟨t₁, ht₁, hshown⟩ := htrade
    cases horigin.symm.trans ht₁
    rw [List.take_length] at hshown
    rw [hengine, hread, Mail.stream_append, Engine.history_append, ← hshown,
      History.effects_append, heffects, List.append_assoc, hproceeds, List.append_assoc]
  · rw [Effect.moves_append, liveAfter_append]
    rcases htick.times id ht with harmed | ⟨hbefore, huntouched⟩
    · rw [moves_done_of_armed harmed]
      exact if_pos rfl
    · rw [liveAfter_of_untouched huntouched]
      exact htimes id hbefore

/-- A worker that carries out an effect, or reads mail that does not move its trade, goes on minding
what is armed. -/
theorem Secures.proceed {done : List Effect} {heard : Option Mail} (h : n.Secures k w)
    (htick : n.Tick n' k (Effect.moves done) heard) (hopen : n'.IsOpen k)
    (hheard : ∀ id, heard = some (.alarm id) → w.pending = [] ∧ w.trade.liveId? id.kind ≠ some id)
    (htrade : w'.trade = w.trade) (hpending : w.pending = done ++ w'.pending) :
    n'.Secures k w' := by
  obtain ⟨armed, hlive, hminds⟩ := h
  -- the effects that are carried out now leave the rest to the others
  refine ⟨fun kind => liveAfter kind (armed kind) (Effect.moves done), fun kind => ?_,
    fun kind id hid => ?_⟩
  · rw [htrade, ← liveAfter_append, ← Effect.moves_append, ← hpending]
    exact hlive kind
  · rcases armed_mem_or_untouched hid with ⟨hkind, hmem⟩ | ⟨hbefore, huntouched⟩
    · exact ⟨hkind, htick.arms id hmem⟩
    · obtain ⟨hkind, hm⟩ := hminds kind id hbefore
      refine ⟨hkind, htick.minds hopen id hm (hkind ▸ huntouched) fun hexpired => ?_⟩
      obtain ⟨hnone, hunarmed⟩ := hheard id hexpired
      rw [hlive, hnone] at hunarmed
      exact hunarmed (hkind ▸ hbefore)

/-- The effects of a commit stand between what is minded and what is armed. -/
theorem Secures.commit {engine : Engine} {date : Instant} {e : Event} {caller : Option Nat}
    {c : Commit} (h : n.Secures k w) (htick : n.Tick n' k [] (some (.event e caller)))
    (hopen : n'.IsOpen k) (hpending : w.pending = [])
    (hcommit : engine.handle date w.trade e = (w'.trade, .committed c))
    (hpending' : w'.pending = c.effects) : n'.Secures k w' := by
  obtain ⟨armed, hlive, hminds⟩ := h
  rw [hpending] at hlive
  obtain ⟨tr, hcommitted⟩ := Engine.exists_committed_of_handle hcommit
  refine ⟨fun kind => liveAfter kind (armed kind) e.deadlineMoves, fun kind => ?_,
    fun kind id hid => ?_⟩
  · rw [hpending', ← liveAfter_append]
    exact (hcommitted.moves kind).trans (congrArg (liveAfter kind · _) (hlive kind))
  · rcases armed_mem_or_untouched hid with ⟨-, hmem⟩ | ⟨hbefore, huntouched⟩
    · cases e <;> simp [Event.deadlineMoves] at hmem
    · obtain ⟨hkind, hm⟩ := hminds kind id hbefore
      refine ⟨hkind, htick.minds hopen id hm (fun _ hmem => absurd hmem List.not_mem_nil) ?_⟩
      -- what has expired is not armed any more
      rintro heq
      cases heq
      exact huntouched (expired id) List.mem_cons_self hkind

/-- What is armed goes on being minded, since a trade acts on the expiry of whatever is armed. -/
theorem Secures.act (h : n.Secures k w) (hk : n.workers.get? k = some w)
    (hheedful : w.trade.Heedful) (hproceeds : Proceeds n a k w w') (hturn : Turn n a k w w')
    (htick : n.Tick n' k (Effect.moves (n.done k a)) ((n.heard k a).map (·.2)))
    (hopen : n'.IsOpen k) : n'.Secures k w' := by
  have htrade := hturn.trade_eq
  cases hheard : n.heard k a with
  | none =>
    rw [hheard] at htrade htick
    rw [Proceeds, hheard] at hproceeds
    exact h.proceed htick hopen (fun _ heq => by cases heq) htrade
      ((List.append_nil _).symm.trans hproceeds)
  | some entry =>
    obtain ⟨date, mail⟩ := entry
    obtain ⟨hchores, hdone⟩ := chores_of_heard hheard hk
    have hpending : w.pending = [] := by rw [Worker.pending, hchores]; rfl
    rw [Proceeds, hpending, hdone, List.nil_append, List.nil_append, hheard] at hproceeds
    rw [hheard] at htrade htick
    rw [hdone] at htick
    have hsilent (hstream : Mail.stream [(date, mail)] = []) (hmail : ∀ id, mail ≠ .alarm id) :
        n'.Secures k w' := by
      simp only [Option.toList, hstream] at htrade hproceeds
      exact h.proceed htick hopen (fun id heq => absurd (Option.some.inj heq) (hmail id)) htrade
        (hpending.trans hproceeds)
    cases mail with
    | inspect c => exact hsilent rfl fun id heq => by cases heq
    | persistFailed f attempt => exact hsilent rfl fun id heq => by cases heq
    | event e caller =>
      have hstream : Mail.stream (some (date, Mail.event e caller)).toList = [(date, e)] := rfl
      rw [hstream] at hproceeds htrade
      cases houtcome : n.engine.handle date w.trade e with
      | mk t' o =>
        rw [Engine.run_cons, houtcome] at htrade
        obtain rfl : w'.trade = t' := htrade
        cases o with
        | rejected r =>
          rw [Engine.history_cons_of_rejected houtcome] at hproceeds
          have hsame : w'.trade = w.trade := Engine.eq_of_rejected houtcome
          refine h.proceed htick hopen (fun id heq => ⟨hpending, fun hlive => ?_⟩) hsame
            (hpending.trans hproceeds)
          -- the expiry of something that is armed is not rejected
          cases heq
          obtain ⟨c, hc⟩ := hheedful.handle_timeout n.engine date hlive
          rw [houtcome] at hc
          cases hc
        | committed c =>
          rw [Engine.history_cons_of_committed houtcome] at hproceeds
          exact h.commit htick hopen hpending houtcome
            (hproceeds.symm.trans (List.append_nil _))

/-! ## Every action -/

/-- What a worker reads is added to its journal, and nothing else. -/
theorem journal_of_act (hlinear : Linear x) (hact : x.act a = some x')
    (hk : x.node.workers.get? k = some w) :
    (x'.journal k).origin = (x.journal k).origin ∧
      (x'.journal k).read = (x.journal k).read ++ (x.node.heard k a).toList := by
  obtain ⟨w', hk', -⟩ := hlinear.turn hact hk
  obtain ⟨n', -, rfl⟩ := Option.map_eq_some_iff.1 hact
  show ((x.journal k).note _ _ _).origin = _ ∧ ((x.journal k).note _ _ _).read = _
  rw [hk, show n'.workers.get? k = some w' from hk']
  exact ⟨rfl, rfl⟩

theorem Agrees.act (h : Agrees x k w t₀) (hlinear : Linear x) (hpunctual : x.node.Punctual)
    (hact : x.act a = some x') (hk : x.node.workers.get? k = some w)
    (hk' : x'.node.workers.get? k = some w') (horigin : (x.journal k).origin = some t₀)
    (hlived : t₀.Lived .standard) : Agrees x' k w' t₀ := by
  have hengine := (hlinear.extends_of_act hact).engine
  have hread := (journal_of_act hlinear hact hk).2
  have hshows := (hlinear.straight k w hk).follows.trade
  have hheedful : w.trade.Heedful := by
    obtain ⟨t₁, ht₁, hshown⟩ := id hshows
    cases horigin.symm.trans ht₁
    rw [hshown]
    exact (hlived.run _ _).heedful
  obtain ⟨w'', hk'', hturn⟩ := hlinear.turn hact hk
  cases hk'.symm.trans hk''
  obtain ⟨n', hn', rfl⟩ := Option.map_eq_some_iff.1 hact
  have hproceeds := proceeds_of_act hn' hlinear.get?_started hk hk'
  have htick := (hpunctual.act hlinear.get?_started hn').2 k w hk
  exact ⟨h.timed_act hshows horigin hread hengine hproceeds htick, fun hopen =>
    (h.secured (htick.opens hopen)).act hk hheedful hproceeds hturn htick hopen⟩

/-- What holds of every watched node: the timers of its workers are up to what they have done, and
what is armed in their trades is minded. -/
structure OnTime (x : Watched) : Prop where
  linear : Linear x
  punctual : x.node.Punctual
  agrees : ∀ k w t₀, x.node.workers.get? k = some w → (x.journal k).origin = some t₀ →
    t₀.Lived .standard → Agrees x k w t₀

theorem OnTime.act (h : OnTime x) (hact : x.act a = some x') : OnTime x' := by
  refine ⟨h.linear.act hact, ?_, fun k w' t₀ hk' horigin' hlived => ?_⟩
  · obtain ⟨n', hn', rfl⟩ := Option.map_eq_some_iff.1 hact
    exact (h.punctual.act h.linear.get?_started hn').1
  · cases hk : x.node.workers.get? k with
    | none =>
      -- the worker began just now, with the trade it has
      obtain ⟨-, -, -, hbegun⟩ := Watched.begins_of_act hact hk hk'
      cases hbegun.symm.trans horigin'
      exact .of_begins h.linear h.punctual hact hk hk' fun kind id hlive =>
        (hlived.heedful.named kind id hlive).1
    | some w =>
      have horigin := (journal_of_act h.linear hact hk).1.symm.trans horigin'
      exact (h.agrees k w t₀ hk horigin hlived).act h.linear h.punctual hact hk hk' horigin hlived

theorem onTime_new (name : String) (engine : Engine) (settings : WorkerSettings)
    (backend : Backend) (identity : Peer) :
    OnTime (.new name engine settings backend identity) := by
  have hnone {α β : Type} [Ord α] (a : α) (b : β) : ({} : Dict α β).get? a ≠ some b := nofun
  refine ⟨linear_new name engine settings backend identity,
    ⟨⟨fun _ => (0, ⟨.takeOfferResponse, 0⟩), ?_, ?_, ?_⟩, ?_⟩, ?_⟩
  · exact fun i timer htimer => absurd htimer (hnone i timer)
  · exact fun k w _ _ hk _ => absurd hk (hnone k w)
  · exact fun k w _ _ hk _ => absurd hk (hnone k w)
  · exact fun i timer htimer => absurd htimer (hnone i timer)
  · exact fun k w _ hk _ _ => absurd hk (hnone k w)

theorem Watched.Reachable.onTime (h : x.Reachable) : OnTime x := by
  obtain ⟨name, engine, settings, backend, identity, actions, hrun⟩ := h
  exact hrun.keeps (onTime_new name engine settings backend identity) fun _ _ _ h hact => h.act hact

/-! ## News that come late -/

/-- A place in a journal that comes later shows what the engine makes of what was read in between.
-/
theorem shows_later {engine : Engine} {j : Journal} {i i' : Nat} {t t' : Trade}
    {entry : Instant × Mail} (h : j.Shows engine i t) (h' : j.Shows engine i' t')
    (hentry : j.read[i]? = some entry) (hlt : i < i') :
    ∃ later, t' = (engine.run t (Mail.stream [entry] ++ later)).1 := by
  obtain ⟨t₀, ht₀, rfl⟩ := h
  obtain ⟨t₁, ht₁, rfl⟩ := h'
  cases ht₀.symm.trans ht₁
  obtain ⟨hi, hget⟩ := List.getElem?_eq_some_iff.1 hentry
  refine ⟨Mail.stream ((j.read.take i').drop (i + 1)), ?_⟩
  have hfirst : (j.read.take i').take (i + 1) = j.read.take i ++ [entry] := by
    rw [List.take_take, Nat.min_eq_left hlt, ← hget, List.take_append_getElem hi]
  have hsplit : j.read.take i' = j.read.take i ++ ([entry] ++ (j.read.take i').drop (i + 1)) := by
    rw [← List.append_assoc, ← hfirst, List.take_append_drop]
  have hstream := congrArg Mail.stream hsplit
  rw [Mail.stream_append, Mail.stream_append] at hstream
  rw [hstream, Engine.run_append]

/-! ## The result -/

/-- As long as a worker runs and its mailbox is kept, there is a timer for every deadline that is
armed in its trade, or the worker is going to read that it has expired; it may be otherwise only
while there is something left to be done about the last event. A timer stands for a deadline that
the effects have armed, as far as they have been carried out, and not cleared or armed anew since.
And once a commit has cleared a deadline or armed it anew, the news that it has expired are
refused. -/
theorem deadlines_are_minded (h : x.Reachable) (hk : x.node.workers.get? k = some w)
    (horigin : (x.journal k).origin = some t₀) (hlived : t₀.Lived .standard) :
    (w.phase = .running → w.mailbox.kept = true → w.chores = [] →
      ∀ id ∈ w.trade.armed, x.node.Minds k id) ∧
    (∃ applied, (x.node.engine.history t₀ (Mail.stream (x.journal k).read)).effects =
        applied ++ w.pending ∧
      ∀ i timer, x.node.timers.get? i = some timer → timer.worker = k →
        t₀.StandsAfter applied timer.id) ∧
    ∀ i date event caller t t' c id, (x.journal k).read[i]? = some (date, .event event caller) →
      (x.journal k).Shows x.node.engine i t →
      x.node.engine.handle date t event = (t', .committed c) →
      id ∈ t.armed → (∃ e ∈ c.effects, e.Concerns id.kind) →
      ∀ i' date' caller' u, i < i' →
        (x.journal k).read[i']? = some (date', .event (.timeout id) caller') →
        (x.journal k).Shows x.node.engine i' u →
        ∃ r, x.node.engine.handle date' u (.timeout id) = (u, .rejected r) ∧
          r.reason = if u.finalized then .finalized else .duplicate := by
  have hontime := h.onTime
  have hagrees := hontime.agrees k w t₀ hk horigin hlived
  have hheedful (stream : Stream) : (x.node.engine.run t₀ stream).1.Heedful :=
    (hlived.run x.node.engine stream).heedful
  refine ⟨fun hrunning hkept hchores id harmed => ?_, ?_, ?_⟩
  · obtain ⟨t₁, ht₁, hshown⟩ := (hontime.linear.straight k w hk).follows.trade
    cases horigin.symm.trans ht₁
    obtain ⟨armed, hlive, hminds⟩ := hagrees.secured ⟨w, hk, hrunning, hkept⟩
    have hid : w.trade.liveId? id.kind = some id := by
      rw [hshown] at harmed ⊢
      exact (hheedful _).mem_armed_iff.1 harmed
    -- with nothing left to be carried out, what is minded is what is armed
    rw [hlive, show w.pending = [] by rw [Worker.pending, hchores]; rfl] at hid
    exact (hminds id.kind id hid).2
  · obtain ⟨applied, heffects, htimes⟩ := hagrees.timed
    refine ⟨applied, heffects, fun i timer htimer hworker => ?_⟩
    exact (Effect.last_of_liveAfter (htimes timer.id ⟨i, timer, htimer, hworker, rfl⟩)).imp_right
      (And.imp_left hlived.heedful.mem_armed_iff.2)
  · rintro i date event caller t t' c id hentry hshows hcommit harmed ⟨e, he, hconcerns⟩
      i' date' caller' u hlt hnews hshows'
    obtain ⟨later, rfl⟩ := shows_later hshows hshows' hentry hlt
    have ht : t.Heedful := by
      obtain ⟨t₁, ht₁, rfl⟩ := hshows
      cases horigin.symm.trans ht₁
      exact hheedful _
    -- no later commit arms a deadline under a name that is past
    have hpast : t'.Past id := by
      have hlive := ht.mem_armed_iff.1 harmed
      refine ht.past_of_committed hcommit (ht.named id.kind id hlive).2 fun _ => ?_
      obtain ⟨m, hm, hkind⟩ := Effect.concerns_iff.1 hconcerns
      exact ⟨m, List.mem_append_right _ (List.mem_filterMap.2 ⟨e, he, hm⟩), hkind⟩
    refine Trade.handle_timeout_of_unarmed _ _ ?_
    have hrun : (x.node.engine.run t (Mail.stream [(date, .event event caller)] ++ later)).1 =
        (x.node.engine.run t' later).1 := by
      show (x.node.engine.run t ((date, event) :: later)).1 = _
      rw [Engine.run_cons, hcommit]
    rw [hrun]
    exact ((ht.commit hcommit).past_run hpast _ later).unarmed

/-- The offer that is about to be taken. -/
def openOffer : Trade :=
  .initial .epoch "trade_1" ⟨.buyerAsTaker, .multisigEscrow⟩ Trade.soundTerms ⟨"maker"⟩
    Standard.Escrow.buyerAsTaker

theorem lived_openOffer : openOffer.Lived .standard :=
  .created (Trade.create_soundTerms rfl Registry.lookup_multisigEscrow_buyerAsTaker)

/-- The deadline of the answer to the offer. -/
def answerDue : DeadlineId := ⟨.takeOfferResponse, 1⟩

/-- Two minutes later, when the answer to the offer is due. -/
def overdue : Time := ⟨.epoch, 120000000000, .farFuture⟩

/-- A node at which the offer is taken, and what happens there while the answer is awaited. -/
def takingOffer (meanwhile : List Action) : Option Watched :=
  let now : Time := ⟨.epoch, 0, .farFuture⟩
  (Watched.new "a" { registry := .standard, verifier := { accepts := fun _ _ _ => true } } {} {}
    ⟨"taker"⟩).play
      ([.launch now openOffer, .call 0 (.dispatch (.command ⟨"take", .takeOffer, [], []⟩))] ++
        List.replicate 5 (.step now (.worker 0)) ++ meanwhile)

/-- The answer comes in at the last moment, in front of the news that it is overdue. -/
theorem acceptedOffer_is_minded :
    ∃ (x : Watched) (w : Worker) (t : Trade) (r : Rejection) (applied : List Effect),
      x.Reachable ∧ x.node.workers.get? 0 = some w ∧ (x.journal 0).origin = some openOffer ∧
        openOffer.Lived .standard ∧ w.phase = .running ∧ w.mailbox.kept = true ∧ w.chores = [] ∧
        w.trade.armed = [⟨.deposit, 2⟩] ∧ x.node.Minds 0 ⟨.deposit, 2⟩ ∧
        x.node.timers.values.map (·.id) = [⟨.deposit, 2⟩] ∧
        openOffer.StandsAfter applied ⟨.deposit, 2⟩ ∧
        (x.journal 0).read[2]? = some (.epoch, .alarm answerDue) ∧
        x.node.engine.handle .epoch t (.timeout answerDue) = (t, .rejected r) ∧
        r.reason = .duplicate := by
  obtain ⟨x, w, t, t', c, timer, hplay, hk, horigin, hphase, hkept, hchores, harmed, htimers, htimer,
      hworker, htimed, hread, hnews, hshows, hshows', hcommit, hanswer, hcleared, hopen⟩ :
      ∃ (x : Watched) (w : Worker) (t t' : Trade) (c : Commit) (timer : Timer),
        takingOffer ([.carry 0 "b" ⟨"trade_1", 1, ⟨"maker"⟩, .takeOfferResponse, [], []⟩,
          .step overdue (.timer 0)] ++ List.replicate 7 (.step overdue (.worker 0))) = some x ∧
        x.node.workers.get? 0 = some w ∧ (x.journal 0).origin = some openOffer ∧
        w.phase = .running ∧ w.mailbox.kept = true ∧ w.chores = [] ∧
        w.trade.armed = [⟨.deposit, 2⟩] ∧ x.node.timers.values.map (·.id) = [⟨.deposit, 2⟩] ∧
        x.node.timers.get? 1 = some timer ∧ timer.worker = 0 ∧ timer.id = ⟨.deposit, 2⟩ ∧
        (x.journal 0).read[1]? = some (.epoch,
          .event (.inbound ⟨"trade_1", 1, ⟨"maker"⟩, .takeOfferResponse, [], []⟩) none) ∧
        (x.journal 0).read[2]? = some (.epoch, .alarm answerDue) ∧
        (x.journal 0).Shows x.node.engine 1 t ∧ (x.journal 0).Shows x.node.engine 2 t' ∧
        x.node.engine.handle .epoch t
          (.inbound ⟨"trade_1", 1, ⟨"maker"⟩, .takeOfferResponse, [], []⟩) = (t', .committed c) ∧
        t.armed = [answerDue] ∧ .clear .takeOfferResponse ∈ c.effects ∧ t'.finalized = false :=
    ⟨_, _, _, _, _, _, rfl, rfl, rfl, rfl, rfl, rfl, rfl, rfl, rfl, rfl, rfl, rfl, rfl, ⟨_, rfl, rfl⟩,
      ⟨_, rfl, rfl⟩, rfl, rfl, by decide, rfl⟩
  have hreachable : x.Reachable := ⟨_, _, _, _, _, _, Watched.run_of_play hplay⟩
  obtain ⟨hminds, ⟨applied, -, hstands⟩, hrefused⟩ :=
    deadlines_are_minded hreachable hk horigin lived_openOffer
  obtain ⟨r, hrejected, hreason⟩ := hrefused 1 _ _ _ t t' c answerDue hread hshows hcommit
    (by simp [hanswer]) ⟨_, hcleared, rfl⟩ 2 _ _ t' (by decide) hnews hshows'
  refine ⟨x, w, t', r, applied, hreachable, hk, horigin, lived_openOffer, hphase, hkept, hchores,
    harmed, hminds hphase hkept hchores _ (by simp [harmed]), htimers, ?_, hnews, hrejected, ?_⟩
  · exact htimed ▸ hstands 1 timer htimer hworker
  · rw [hreason, hopen]
    rfl

/-- The news that a deadline has expired may lie behind an order that ends the trade. -/
theorem expiry_can_come_after_the_end :
    ∃ (x x' : Watched) (w : Worker) (t : Trade) (c : Commit) (r : Rejection),
      x.Reachable ∧ (x.journal 0).origin = some openOffer ∧ openOffer.Lived .standard ∧
        x.node.workers.get? 0 = some w ∧ w.phase = .running ∧ w.mailbox.kept = true ∧
        w.trade.armed = [answerDue] ∧
        w.mailbox.queue =
          [.event (.command ⟨"cancel", .cancelTrade, [], []⟩) none, .alarm answerDue] ∧
        x.Run (List.replicate 7 (.step overdue (.worker 0))) x' ∧
        (x'.journal 0).read = (x.journal 0).read ++
          [(.epoch, .event (.command ⟨"cancel", .cancelTrade, [], []⟩) none),
            (.epoch, .alarm answerDue)] ∧
        x.node.engine.handle .epoch w.trade (.command ⟨"cancel", .cancelTrade, [], []⟩) =
          (t, .committed c) ∧
        .clear answerDue.kind ∈ c.effects ∧
        x.node.engine.handle .epoch t (.timeout answerDue) = (t, .rejected r) ∧
        r.reason = .finalized ∧ r.reason ≠ .duplicate := by
  obtain ⟨x, x', w, t, c, r, hplay, hmore, hk, horigin, hphase, hkept, harmed, hqueue, hread, hcommit,
      hcleared, hrejected, hreason⟩ :
      ∃ (x x' : Watched) (w : Worker) (t : Trade) (c : Commit) (r : Rejection),
        takingOffer [.call 0 (.dispatch (.command ⟨"cancel", .cancelTrade, [], []⟩)),
          .step overdue (.timer 0)] = some x ∧
        x.play (List.replicate 7 (.step overdue (.worker 0))) = some x' ∧
        x.node.workers.get? 0 = some w ∧ (x.journal 0).origin = some openOffer ∧
        w.phase = .running ∧ w.mailbox.kept = true ∧ w.trade.armed = [answerDue] ∧
        w.mailbox.queue =
          [.event (.command ⟨"cancel", .cancelTrade, [], []⟩) none, .alarm answerDue] ∧
        (x'.journal 0).read = (x.journal 0).read ++
          [(.epoch, .event (.command ⟨"cancel", .cancelTrade, [], []⟩) none),
            (.epoch, .alarm answerDue)] ∧
        x.node.engine.handle .epoch w.trade (.command ⟨"cancel", .cancelTrade, [], []⟩) =
          (t, .committed c) ∧
        .clear answerDue.kind ∈ c.effects ∧
        x.node.engine.handle .epoch t (.timeout answerDue) = (t, .rejected r) ∧
        r.reason = .finalized :=
    ⟨_, _, _, _, _, _, rfl, rfl, rfl, rfl, rfl, rfl, rfl, rfl, rfl, rfl, by decide, rfl, rfl⟩
  exact ⟨x, x', w, t, c, r, ⟨_, _, _, _, _, _, Watched.run_of_play hplay⟩, horigin, lived_openOffer,
    hk, hphase, hkept, harmed, hqueue, Watched.run_of_play hmore, hread, hcommit, hcleared,
    hrejected, hreason, by rw [hreason]; nofun⟩

end Node

end PeerTrade
