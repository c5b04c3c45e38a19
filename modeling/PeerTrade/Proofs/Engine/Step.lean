import PeerTrade.Proofs.Checks
import PeerTrade.Proofs.Engine.Moves

/-!
# What one event does to a trade

A trade changes only when a transition is committed. This module says once what a commit needs
(`Engine.select_eq_ok_iff`), which fields it moves (`Engine.commit_fst_eq`), how it moves the
deadlines (`Engine.liveId?_commit`) and what it sends (`Engine.commit_sent`). The structure
`Engine.Committed` collects all of it, so that no later proof opens `select` or `commit`.
-/

namespace PeerTrade

open DeadlineMove

namespace Engine

open Checks

/-! ## What a commit needs -/

/-- An event is carried out exactly if the trade goes on, the event is not a repetition, the
table has an entry for it and the guards of the entry hold. -/
theorem select_eq_ok_iff {e : Engine} {t : Trade} {event : Event} {tr : Transition} :
    e.select t event = .ok tr ↔
      t.finalized = false ∧ checkReplay t event = .ok () ∧
        t.protocol.lookup t.state event.kind = some tr ∧
        checkGuards e.context t event tr.guards = .ok () := by
  unfold select
  cases hf : t.finalized with
  | true => simp
  | false =>
    cases hl : t.protocol.lookup t.state event.kind with
    | none => simp
    | some entry =>
      simp only [Bool.false_eq_true, if_false, bind_eq_ok_iff, pure_eq_ok_iff, true_and,
        Option.some.injEq]
      constructor
      · rintro ⟨_, hreplay, _, hguards, rfl⟩
        exact ⟨hreplay, rfl, hguards⟩
      · rintro ⟨hreplay, rfl, hguards⟩
        exact ⟨(), hreplay, (), hguards, rfl⟩

/-- A trade that has ended refuses everything, before anything else is looked at. -/
theorem select_of_finalized (e : Engine) {t : Trade} (event : Event) (h : t.finalized = true) :
    e.select t event =
      .error ⟨.finalized, "trade " ++ t.id ++ " already ended in " ++ Catalog.name t.state⟩ := by
  rw [select, if_pos h]
  rfl

theorem select_of_checkReplay (e : Engine) {t : Trade} {event : Event} {r : Rejection}
    (hopen : t.finalized = false) (h : checkReplay t event = .error r) :
    e.select t event = .error r := by
  have hnot : ¬t.finalized = true := by simp [hopen]
  rw [select, if_neg hnot, h]
  rfl

theorem handle_fst_of_rejected {e : Engine} {now : Instant} {t : Trade} {event : Event}
    {r : Rejection} (h : (e.handle now t event).2 = .rejected r) :
    (e.handle now t event).1 = t := by
  unfold handle at h ⊢
  cases hs : e.select t event with
  | error r' => rfl
  | ok tr =>
    -- the outcome would be a commit
    rw [hs] at h
    cases h

/-- A trade is left as it is by an event that is rejected. -/
theorem eq_of_rejected {e : Engine} {now : Instant} {t t' : Trade} {event : Event}
    {r : Rejection} (h : e.handle now t event = (t', .rejected r)) : t' = t := by
  have houtcome : (e.handle now t event).2 = .rejected r := by rw [h]
  rw [← handle_fst_of_rejected houtcome, h]

/-! ## Which fields a commit changes -/

theorem clearAll_cons (k : DeadlineKind) (kinds : List DeadlineKind) (t : Trade) :
    clearAll (k :: kinds) t =
      if t.deadlines.contains k then
        ((clearAll kinds (t.disarm k)).1, .clear k :: (clearAll kinds (t.disarm k)).2)
      else clearAll kinds t := rfl

theorem clearAll_fst_eq (kinds : List DeadlineKind) (t : Trade) :
    ∃ deadlines, (clearAll kinds t).1 = { t with deadlines } := by
  induction kinds generalizing t with
  | nil => exact ⟨_, rfl⟩
  | cons k rest ih =>
    rw [clearAll_cons]
    split
    · obtain ⟨deadlines, h⟩ := ih (t.disarm k)
      exact ⟨deadlines, h⟩
    · exact ih t

theorem armAll_cons (settings : DeadlineSettings) (now : Instant) (k : DeadlineKind)
    (kinds : List DeadlineKind) (t : Trade) :
    armAll settings now (k :: kinds) t =
      let armed := t.arm ⟨⟨k, t.sequence⟩, now.after (settings.duration k)⟩
      ((armAll settings now kinds armed).1,
        .arm ⟨k, t.sequence⟩ (settings.duration k) :: (armAll settings now kinds armed).2) := rfl

theorem armAll_fst_eq (settings : DeadlineSettings) (now : Instant) (kinds : List DeadlineKind)
    (t : Trade) : ∃ deadlines, (armAll settings now kinds t).1 = { t with deadlines } := by
  induction kinds generalizing t with
  | nil => exact ⟨_, rfl⟩
  | cons k rest ih =>
    obtain ⟨deadlines, h⟩ := ih (t.arm ⟨⟨k, t.sequence⟩, now.after (settings.duration k)⟩)
    exact ⟨deadlines, h⟩

theorem conclude_fst_eq (e : Engine) (now : Instant) (t : Trade) (kinds : List DeadlineKind) :
    ∃ deadlines, (e.conclude now t kinds).1 =
      { t with deadlines, finalized := t.finalized || t.protocol.isTerminal t.state } := by
  unfold conclude
  split
  next hterminal =>
    -- the trade ends, and no deadline is left
    refine ⟨{}, ?_⟩
    rw [hterminal, Bool.or_true]
    rfl
  next hterminal =>
    -- the trade goes on, so that it is finalized only if it was
    obtain ⟨deadlines, h⟩ := armAll_fst_eq e.deadlines now kinds t
    refine ⟨deadlines, ?_⟩
    rw [h, Bool.eq_false_iff.2 hterminal, Bool.or_false]

/-- The trade in the middle of a commit, before the table's deadlines are cleared. -/
def entered (now : Instant) (t : Trade) (event : Event) (tr : Transition) : Trade :=
  consume (t.advance tr.target now) event

/-- The trade in the middle of a commit, after the table's deadlines are cleared. -/
def cleared (now : Instant) (t : Trade) (event : Event) (tr : Transition) : Trade :=
  (clearAll tr.clear (entered now t event tr)).1

theorem entered_eq (now : Instant) (t : Trade) (event : Event) (tr : Transition) :
    ∃ deadlines, entered now t event tr =
      { t with
        state := tr.target
        sequence := t.sequence + 1
        updatedAt := now
        lastPeerSequence := (consume t event).lastPeerSequence
        consumed := (consume t event).consumed
        deadlines } := by
  cases event <;> exact ⟨_, rfl⟩

theorem cleared_eq (now : Instant) (t : Trade) (event : Event) (tr : Transition) :
    ∃ deadlines, cleared now t event tr =
      { t with
        state := tr.target
        sequence := t.sequence + 1
        updatedAt := now
        lastPeerSequence := (consume t event).lastPeerSequence
        consumed := (consume t event).consumed
        deadlines } := by
  obtain ⟨deadlines, hcleared⟩ := clearAll_fst_eq tr.clear (entered now t event tr)
  obtain ⟨_, hentered⟩ := entered_eq now t event tr
  refine ⟨deadlines, ?_⟩
  rw [cleared, hcleared, hentered]

theorem commit_fst (e : Engine) (now : Instant) (t : Trade) (event : Event) (tr : Transition) :
    (e.commit now t event tr).1 = (e.conclude now (cleared now t event tr) tr.arm).1 := rfl

/-- What a commit reports of the trade before it and after it. -/
theorem commit_snd (e : Engine) (now : Instant) (t : Trade) (event : Event) (tr : Transition) :
    (e.commit now t event tr).2 =
      { tradeId := (e.commit now t event tr).1.id
        source := t.state
        target := tr.target
        sequence := (e.commit now t event tr).1.sequence
        effects := (e.commit now t event tr).2.effects
        finalized := (e.commit now t event tr).1.protocol.isTerminal tr.target } := rfl

/-- Which fields a commit moves, and where to. -/
theorem commit_fst_eq (e : Engine) (now : Instant) (t : Trade) (event : Event)
    (tr : Transition) :
    ∃ deadlines, (e.commit now t event tr).1 =
      { t with
        state := tr.target
        sequence := t.sequence + 1
        updatedAt := now
        finalized := t.finalized || t.protocol.isTerminal tr.target
        lastPeerSequence := (consume t event).lastPeerSequence
        consumed := (consume t event).consumed
        deadlines } := by
  -- entering, clearing and concluding each leave the fields of the others alone
  obtain ⟨deadlines, hconclude⟩ := conclude_fst_eq e now (cleared now t event tr) tr.arm
  obtain ⟨_, hcleared⟩ := cleared_eq now t event tr
  refine ⟨deadlines, ?_⟩
  rw [commit_fst, hconclude, hcleared]

/-! ## What arming and disarming keep -/

section Deadlines

variable {P : Dict DeadlineKind Deadline → Prop}

theorem deadlines_consume (herase : ∀ ds k, P ds → P (ds.erase k)) {t : Trade}
    (event : Event) (h : P t.deadlines) : P (consume t event).deadlines := by
  cases event with
  | inbound m => exact h
  | command c => exact h
  | timeout id => exact herase _ _ h

theorem deadlines_clearAll (herase : ∀ ds k, P ds → P (ds.erase k)) (kinds : List DeadlineKind)
    {t : Trade} (h : P t.deadlines) : P (clearAll kinds t).1.deadlines := by
  induction kinds generalizing t with
  | nil => exact h
  | cons k rest ih =>
    rw [clearAll_cons]
    split
    · exact ih (herase _ _ h)
    · exact ih h

theorem deadlines_armAll (hinsert : ∀ ds d, P ds → P (ds.insert d.id.kind d))
    (settings : DeadlineSettings) (now : Instant) (kinds : List DeadlineKind) {t : Trade}
    (h : P t.deadlines) : P (armAll settings now kinds t).1.deadlines := by
  induction kinds generalizing t with
  | nil => exact h
  | cons k rest ih => exact ih (hinsert _ ⟨⟨k, t.sequence⟩, _⟩ h)

/-- What holds of no deadlines, and is kept when a deadline is disarmed or armed under its own
kind, is kept by every commit. -/
theorem deadlines_commit (hempty : P {}) (herase : ∀ ds k, P ds → P (ds.erase k))
    (hinsert : ∀ ds d, P ds → P (ds.insert d.id.kind d)) (e : Engine) (now : Instant) {t : Trade}
    (event : Event) (tr : Transition) (h : P t.deadlines) :
    P (e.commit now t event tr).1.deadlines := by
  have hcleared : P (cleared now t event tr).deadlines :=
    deadlines_clearAll herase tr.clear (deadlines_consume herase event h)
  rw [commit_fst, conclude]
  split
  · exact hempty
  · exact deadlines_armAll hinsert e.deadlines now tr.arm hcleared

end Deadlines

/-! ## How a commit moves deadlines -/

theorem liveId?_consume (t : Trade) (event : Event) (k : DeadlineKind) :
    (consume t event).liveId? k = liveAfter k (t.liveId? k) event.deadlineMoves := by
  cases event with
  | inbound m => rfl
  | command c => rfl
  | timeout id => exact Trade.liveId?_disarm t id.kind k

theorem liveId?_clearAll (kinds : List DeadlineKind) (t : Trade) (k : DeadlineKind) :
    (clearAll kinds t).1.liveId? k =
      liveAfter k (t.liveId? k) (Effect.moves (clearAll kinds t).2) := by
  induction kinds generalizing t with
  | nil => rfl
  | cons j rest ih =>
    rw [clearAll_cons]
    -- a kind that is not armed is passed over, and gives no effect either
    split
    · have hstep := ih (t.disarm j)
      rw [Trade.liveId?_disarm] at hstep
      exact hstep
    · exact ih t

theorem liveId?_armAll (settings : DeadlineSettings) (now : Instant) (kinds : List DeadlineKind)
    (t : Trade) (k : DeadlineKind) :
    (armAll settings now kinds t).1.liveId? k =
      liveAfter k (t.liveId? k) (Effect.moves (armAll settings now kinds t).2) := by
  induction kinds generalizing t with
  | nil => rfl
  | cons j rest ih =>
    have hstep := ih (t.arm ⟨⟨j, t.sequence⟩, now.after (settings.duration j)⟩)
    rw [Trade.liveId?_arm] at hstep
    exact hstep

theorem liveAfter_map_clear (k : DeadlineKind) (start : Option DeadlineId)
    (kinds : List DeadlineKind) :
    liveAfter k start (Effect.moves (kinds.map .clear)) =
      if k ∈ kinds then none else start := by
  induction kinds generalizing start with
  | nil => rfl
  | cons j rest ih =>
    -- clearing a kind once more than needed does no harm
    show liveAfter k (if j = k then none else start) (Effect.moves (rest.map .clear)) = _
    rw [ih]
    by_cases hjk : j = k
    · simp [hjk]
    · have hkj : k ≠ j := fun h => hjk h.symm
      simp [hjk, hkj]

theorem liveId?_conclude (e : Engine) (now : Instant) (t : Trade) (kinds : List DeadlineKind)
    (k : DeadlineKind) :
    (e.conclude now t kinds).1.liveId? k =
      liveAfter k (t.liveId? k) (Effect.moves (e.conclude now t kinds).2) := by
  unfold conclude
  split
  · -- finalizing clears every kind that is armed, so nothing is left of any kind
    rw [liveAfter_map_clear]
    show none = _
    split
    · rfl
    next hk => exact (Trade.liveId?_eq_none_of_not_mem_keys hk).symm
  · exact liveId?_armAll e.deadlines now kinds t k

theorem commit_effects (e : Engine) (now : Instant) (t : Trade) (event : Event)
    (tr : Transition) :
    (e.commit now t event tr).2.effects =
      (clearAll tr.clear (entered now t event tr)).2 ++
        tr.send.toList.map (fun emission =>
          Effect.send (compose (cleared now t event tr) event emission)) ++
        (e.conclude now (cleared now t event tr) tr.arm).2 := rfl

/-- The moves that belong to a commit: first that of the event, then those of its effects. -/
def moves (event : Event) (c : Commit) : List DeadlineMove :=
  event.deadlineMoves ++ Effect.moves c.effects

/-- The moves of a commit lead from the armed deadlines before it to those after it. -/
theorem liveId?_commit (e : Engine) (now : Instant) (t : Trade) (event : Event)
    (tr : Transition) (k : DeadlineKind) :
    (e.commit now t event tr).1.liveId? k =
      liveAfter k (t.liveId? k) (moves event (e.commit now t event tr).2) := by
  -- a message is an effect, but no move
  have hsend : Effect.moves (tr.send.toList.map fun emission =>
      Effect.send (compose (cleared now t event tr) event emission)) = [] := by
    cases tr.send <;> rfl
  have hentered : (entered now t event tr).liveId? k =
      liveAfter k (t.liveId? k) event.deadlineMoves :=
    liveId?_consume (t.advance tr.target now) event k
  have hcleared : (cleared now t event tr).liveId? k =
      liveAfter k ((entered now t event tr).liveId? k)
        (Effect.moves (clearAll tr.clear (entered now t event tr)).2) :=
    liveId?_clearAll tr.clear (entered now t event tr) k
  rw [commit_fst, liveId?_conclude, hcleared, hentered, moves, commit_effects,
    Effect.moves_append, Effect.moves_append, hsend, List.append_nil, liveAfter_append,
    liveAfter_append]

/-! ## Which deadlines a commit leaves armed -/

theorem liveId?_clearAll_eq (kinds : List DeadlineKind) (t : Trade) (k : DeadlineKind) :
    (clearAll kinds t).1.liveId? k = if k ∈ kinds then none else t.liveId? k := by
  induction kinds generalizing t with
  | nil => rfl
  | cons j rest ih =>
    rw [clearAll_cons]
    split
    next harmed =>
      rw [ih, Trade.liveId?_disarm]
      by_cases hk : k = j
      · subst hk
        simp
      · simp [hk, Ne.symm hk]
    next hunarmed =>
      rw [ih]
      by_cases hk : k = j
      · -- a kind that is passed over is not armed
        subst hk
        have hnone : t.liveId? k = none := Trade.liveId?_eq_none_of_not_mem_keys fun hmem =>
          hunarmed (Dict.mem_keys_iff.1 hmem)
        simp [hnone]
      · simp [hk]

theorem liveId?_armAll_eq (settings : DeadlineSettings) (now : Instant)
    (kinds : List DeadlineKind) (t : Trade) (k : DeadlineKind) :
    (armAll settings now kinds t).1.liveId? k =
      if k ∈ kinds then some ⟨k, t.sequence⟩ else t.liveId? k := by
  induction kinds generalizing t with
  | nil => rfl
  | cons j rest ih =>
    have hrest := ih (t.arm ⟨⟨j, t.sequence⟩, now.after (settings.duration j)⟩)
    rw [Trade.liveId?_arm] at hrest
    rw [armAll_cons]
    refine hrest.trans ?_
    by_cases hk : k = j
    · subst hk
      simp [Trade.arm]
    · simp [hk, Ne.symm hk, Trade.arm]

/-- What is armed after a commit was armed by it, or was armed before and is neither cleared nor has
expired; and nothing is armed once the trade has ended. -/
theorem liveId?_commit_eq (e : Engine) (now : Instant) (t : Trade) (event : Event)
    (tr : Transition) (k : DeadlineKind) :
    (e.commit now t event tr).1.liveId? k =
      if t.protocol.isTerminal tr.target then none
      else if k ∈ tr.arm then some ⟨k, t.sequence + 1⟩
      else if k ∈ tr.clear ∨ event.kind = .timeout k then none
      else t.liveId? k := by
  obtain ⟨deadlines, hcleared⟩ := cleared_eq now t event tr
  have hterminal : (cleared now t event tr).protocol.isTerminal (cleared now t event tr).state =
      t.protocol.isTerminal tr.target := by rw [hcleared]
  have hsequence : (cleared now t event tr).sequence = t.sequence + 1 := by rw [hcleared]
  -- of all events only an expiry takes a deadline away
  have hentered : (entered now t event tr).liveId? k =
      if event.kind = .timeout k then none else t.liveId? k := by
    show (consume (t.advance tr.target now) event).liveId? k = _
    rw [liveId?_consume]
    cases event with
    | timeout id => simp [Event.deadlineMoves, Event.kind, DeadlineMove.kind, DeadlineMove.left]; rfl
    | inbound m => rfl
    | command c => rfl
  have hlive : (cleared now t event tr).liveId? k =
      if k ∈ tr.clear ∨ event.kind = .timeout k then none else t.liveId? k := by
    rw [cleared, liveId?_clearAll_eq, hentered]
    by_cases hk : k ∈ tr.clear <;> simp [hk]
  rw [commit_fst, conclude, hterminal]
  split
  · rfl
  · rw [liveId?_armAll_eq, hsequence, hlive]

/-- An armed deadline was armed by the last commit, or stood before it and was left alone. -/
theorem of_liveId?_commit {e : Engine} {now : Instant} {t : Trade} {event : Event}
    {tr : Transition} {k : DeadlineKind} {id : DeadlineId}
    (h : (e.commit now t event tr).1.liveId? k = some id) :
    t.protocol.isTerminal tr.target = false ∧
      ((k ∈ tr.arm ∧ id = ⟨k, t.sequence + 1⟩) ∨
        (t.liveId? k = some id ∧ k ∉ tr.clear ∧ event.kind ≠ .timeout k)) := by
  rw [liveId?_commit_eq] at h
  split at h
  · cases h
  next hopen =>
    refine ⟨Bool.eq_false_iff.2 hopen, ?_⟩
    split at h
    next harm =>
      cases h
      exact .inl ⟨harm, rfl⟩
    next =>
      split at h
      · cases h
      next hkept => exact .inr ⟨h, fun hclear => hkept (.inl hclear), fun hkind => hkept (.inr hkind)⟩

/-! ## Which effects a commit has -/

theorem eq_clear_of_mem_clearAll {kinds : List DeadlineKind} {t : Trade} {effect : Effect}
    (h : effect ∈ (clearAll kinds t).2) : ∃ k, effect = .clear k := by
  induction kinds generalizing t with
  | nil => cases h
  | cons k rest ih =>
    rw [clearAll_cons] at h
    split at h
    · rcases List.mem_cons.1 h with rfl | h
      · exact ⟨k, rfl⟩
      · exact ih h
    · exact ih h

theorem eq_arm_of_mem_armAll {settings : DeadlineSettings} {now : Instant}
    {kinds : List DeadlineKind} {t : Trade} {effect : Effect}
    (h : effect ∈ (armAll settings now kinds t).2) :
    ∃ k, effect = .arm ⟨k, t.sequence⟩ (settings.duration k) := by
  induction kinds generalizing t with
  | nil => cases h
  | cons k rest ih =>
    rw [armAll_cons] at h
    -- arming does not change the sequence that the ids carry
    rcases List.mem_cons.1 h with rfl | h
    · exact ⟨k, rfl⟩
    · have hrest := ih h
      exact hrest

theorem eq_clear_or_eq_arm_of_mem_conclude {e : Engine} {now : Instant} {t : Trade}
    {kinds : List DeadlineKind} {effect : Effect} (h : effect ∈ (e.conclude now t kinds).2) :
    (∃ k, effect = .clear k) ∨ ∃ k, effect = .arm ⟨k, t.sequence⟩ (e.deadlines.duration k) := by
  unfold conclude at h
  split at h
  · obtain ⟨k, -, rfl⟩ := List.mem_map.1 h
    exact .inl ⟨k, rfl⟩
  · exact .inr (eq_arm_of_mem_armAll h)

theorem cleared_sequence (now : Instant) (t : Trade) (event : Event) (tr : Transition) :
    (cleared now t event tr).sequence = t.sequence + 1 := by
  obtain ⟨_, h⟩ := cleared_eq now t event tr
  rw [h]

theorem armedAt_of_mem_effects {e : Engine} {now : Instant} {t : Trade} {event : Event}
    {tr : Transition} {id : DeadlineId} {after : Duration}
    (h : Effect.arm id after ∈ (e.commit now t event tr).2.effects) :
    id.armedAt = t.sequence + 1 := by
  rw [commit_effects] at h
  -- of the three parts of the effects only the last one arms anything
  rcases List.mem_append.1 h with h | h
  · rcases List.mem_append.1 h with h | h
    · obtain ⟨k, hclear⟩ := eq_clear_of_mem_clearAll h
      cases hclear
    · obtain ⟨emission, -, hsend⟩ := List.mem_map.1 h
      cases hsend
  · rcases eq_clear_or_eq_arm_of_mem_conclude h with ⟨k, hclear⟩ | ⟨k, harm⟩
    · cases hclear
    · cases harm
      exact cleared_sequence now t event tr

/-- A commit sends exactly the message that the entry of the table calls for. -/
theorem commit_sent (e : Engine) (now : Instant) (t : Trade) (event : Event) (tr : Transition) :
    (e.commit now t event tr).2.sent =
      tr.send.toList.map (compose (cleared now t event tr) event) := by
  have hcleared : (clearAll tr.clear (entered now t event tr)).2.filterMap Effect.message? =
      [] := by
    refine List.filterMap_eq_nil_iff.2 fun effect h => ?_
    obtain ⟨k, rfl⟩ := eq_clear_of_mem_clearAll h
    rfl
  have hconcluded : (e.conclude now (cleared now t event tr) tr.arm).2.filterMap
      Effect.message? = [] := by
    refine List.filterMap_eq_nil_iff.2 fun effect h => ?_
    rcases eq_clear_or_eq_arm_of_mem_conclude h with ⟨k, rfl⟩ | ⟨k, rfl⟩ <;> rfl
  rw [Commit.sent, commit_effects, List.filterMap_append, List.filterMap_append, hcleared,
    hconcluded]
  cases tr.send <;> rfl

/-! ## Committed events -/

/-- Everything that a committed event says about the trade before it, the entry of the table, the
trade after it and the commit. -/
structure Committed (e : Engine) (now : Instant) (t : Trade) (event : Event) (tr : Transition)
    (t' : Trade) (c : Commit) : Prop where
  live : t.finalized = false
  replay : checkReplay t event = .ok ()
  entry : t.protocol.lookup t.state event.kind = some tr
  guards : checkGuards e.context t event tr.guards = .ok ()
  after : ∃ deadlines, t' =
    { t with
      state := tr.target
      sequence := t.sequence + 1
      updatedAt := now
      finalized := t.protocol.isTerminal tr.target
      lastPeerSequence := (consume t event).lastPeerSequence
      consumed := (consume t event).consumed
      deadlines }
  /-- The deadlines are those before, with some disarmed and some armed under their own kinds. -/
  deadlines (P : Dict DeadlineKind Deadline → Prop) :
    P {} → (∀ ds k, P ds → P (ds.erase k)) → (∀ ds d, P ds → P (ds.insert d.id.kind d)) →
      P t.deadlines → P t'.deadlines
  moves (k : DeadlineKind) : t'.liveId? k = liveAfter k (t.liveId? k) (moves event c)
  sequence : c.sequence = t.sequence + 1
  /-- The messages are what the entry calls for, in the name of the trade. -/
  sent : ∃ u : Trade, u.id = t.id ∧ u.sequence = c.sequence ∧
    c.sent = tr.send.toList.map (compose u event)
  armedAt {id : DeadlineId} {after : Duration} :
    Effect.arm id after ∈ c.effects → id.armedAt = c.sequence

theorem handle_of_select {e : Engine} {t : Trade} {event : Event} {tr : Transition} (now : Instant)
    (h : e.select t event = .ok tr) :
    e.handle now t event = ((e.commit now t event tr).1, .committed (e.commit now t event tr).2) := by
  rw [handle, h]

/-- A commit is what the selected entry of the table makes of the trade. -/
theorem exists_commit_of_handle {e : Engine} {now : Instant} {t t' : Trade} {event : Event}
    {c : Commit} (h : e.handle now t event = (t', .committed c)) :
    ∃ tr, e.select t event = .ok tr ∧ t' = (e.commit now t event tr).1 ∧
      c = (e.commit now t event tr).2 := by
  cases hselect : e.select t event with
  | error r =>
    rw [handle, hselect] at h
    cases h
  | ok tr =>
    rw [handle_of_select now hselect] at h
    cases h
    exact ⟨tr, rfl, rfl, rfl⟩

/-- The event itself arms nothing, so that whatever is armed is an effect of the commit. -/
theorem Committed.armedAt_of_move {e : Engine} {now : Instant} {t t' : Trade} {event : Event}
    {tr : Transition} {c : Commit} (h : Committed e now t event tr t' c) {id : DeadlineId}
    (hid : armed id ∈ Engine.moves event c) : id.armedAt = c.sequence := by
  rcases List.mem_append.1 hid with hid | hid
  · cases event <;> simp [Event.deadlineMoves] at hid
  · obtain ⟨effect, heffect, hmove⟩ := List.mem_filterMap.1 hid
    cases effect with
    | arm id' after =>
      cases hmove
      exact h.armedAt heffect
    | send m => cases hmove
    | clear k => cases hmove

/-- Carrying out the selected entry of the table is a commit under it. -/
theorem committed_of_select {e : Engine} {t : Trade} {event : Event} {tr : Transition}
    (now : Instant) (hselect : e.select t event = .ok tr) :
    Committed e now t event tr (e.commit now t event tr).1 (e.commit now t event tr).2 := by
  obtain ⟨hlive, hreplay, hentry, hguards⟩ := select_eq_ok_iff.1 hselect
  -- a trade that is committed to was not finalized before
  obtain ⟨deadlines, hafter⟩ := commit_fst_eq e now t event tr
  rw [hlive, Bool.false_or] at hafter
  have hsequence : (e.commit now t event tr).2.sequence = t.sequence + 1 := by
    rw [commit_snd, hafter]
  have hsent : ∃ u : Trade, u.id = t.id ∧ u.sequence = (e.commit now t event tr).2.sequence ∧
      (e.commit now t event tr).2.sent = tr.send.toList.map (compose u event) := by
    refine ⟨cleared now t event tr, ?_, ?_, commit_sent e now t event tr⟩
    · obtain ⟨_, hcleared⟩ := cleared_eq now t event tr
      rw [hcleared]
    · rw [cleared_sequence, hsequence]
  refine ⟨hlive, hreplay, hentry, hguards, ⟨deadlines, hafter⟩, ?_,
    liveId?_commit e now t event tr, hsequence, hsent, fun harm => ?_⟩
  · intro P hempty herase hinsert hP
    exact deadlines_commit hempty herase hinsert e now event tr hP
  · rw [hsequence, armedAt_of_mem_effects harm]

/-- An event was committed exactly under an entry of the table. -/
theorem exists_committed_of_handle {e : Engine} {now : Instant} {t t' : Trade} {event : Event}
    {c : Commit} (h : e.handle now t event = (t', .committed c)) :
    ∃ tr, Committed e now t event tr t' c := by
  obtain ⟨tr, hselect, rfl, rfl⟩ := exists_commit_of_handle h
  exact ⟨tr, committed_of_select now hselect⟩

end Engine

end PeerTrade
