import PeerTrade.Proofs.Trade.Restart

/-!
# Effects as an account of the deadlines

Whoever carries the effects of a commit out does not look at the trade. It does not have to: the effects
say what happens to the armed deadlines one by one, and in the order in which it happens
(`Effect.LeadTo`). A kind is cleared only where it is armed, so that none is cleared twice, and whatever
is armed is named after the commit. All this holds under any table (`Engine.effects_account`).
-/

namespace PeerTrade

/-! ## Armed deadlines by kind -/

namespace Trade

/-- The names of the armed deadlines, by kind. -/
def armedIds (t : Trade) : Dict DeadlineKind DeadlineId := t.deadlines.map (·.id)

@[simp] theorem armedIds_disarm (t : Trade) (k : DeadlineKind) :
    (t.disarm k).armedIds = t.armedIds.erase k :=
  Dict.map_erase ..

@[simp] theorem armedIds_arm (t : Trade) (d : Deadline) :
    (t.arm d).armedIds = t.armedIds.insert d.id.kind d.id :=
  Dict.map_insert ..

theorem contains_armedIds (t : Trade) (k : DeadlineKind) :
    t.armedIds.contains k = t.deadlines.contains k :=
  Dict.contains_map ..

/-- Every armed deadline stands under the kind that is part of its name. -/
theorem entries_armedIds {t : Trade} (hkeyed : Keyed t.deadlines) :
    t.armedIds.entries = t.armed.map fun id => (id.kind, id) := by
  have hentries : t.armed.map (fun id => (id.kind, id)) =
      t.deadlines.entries.map fun e => (e.2.id.kind, e.2.id) := by
    simp [armed, Dict.values]
  rw [hentries]
  exact List.map_congr_left fun e he => by rw [hkeyed e he]

end Trade

/-- What an event does to the armed deadlines by itself: an expiry uses up its kind. -/
def Event.spend (ids : Dict DeadlineKind DeadlineId) : Event → Dict DeadlineKind DeadlineId
  | .timeout id => ids.erase id.kind
  | .inbound _ | .command _ => ids

/-! ## Effects in order -/

namespace Effect

/-- Carried out in order, the effects lead from some armed deadlines to others. A kind that is cleared
is armed at that moment. -/
inductive LeadTo :
    Dict DeadlineKind DeadlineId → List Effect → Dict DeadlineKind DeadlineId → Prop where
  | nil {ids : Dict DeadlineKind DeadlineId} : LeadTo ids [] ids
  | send {ids ids' : Dict DeadlineKind DeadlineId} {m : Outbound} {rest : List Effect} :
      LeadTo ids rest ids' → LeadTo ids (.send m :: rest) ids'
  | clear {ids ids' : Dict DeadlineKind DeadlineId} {k : DeadlineKind} {rest : List Effect} :
      ids.contains k = true → LeadTo (ids.erase k) rest ids' → LeadTo ids (.clear k :: rest) ids'
  | arm {ids ids' : Dict DeadlineKind DeadlineId} {id : DeadlineId} {after : Duration}
      {rest : List Effect} :
      LeadTo (ids.insert id.kind id) rest ids' → LeadTo ids (.arm id after :: rest) ids'

/-- The kind that an effect clears. -/
def clears? : Effect → Option DeadlineKind
  | clear k => some k
  | send _ | arm .. => none

/-- Whether an effect arms a deadline. -/
def Arms : Effect → Prop
  | arm .. => True
  | send _ | clear _ => False

variable {ids ids' ids'' : Dict DeadlineKind DeadlineId} {effects effects' : List Effect}

theorem LeadTo.append (h : LeadTo ids effects ids') (h' : LeadTo ids' effects' ids'') :
    LeadTo ids (effects ++ effects') ids'' := by
  induction h with
  | nil => exact h'
  | send _ ih => exact .send (ih h')
  | clear harmed _ ih => exact .clear harmed (ih h')
  | arm _ ih => exact .arm (ih h')

/-- As long as nothing is armed, every kind that is cleared was armed at first and is not any more. -/
theorem LeadTo.nodup_clears (h : LeadTo ids effects ids') (hquiet : ∀ e ∈ effects, ¬e.Arms) :
    (effects.filterMap clears?).Nodup ∧
      ∀ k ∈ effects.filterMap clears?, ids.contains k = true := by
  induction h with
  | nil => exact ⟨List.nodup_nil, nofun⟩
  | send _ ih => exact ih fun e he => hquiet e (List.mem_cons_of_mem _ he)
  | @clear ids ids' k rest harmed _ ih =>
    obtain ⟨hnodup, hrest⟩ := ih fun e he => hquiet e (List.mem_cons_of_mem _ he)
    have hother : ∀ j ∈ rest.filterMap clears?, j ≠ k ∧ ids.contains j = true := by
      intro j hj
      have hj := hrest j hj
      rw [Dict.contains_erase] at hj
      simpa using hj
    have hnew : k ∉ rest.filterMap clears? := fun hk => (hother k hk).1 rfl
    exact ⟨List.nodup_cons.2 ⟨hnew, hnodup⟩,
      List.forall_mem_cons.2 ⟨harmed, fun j hj => (hother j hj).2⟩⟩
  | arm _ _ => exact absurd trivial (hquiet _ List.mem_cons_self)

/-- Clearing kinds that are armed, each once, leaves the others. -/
theorem leadTo_clears {kinds : List DeadlineKind} (hnodup : kinds.Nodup)
    (harmed : ∀ k ∈ kinds, ids.contains k = true) :
    LeadTo ids (kinds.map .clear) (kinds.foldl Dict.erase ids) := by
  induction kinds generalizing ids with
  | nil => exact .nil
  | cons k rest ih =>
    obtain ⟨hnew, hrest⟩ := List.nodup_cons.1 hnodup
    refine .clear (harmed k List.mem_cons_self) (ih hrest fun j hj => ?_)
    have hne : j ≠ k := fun heq => hnew (heq ▸ hj)
    simpa [Dict.contains_erase, hne] using harmed j (List.mem_cons_of_mem _ hj)

end Effect

/-! ## Commits -/

namespace Engine

open Effect

variable {e : Engine} {now : Instant} {t t' : Trade} {event : Event} {tr : Transition} {c : Commit}

theorem leadTo_clearAll (kinds : List DeadlineKind) (t : Trade) :
    LeadTo t.armedIds (clearAll kinds t).2 (clearAll kinds t).1.armedIds := by
  induction kinds generalizing t with
  | nil => exact .nil
  | cons k rest ih =>
    rw [clearAll_cons]
    split
    next harmed =>
      refine .clear ((t.contains_armedIds k).trans harmed) ?_
      rw [← Trade.armedIds_disarm]
      exact ih (t.disarm k)
    next => exact ih t

theorem leadTo_armAll (settings : DeadlineSettings) (now : Instant) (kinds : List DeadlineKind)
    (t : Trade) :
    LeadTo t.armedIds (armAll settings now kinds t).2 (armAll settings now kinds t).1.armedIds := by
  induction kinds generalizing t with
  | nil => exact .nil
  | cons k rest ih =>
    have hrest := ih (t.arm ⟨⟨k, t.sequence⟩, now.after (settings.duration k)⟩)
    rw [Trade.armedIds_arm] at hrest
    exact .arm hrest

/-- A trade that ends clears whatever is armed. -/
theorem leadTo_finalize (t : Trade) :
    LeadTo t.armedIds (t.deadlines.keys.map .clear) t.finalize.armedIds := by
  have hall : t.deadlines.keys.foldl Dict.erase t.armedIds = t.finalize.armedIds := by
    refine Dict.ext_get? fun k => ?_
    rw [Dict.get?_foldl_erase]
    split
    next => rfl
    next hk =>
      -- a kind without deadline is missing on both sides
      rw [Dict.mem_keys_iff, ← t.contains_armedIds, Dict.contains] at hk
      exact Option.not_isSome_iff_eq_none.1 hk
  rw [← hall]
  refine leadTo_clears t.deadlines.nodup_keys fun k hk => ?_
  rw [t.contains_armedIds]
  exact Dict.mem_keys_iff.1 hk

theorem leadTo_conclude (e : Engine) (now : Instant) (t : Trade) (kinds : List DeadlineKind) :
    LeadTo t.armedIds (e.conclude now t kinds).2 (e.conclude now t kinds).1.armedIds := by
  unfold conclude
  split
  · exact leadTo_finalize t
  · exact leadTo_armAll e.deadlines now kinds t

theorem armedIds_entered (now : Instant) (t : Trade) (event : Event) (tr : Transition) :
    (entered now t event tr).armedIds = event.spend t.armedIds := by
  cases event with
  | inbound m => rfl
  | command cmd => rfl
  | timeout id => exact Trade.armedIds_disarm ..

/-- The effects of a commit up to what concludes it. -/
def opening (now : Instant) (t : Trade) (event : Event) (tr : Transition) : List Effect :=
  (clearAll tr.clear (entered now t event tr)).2 ++
    tr.send.toList.map fun emission => .send (compose (cleared now t event tr) event emission)

theorem leadTo_opening (now : Instant) (t : Trade) (event : Event) (tr : Transition) :
    LeadTo (event.spend t.armedIds) (opening now t event tr) (cleared now t event tr).armedIds := by
  have hclear := leadTo_clearAll tr.clear (entered now t event tr)
  rw [armedIds_entered] at hclear
  refine hclear.append ?_
  cases tr.send with
  | none => exact .nil
  | some emission => exact .send .nil

theorem effects_eq_opening (e : Engine) (now : Instant) (t : Trade) (event : Event)
    (tr : Transition) :
    (e.commit now t event tr).2.effects =
      opening now t event tr ++ (e.conclude now (cleared now t event tr) tr.arm).2 := rfl

/-- The effects of a commit lead from the deadlines that the event leaves to those after it. -/
theorem leadTo_commit (e : Engine) (now : Instant) (t : Trade) (event : Event) (tr : Transition) :
    LeadTo (event.spend t.armedIds) (e.commit now t event tr).2.effects
      (e.commit now t event tr).1.armedIds :=
  (leadTo_opening now t event tr).append (leadTo_conclude e now _ tr.arm)

/-! ## What commits clear and arm -/

theorem not_arms_of_mem_opening {effect : Effect} (h : effect ∈ opening now t event tr) :
    ¬effect.Arms := by
  rcases List.mem_append.1 h with h | h
  · obtain ⟨k, rfl⟩ := eq_clear_of_mem_clearAll h
    exact id
  · obtain ⟨emission, -, rfl⟩ := List.mem_map.1 h
    exact id

/-- A trade that ends arms nothing. -/
theorem not_arms_of_terminal (hterminal : t.protocol.isTerminal tr.target = true) {effect : Effect}
    (h : effect ∈ (e.commit now t event tr).2.effects) : ¬effect.Arms := by
  obtain ⟨deadlines, hcleared⟩ := cleared_eq now t event tr
  rw [effects_eq_opening] at h
  rcases List.mem_append.1 h with h | h
  · exact not_arms_of_mem_opening h
  · rw [conclude, if_pos (by rw [hcleared]; exact hterminal)] at h
    obtain ⟨k, -, rfl⟩ := List.mem_map.1 h
    exact id

/-- No kind is cleared twice. -/
theorem nodup_clears_commit (e : Engine) (now : Instant) (t : Trade) (event : Event)
    (tr : Transition) : ((e.commit now t event tr).2.effects.filterMap clears?).Nodup := by
  cases hterminal : t.protocol.isTerminal tr.target with
  | true =>
    exact ((leadTo_commit e now t event tr).nodup_clears fun _ => not_arms_of_terminal hterminal).1
  | false =>
    -- what arms deadlines comes last, and clears nothing
    obtain ⟨deadlines, hcleared⟩ := cleared_eq now t event tr
    have hnone : (e.conclude now (cleared now t event tr) tr.arm).2.filterMap clears? = [] := by
      rw [conclude, if_neg (by rw [hcleared]; simpa using hterminal)]
      refine List.filterMap_eq_nil_iff.2 fun effect heffect => ?_
      obtain ⟨k, rfl⟩ := eq_arm_of_mem_armAll heffect
      rfl
    rw [effects_eq_opening, List.filterMap_append, hnone, List.append_nil]
    exact ((leadTo_opening now t event tr).nodup_clears fun _ => not_arms_of_mem_opening).1

/-- Whatever is armed has the number of the commit, and the length that is set for its kind. -/
theorem arm_of_mem_effects {id : DeadlineId} {after : Duration}
    (h : Effect.arm id after ∈ (e.commit now t event tr).2.effects) :
    id.armedAt = (e.commit now t event tr).2.sequence ∧ after = e.deadlines.duration id.kind := by
  refine ⟨?_, ?_⟩
  · obtain ⟨deadlines, hafter⟩ := commit_fst_eq e now t event tr
    rw [armedAt_of_mem_effects h, commit_snd, hafter]
  · rw [effects_eq_opening] at h
    rcases List.mem_append.1 h with h | h
    · exact absurd trivial (not_arms_of_mem_opening h)
    · rcases eq_clear_or_eq_arm_of_mem_conclude h with ⟨k, hclear⟩ | ⟨k, harm⟩
      · cases hclear
      · cases harm
        rfl

/-- A commit and the deadlines that were armed before it and are armed after it. -/
structure Accounts (settings : DeadlineSettings) (t : Trade) (event : Event) (c : Commit)
    (t' : Trade) : Prop where
  /-- The armed deadlines stand under their kinds, before and after. -/
  entries : ∀ u ∈ [t, t'], u.armedIds.entries = u.armed.map fun id => (id.kind, id)
  /-- The effects lead from those before, without the one that expired, to those after. -/
  effects : LeadTo (event.spend t.armedIds) c.effects t'.armedIds
  clears : (c.effects.filterMap clears?).Nodup
  arms : ∀ id after, .arm id after ∈ c.effects →
    id.armedAt = c.sequence ∧ after = settings.duration id.kind
  /-- With the last commit nothing is armed any more. -/
  last : c.finalized = true → (∀ effect ∈ c.effects, ¬effect.Arms) ∧ t'.armed = []

/-- Under any table, and wherever a trade has come to, the effects of a commit say exactly what happens
to the armed deadlines. -/
theorem effects_account {registry : Registry} {origin : Trade} (horigin : origin.Origin registry)
    (e e' : Engine) (stream : Stream) (now : Instant)
    (hcommit : e'.handle now (e.run origin stream).1 event = (t', .committed c)) :
    Accounts e'.deadlines (e.run origin stream).1 event c t' := by
  have hbefore : (e.run origin stream).1.Restorable registry :=
    restorable_run horigin.restorable e stream
  have hafter : t'.Restorable registry := restorable_commit hbefore hcommit
  obtain ⟨tr, -, rfl, rfl⟩ := exists_commit_of_handle hcommit
  refine ⟨?_, leadTo_commit .., nodup_clears_commit .., fun _ _ => arm_of_mem_effects, ?_⟩
  · intro u hu
    simp only [List.mem_cons, List.not_mem_nil, or_false] at hu
    rcases hu with rfl | rfl
    · exact Trade.entries_armedIds hbefore.keyed
    · exact Trade.entries_armedIds hafter.keyed
  · intro hfinalized
    have hterminal : (e.run origin stream).1.protocol.isTerminal tr.target = true := by
      obtain ⟨deadlines, hfst⟩ := commit_fst_eq e' now (e.run origin stream).1 event tr
      rw [commit_snd, hfst] at hfinalized
      exact hfinalized
    refine ⟨fun _ => not_arms_of_terminal hterminal, Trade.armed_eq_nil fun k => ?_⟩
    rw [liveId?_commit_eq, if_pos hterminal]

/-- A table that arms kinds more than once, and clears both the kind that expires and one that it arms
again at once. -/
def tangled : Protocol := Standard.tableOf .buyerAsTaker .reputationFiat [
  { states := [.init]
    event := .command .takeOffer
    transition := { target := .takeOfferSent, arm := [.deposit, .payout, .deposit] } },
  { states := [.takeOfferSent]
    event := .timeout .deposit
    transition :=
      { target := .takeOfferSent
        clear := [.deposit, .payout, .payout]
        arm := [.payout, .btcSettlement, .payout] } },
  { states := [.takeOfferSent]
    event := .message .accountData
    transition := { target := .failed, arm := [.deposit] } }]

/-- The command, the expiry of a deadline that it armed, and the message that ends the trade. -/
def tangle : Stream := [
  (.epoch, .command ⟨"c", .takeOffer, [], []⟩),
  (.epoch, .timeout ⟨.deposit, 1⟩),
  (.epoch, .inbound ⟨"trade_1", 1, ⟨"maker"⟩, .accountData, [], []⟩)]

theorem tangle_effects_account :
    ∃ registry t, ∃ e : Engine, Trade.Origin registry t ∧
      (∃ c t', e.handle .epoch (e.run t (tangle.take 1)).1 (.timeout ⟨.deposit, 1⟩) =
          (t', .committed c) ∧
        (c.effects.filterMap clears?, t'.armed) =
          ([.payout], [⟨.btcSettlement, 2⟩, ⟨.payout, 2⟩]) ∧
        Accounts e.deadlines (e.run t (tangle.take 1)).1 (.timeout ⟨.deposit, 1⟩) c t') ∧
      ∃ m c t', e.handle .epoch (e.run t (tangle.take 2)).1 (.inbound m) = (t', .committed c) ∧
        c.finalized = true ∧ c.effects = [.clear .btcSettlement, .clear .payout] ∧
        Accounts e.deadlines (e.run t (tangle.take 2)).1 (.inbound m) c t' := by
  let registry : Registry := { tables := Dict.empty.insert tangled.combination tangled }
  let e : Engine := { registry, verifier := { accepts := fun _ _ _ => true } }
  let t : Trade := .initial .epoch "trade_1" tangled.combination Trade.soundTerms ⟨"maker"⟩ tangled
  have hcreate : Trade.create registry .epoch "trade_1" tangled.combination Trade.soundTerms
      ⟨"maker"⟩ = .ok t := Trade.create_soundTerms rfl rfl
  have horigin : Trade.Origin registry t := .created hcreate
  obtain ⟨c, t', hcommit, heffects⟩ :
      ∃ c t', e.handle .epoch (e.run t (tangle.take 1)).1 (.timeout ⟨.deposit, 1⟩) =
          (t', .committed c) ∧
        (c.effects.filterMap clears?, t'.armed) =
          ([.payout], [⟨.btcSettlement, 2⟩, ⟨.payout, 2⟩]) := ⟨_, _, rfl, rfl⟩
  obtain ⟨m, c', t'', hcommit', hlast⟩ :
      ∃ m c t', e.handle .epoch (e.run t (tangle.take 2)).1 (.inbound m) = (t', .committed c) ∧
        c.finalized = true ∧ c.effects = [.clear .btcSettlement, .clear .payout] :=
    ⟨⟨"trade_1", 1, ⟨"maker"⟩, .accountData, [], []⟩, _, _, rfl, rfl, rfl⟩
  exact ⟨registry, t, e, horigin,
    ⟨c, t', hcommit, heffects, effects_account horigin e e (tangle.take 1) .epoch hcommit⟩,
    m, c', t'', hcommit', hlast.1, hlast.2,
    effects_account horigin e e (tangle.take 2) .epoch hcommit'⟩

end Engine

end PeerTrade
