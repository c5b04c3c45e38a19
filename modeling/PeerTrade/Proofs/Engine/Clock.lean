import PeerTrade.Proofs.Dict
import PeerTrade.Proofs.Engine.Milestones

/-!
# What the clock decides

The clock is read when a trade moves and when it arms a deadline. The readings are kept with the
trade, but no effect depends on them, and no check either unless a guard does that is not built in
(`Protocol.Timeless`). Apart from such guards, trades that differ in nothing else (`Trade.Retimed`)
answer every event alike, whenever it is handled, and go on to differ in nothing else
(`Engine.run_retimed`).
-/

namespace PeerTrade

/-! ## Trades that differ in their readings of the clock -/

/-- Two trades agree in everything but their readings of the clock: when they were created and last
moved, and when the deadlines that both have armed expire. -/
inductive Trade.Retimed (t : Trade) : Trade → Prop where
  | intro (createdAt updatedAt : Instant) (deadlines : Dict DeadlineKind Deadline) :
      (∀ k, (deadlines.get? k).map (·.id) = t.liveId? k) →
        Retimed t { t with createdAt, updatedAt, deadlines }

namespace Trade

variable {t t' : Trade}

theorem contains_deadlines (t : Trade) (k : DeadlineKind) :
    t.deadlines.contains k = (t.liveId? k).isSome := by
  rw [Dict.contains, liveId?, deadline?, Option.isSome_map]

namespace Retimed

theorem refl (t : Trade) : t.Retimed t := .intro t.createdAt t.updatedAt t.deadlines fun _ => rfl

theorem liveId? (h : t.Retimed t') (k : DeadlineKind) : t'.liveId? k = t.liveId? k := by
  cases h with
  | intro _ _ _ hdeadlines => exact hdeadlines k

theorem trans {t'' : Trade} (h : t.Retimed t') (h' : t'.Retimed t'') : t.Retimed t'' := by
  have hlive : ∀ k, t''.liveId? k = t.liveId? k := fun k => (h'.liveId? k).trans (h.liveId? k)
  cases h with
  | intro _ _ _ _ =>
    cases h' with
    | intro createdAt updatedAt deadlines _ => exact .intro createdAt updatedAt deadlines hlive

theorem contains (h : t.Retimed t') (k : DeadlineKind) :
    t'.deadlines.contains k = t.deadlines.contains k := by
  rw [contains_deadlines, contains_deadlines, h.liveId?]

theorem id (h : t.Retimed t') : t'.id = t.id := by cases h; rfl

theorem state (h : t.Retimed t') : t'.state = t.state := by cases h; rfl

theorem sequence (h : t.Retimed t') : t'.sequence = t.sequence := by cases h; rfl

theorem protocol (h : t.Retimed t') : t'.protocol = t.protocol := by cases h; rfl

/-! ## Changes -/

theorem advance (h : t.Retimed t') (target : State) (now now' : Instant) :
    (t.advance target now).Retimed (t'.advance target now') := by
  cases h with
  | intro createdAt _ deadlines hdeadlines => exact .intro createdAt now' deadlines hdeadlines

theorem arm (h : t.Retimed t') {d d' : Deadline} (hid : d'.id = d.id) :
    (t.arm d).Retimed (t'.arm d') := by
  have harmed : ∀ k, (t'.arm d').liveId? k = (t.arm d).liveId? k := fun k => by
    rw [liveId?_arm, liveId?_arm, hid, h.liveId?]
  cases h with
  | intro createdAt updatedAt _ _ => exact .intro createdAt updatedAt _ harmed

theorem disarm (h : t.Retimed t') (k : DeadlineKind) : (t.disarm k).Retimed (t'.disarm k) := by
  have harmed : ∀ j, (t'.disarm k).liveId? j = (t.disarm k).liveId? j := fun j => by
    rw [liveId?_disarm, liveId?_disarm, h.liveId?]
  cases h with
  | intro createdAt updatedAt _ _ => exact .intro createdAt updatedAt _ harmed

theorem finalize (h : t.Retimed t') : t.finalize.Retimed t'.finalize := by
  cases h with
  | intro createdAt updatedAt _ _ => exact .intro createdAt updatedAt {} fun _ => rfl

end Retimed

end Trade

/-! ## Guards that do not look at the clock -/

/-- A guard holds alike for trades that agree in everything but their readings of the clock. -/
def Guard.Timeless (context : GuardContext) (g : Guard) : Prop :=
  ∀ (t t' : Trade) (event : Event), t.Retimed t' → g.check context t' event = g.check context t event

/-- No guard of a table looks at the readings of the clock. -/
def Protocol.Timeless (context : GuardContext) (p : Protocol) : Prop :=
  ∀ e ∈ p.table.entries, ∀ g ∈ e.2.guards, g.Timeless context

theorem Guard.BuiltIn.timeless {g : Guard} (h : g.BuiltIn) (context : GuardContext) :
    g.Timeless context := by
  intro t t' event hretimed
  cases hretimed
  cases g with
  | custom name code => exact absurd h (by simp [Guard.BuiltIn, Catalog.all])
  | _ => rfl

theorem Protocol.BuiltIn.timeless {p : Protocol} (h : p.BuiltIn) (context : GuardContext) :
    p.Timeless context := fun e he g hg => (h e he g hg).timeless context

/-! ## The engine -/

namespace Engine

variable {t t' : Trade} {event : Event}

theorem checkReplay_retimed (h : t.Retimed t') (event : Event) :
    checkReplay t' event = checkReplay t event := by
  cases event with
  | inbound m => cases h; rfl
  | command c => cases h; rfl
  | timeout id =>
    -- only the name of the armed deadline is looked at
    have hnamed : ∀ u : Trade, (u.deadline? id.kind).any (·.id == id) =
        (u.liveId? id.kind).any (· == id) := fun u => by
      rw [Trade.liveId?, Option.any_map]
    rw [checkReplay, checkReplay, hnamed, hnamed, h.liveId?]

theorem checkGuards_retimed (h : t.Retimed t') {context : GuardContext} {guards : List Guard}
    (htimeless : ∀ g ∈ guards, g.Timeless context) (event : Event) :
    checkGuards context t' event guards = checkGuards context t event guards := by
  induction guards with
  | nil => rfl
  | cons g rest ih =>
    have hcheck : g.check context t' event = g.check context t event :=
      htimeless g (List.mem_cons_self ..) t t' event h
    have hrest := ih fun g hg => htimeless g (List.mem_cons_of_mem _ hg)
    rw [checkGuards, checkGuards, hcheck, hrest]

theorem select_retimed (h : t.Retimed t') {e : Engine} (htimeless : t.protocol.Timeless e.context)
    (event : Event) : e.select t' event = e.select t event := by
  have hreplay := checkReplay_retimed h event
  have hguards : ∀ tr, t.protocol.lookup t.state event.kind = some tr →
      checkGuards e.context t' event tr.guards = checkGuards e.context t event tr.guards :=
    fun tr hentry => checkGuards_retimed h (htimeless _ (Dict.get?_eq_some_iff.1 hentry)) event
  unfold select
  rw [hreplay, h.protocol, h.state]
  cases hentry : t.protocol.lookup t.state event.kind with
  | none =>
    cases h
    rfl
  | some tr =>
    simp only [hguards tr hentry]
    cases h
    rfl

theorem consume_retimed (h : t.Retimed t') (event : Event) :
    (consume t event).Retimed (consume t' event) := by
  cases event with
  | timeout id => exact h.disarm id.kind
  | inbound m =>
    cases h with
    | intro createdAt updatedAt deadlines hdeadlines =>
      exact .intro createdAt updatedAt deadlines hdeadlines
  | command c =>
    cases h with
    | intro createdAt updatedAt deadlines hdeadlines =>
      exact .intro createdAt updatedAt deadlines hdeadlines

theorem clearAll_retimed (h : t.Retimed t') (kinds : List DeadlineKind) :
    (clearAll kinds t).1.Retimed (clearAll kinds t').1 ∧
      (clearAll kinds t').2 = (clearAll kinds t).2 := by
  induction kinds generalizing t t' with
  | nil => exact ⟨h, rfl⟩
  | cons k rest ih =>
    rw [clearAll_cons, clearAll_cons, h.contains]
    split
    · obtain ⟨hrest, heffects⟩ := ih (h.disarm k)
      exact ⟨hrest, congrArg (Effect.clear k :: ·) heffects⟩
    · exact ih h

theorem armAll_retimed (h : t.Retimed t') (settings : DeadlineSettings) (now now' : Instant)
    (kinds : List DeadlineKind) :
    (armAll settings now kinds t).1.Retimed (armAll settings now' kinds t').1 ∧
      (armAll settings now' kinds t').2 = (armAll settings now kinds t).2 := by
  induction kinds generalizing t t' with
  | nil => exact ⟨h, rfl⟩
  | cons k rest ih =>
    rw [armAll_cons, armAll_cons, h.sequence]
    -- the two deadlines have one name, but expire at instants of their own
    have hid : (⟨⟨k, t.sequence⟩, now'.after (settings.duration k)⟩ : Deadline).id =
        (⟨⟨k, t.sequence⟩, now.after (settings.duration k)⟩ : Deadline).id := rfl
    obtain ⟨hrest, heffects⟩ := ih (h.arm hid)
    exact ⟨hrest, congrArg (Effect.arm ⟨k, t.sequence⟩ (settings.duration k) :: ·) heffects⟩

theorem conclude_retimed (h : t.Retimed t') (e : Engine) (now now' : Instant)
    (kinds : List DeadlineKind) :
    (e.conclude now t kinds).1.Retimed (e.conclude now' t' kinds).1 ∧
      (e.conclude now' t' kinds).2 = (e.conclude now t kinds).2 := by
  have hkeys : t'.deadlines.keys = t.deadlines.keys := Dict.keys_eq_of_contains h.contains
  rw [conclude, conclude, h.protocol, h.state, hkeys]
  split
  · exact ⟨h.finalize, rfl⟩
  · exact armAll_retimed h e.deadlines now now' kinds

theorem commit_retimed (h : t.Retimed t') (e : Engine) (now now' : Instant) (event : Event)
    (tr : Transition) :
    (e.commit now t event tr).1.Retimed (e.commit now' t' event tr).1 ∧
      (e.commit now' t' event tr).2 = (e.commit now t event tr).2 := by
  have hentered : (entered now t event tr).Retimed (entered now' t' event tr) :=
    consume_retimed (h.advance tr.target now now') event
  obtain ⟨hcleared, hclear⟩ : (cleared now t event tr).Retimed (cleared now' t' event tr) ∧
      (clearAll tr.clear (entered now' t' event tr)).2 =
        (clearAll tr.clear (entered now t event tr)).2 := clearAll_retimed hentered tr.clear
  obtain ⟨hconcluded, hconclude⟩ := conclude_retimed hcleared e now now' tr.arm
  have hsend : compose (cleared now' t' event tr) event = compose (cleared now t event tr) event := by
    generalize cleared now t event tr = u at hcleared ⊢
    generalize cleared now' t' event tr = u' at hcleared ⊢
    cases hcleared
    rfl
  refine ⟨hconcluded, ?_⟩
  -- the commit reports nothing but what the two trades have in common
  have hafter : (e.commit now t event tr).1.Retimed (e.commit now' t' event tr).1 := hconcluded
  rw [commit_snd, commit_snd e now t, hafter.id, hafter.sequence, hafter.protocol, h.state,
    commit_effects, commit_effects, hsend, hclear, hconclude]

theorem handle_retimed (h : t.Retimed t') {e : Engine} (htimeless : t.protocol.Timeless e.context)
    (now now' : Instant) (event : Event) :
    (e.handle now t event).1.Retimed (e.handle now' t' event).1 ∧
      (e.handle now' t' event).2 = (e.handle now t event).2 := by
  unfold handle
  rw [select_retimed h htimeless]
  cases e.select t event with
  | error r => exact ⟨h, rfl⟩
  | ok tr =>
    obtain ⟨hafter, hcommit⟩ := commit_retimed h e now now' event tr
    exact ⟨hafter, congrArg Outcome.committed hcommit⟩

/-- The same events have the same outcomes at any other instants. -/
theorem run_retimed (h : t.Retimed t') {e : Engine} (htimeless : t.protocol.Timeless e.context)
    {xs ys : Stream} (hevents : ys.map (·.2) = xs.map (·.2)) :
    (e.run t xs).1.Retimed (e.run t' ys).1 ∧ (e.run t' ys).2 = (e.run t xs).2 := by
  induction xs generalizing t t' ys with
  | nil =>
    rw [List.map_eq_nil_iff.1 hevents]
    exact ⟨h, rfl⟩
  | cons arrival rest ih =>
    obtain ⟨arrival', rest', rfl, hevent, hrest⟩ := List.map_eq_cons_iff.1 hevents
    obtain ⟨now, event⟩ := arrival
    obtain ⟨now', event'⟩ := arrival'
    obtain rfl : event' = event := hevent
    obtain ⟨hafter, houtcome⟩ := handle_retimed h htimeless now now' event'
    have hnext : (e.handle now t event').1.protocol.Timeless e.context := by
      have hdeal : t.SameDeal (e.handle now t event').1 := sameDeal_run e t [(now, event')]
      rw [hdeal.protocol]
      exact htimeless
    obtain ⟨hfinal, houtcomes⟩ := ih hafter hnext hrest
    rw [run_cons, run_cons]
    exact ⟨hfinal, congrArg₂ List.cons houtcome houtcomes⟩

end Engine

end PeerTrade
