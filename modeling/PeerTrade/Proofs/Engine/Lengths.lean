import PeerTrade.Proofs.Engine.Clock
import PeerTrade.Proofs.Engine.Effects
import PeerTrade.Proofs.Engine.Dates

/-!
# Deadlines of other lengths

How long deadlines last is a matter of the settings, and nothing that happens to a trade depends on
it but when its deadlines expire. A run under deadlines of no length keeps the date on which each
deadline was armed; a run under any settings is this one with every deadline stretched to its length
(`Engine.run_stretch`). Runs under two settings can so be compared deadline by deadline. A longer
length leads to a later instant, as far as the calendar reaches; behind its last day a shift is not
carried out, and the deadline expires on the date on which it was armed.
-/

namespace PeerTrade

theorem DeadlineSettings.duration_mono {s s' : DeadlineSettings} {kind : DeadlineKind}
    (h : s.secs kind ≤ s'.secs kind) : s.duration kind ≤ s'.duration kind :=
  Nat.mul_le_mul_right _ (UInt64.le_iff_toNat_le.1 h)

/-! ## Stretching deadlines -/

/-- Deadlines that expire at once. -/
def DeadlineSettings.none : DeadlineSettings := ⟨0, 0, 0, 0, 0⟩

theorem DeadlineSettings.duration_none (kind : DeadlineKind) : none.duration kind = ⟨0⟩ := by
  cases kind <;> rfl

namespace Deadline

/-- The deadline with another instant at which it expires. -/
def movedTo (d : Deadline) (expiresAt : Instant) : Deadline := { d with expiresAt }

@[simp] theorem id_movedTo (d : Deadline) (expiresAt : Instant) :
    (d.movedTo expiresAt).id = d.id := rfl

/-- The deadline that expires a length of its kind later. -/
def stretch (s : DeadlineSettings) (d : Deadline) : Deadline :=
  d.movedTo (d.expiresAt.after (s.duration d.id.kind))

@[simp] theorem id_stretch (s : DeadlineSettings) (d : Deadline) : (d.stretch s).id = d.id :=
  d.id_movedTo _

end Deadline

namespace Trade

variable {s : DeadlineSettings} {t : Trade}

/-- The trade with all deadlines stretched. -/
def stretch (s : DeadlineSettings) (t : Trade) : Trade :=
  { t with deadlines := t.deadlines.map (Deadline.stretch s) }

theorem deadline?_stretch (s : DeadlineSettings) (t : Trade) (kind : DeadlineKind) :
    (t.stretch s).deadline? kind = (t.deadline? kind).map (Deadline.stretch s) :=
  Dict.get?_map _ t.deadlines kind

theorem stretch_of_unarmed (s : DeadlineSettings) (h : t.deadlines = {}) : t.stretch s = t := by
  have hnone : t.deadlines.map (Deadline.stretch s) = t.deadlines := by
    rw [h]
    rfl
  rw [stretch, hnone]

theorem liveId?_stretch (s : DeadlineSettings) (t : Trade) (kind : DeadlineKind) :
    (t.stretch s).liveId? kind = t.liveId? kind := by
  have hid : (fun d => d.id) ∘ Deadline.stretch s = fun d => d.id := funext fun d => d.id_stretch s
  rw [liveId?, deadline?_stretch, Option.map_map, hid, liveId?]

/-- Stretching deadlines changes nothing but when they expire. -/
theorem retimed_stretch (s : DeadlineSettings) (t : Trade) : t.Retimed (t.stretch s) :=
  .intro t.createdAt t.updatedAt _ fun kind => t.liveId?_stretch s kind

theorem retimed_stretches (s s' : DeadlineSettings) (t : Trade) :
    (t.stretch s).Retimed (t.stretch s') := by
  refine .intro t.createdAt t.updatedAt _ fun kind => ?_
  exact (t.liveId?_stretch s' kind).trans (t.liveId?_stretch s kind).symm

theorem stretch_disarm (s : DeadlineSettings) (t : Trade) (kind : DeadlineKind) :
    (t.disarm kind).stretch s = (t.stretch s).disarm kind := by
  simp only [disarm, stretch, Dict.map_erase]

theorem stretch_arm (s : DeadlineSettings) (t : Trade) (d : Deadline) :
    (t.arm d).stretch s = (t.stretch s).arm (d.stretch s) := by
  simp only [arm, stretch, Dict.map_insert, Deadline.id_stretch]

end Trade

namespace Engine

variable {e : Engine} {s : DeadlineSettings} {t : Trade} {now : Instant}

/-- The engine under other settings. -/
def under (e : Engine) (s : DeadlineSettings) : Engine := { e with deadlines := s }

theorem stretch_consume (s : DeadlineSettings) (t : Trade) (event : Event) :
    (consume t event).stretch s = consume (t.stretch s) event := by
  cases event with
  | inbound m => rfl
  | command c => rfl
  | timeout id => exact t.stretch_disarm s id.kind

theorem stretch_clearAll (s : DeadlineSettings) (t : Trade) (kinds : List DeadlineKind) :
    (clearAll kinds t).1.stretch s = (clearAll kinds (t.stretch s)).1 := by
  induction kinds generalizing t with
  | nil => rfl
  | cons k rest ih =>
    have hcontains : (t.stretch s).deadlines.contains k = t.deadlines.contains k :=
      Dict.contains_map _ t.deadlines k
    rw [clearAll_cons, clearAll_cons, hcontains]
    split
    · rw [← Trade.stretch_disarm]
      exact ih (t.disarm k)
    · exact ih t

/-- What is armed without length and stretched is armed with its length. -/
theorem stretch_armAll (s : DeadlineSettings) (now : Instant) (t : Trade)
    (kinds : List DeadlineKind) :
    (armAll .none now kinds t).1.stretch s = (armAll s now kinds (t.stretch s)).1 := by
  induction kinds generalizing t with
  | nil => rfl
  | cons k rest ih =>
    rw [armAll_cons, armAll_cons]
    refine (ih _).trans ?_
    rw [Trade.stretch_arm, Deadline.stretch, DeadlineSettings.duration_none, Instant.after_zero]
    rfl

theorem stretch_commit (e : Engine) (s : DeadlineSettings) (now : Instant) (t : Trade)
    (event : Event) (tr : Transition) :
    ((e.under .none).commit now t event tr).1.stretch s =
      ((e.under s).commit now (t.stretch s) event tr).1 := by
  have hcleared : (cleared now t event tr).stretch s = cleared now (t.stretch s) event tr := by
    rw [cleared, stretch_clearAll, entered, stretch_consume]
    rfl
  rw [commit_fst, commit_fst, ← hcleared]
  generalize cleared now t event tr = u
  show ((e.under .none).conclude now u tr.arm).1.stretch s = _
  rw [conclude, conclude]
  show _ = (if u.protocol.isTerminal u.state then _ else _ : Trade × List Effect).1
  split
  · rfl
  · exact stretch_armAll s now u tr.arm

theorem stretch_handle (htimeless : t.protocol.Timeless e.context) (s : DeadlineSettings)
    (now : Instant) (event : Event) :
    ((e.under .none).handle now t event).1.stretch s =
      ((e.under s).handle now (t.stretch s) event).1 := by
  have hselect : (e.under s).select (t.stretch s) event = (e.under .none).select t event :=
    select_retimed (e := e.under s) (t.retimed_stretch s) htimeless event
  unfold handle
  rw [hselect]
  cases (e.under .none).select t event with
  | error r => rfl
  | ok tr => exact e.stretch_commit s now t event tr

/-- A run under some settings is a run without lengths, stretched. -/
theorem run_stretch (htimeless : t.protocol.Timeless e.context) (s : DeadlineSettings)
    (stream : Stream) :
    ((e.under s).run (t.stretch s) stream).1 = ((e.under .none).run t stream).1.stretch s := by
  induction stream generalizing t with
  | nil => rfl
  | cons arrival rest ih =>
    obtain ⟨now, event⟩ := arrival
    have hdeal : t.SameDeal ((e.under .none).handle now t event).1 :=
      sameDeal_run (e.under .none) t [(now, event)]
    rw [run_cons, run_cons]
    show ((e.under s).run ((e.under s).handle now (t.stretch s) event).1 rest).1 = _
    rw [← stretch_handle htimeless]
    refine ih ?_
    rw [hdeal.protocol]
    exact htimeless

/-! ## Dates and lengths -/

theorem deadline?_armAll (settings : DeadlineSettings) (now : Instant) (kinds : List DeadlineKind)
    (t : Trade) (k : DeadlineKind) :
    (armAll settings now kinds t).1.deadline? k =
      if k ∈ kinds then some ⟨⟨k, t.sequence⟩, now.after (settings.duration k)⟩
      else t.deadline? k := by
  induction kinds generalizing t with
  | nil => rfl
  | cons j rest ih =>
    have harm (d : Deadline) : (t.arm d).deadline? k =
        if k = d.id.kind then some d else t.deadline? k := by
      simp [Trade.deadline?, Trade.arm, Dict.get?_insert]
    rw [armAll_cons]
    refine (ih _).trans ?_
    rw [harm]
    by_cases hk : k = j
    · subst hk
      simp [Trade.arm]
    · simp [hk, Trade.arm]

theorem effects_armAll (settings : DeadlineSettings) (now : Instant) (kinds : List DeadlineKind)
    (t : Trade) : (armAll settings now kinds t).2 =
      kinds.map fun k => .arm ⟨k, t.sequence⟩ (settings.duration k) := by
  induction kinds generalizing t with
  | nil => rfl
  | cons j rest ih =>
    rw [armAll_cons, List.map_cons]
    exact congrArg (_ :: ·) (ih _)

/-- A commit arms the kinds that its entry names, unless the trade ends with it. -/
theorem arm_mem_effects_iff {event : Event} {tr : Transition} {id : DeadlineId} {after : Duration} :
    .arm id after ∈ (e.commit now t event tr).2.effects ↔
      (cleared now t event tr).protocol.isTerminal (cleared now t event tr).state = false ∧
        id.kind ∈ tr.arm ∧ id.armedAt = (cleared now t event tr).sequence ∧
        after = e.deadlines.duration id.kind := by
  have hopening : .arm id after ∉ opening now t event tr :=
    fun h => not_arms_of_mem_opening h trivial
  rw [effects_eq_opening, List.mem_append, or_iff_right hopening, conclude]
  cases hterminal : (cleared now t event tr).protocol.isTerminal (cleared now t event tr).state with
  | true => simp
  | false =>
    rw [if_neg Bool.false_ne_true, effects_armAll, List.mem_map]
    constructor
    · rintro ⟨k, hk, heq⟩
      cases heq
      exact ⟨rfl, hk, rfl, rfl⟩
    · rintro ⟨-, hk, harmedAt, rfl⟩
      exact ⟨id.kind, hk, by rw [← harmedAt]⟩

/-- What a commit arms is armed after it, and expires a length of its kind after the date of the
commit. The effect is about the same length. -/
theorem deadline?_of_arm {t' : Trade} {event : Event} {c : Commit} {id : DeadlineId}
    {after : Duration} (hcommit : e.handle now t event = (t', .committed c))
    (harm : .arm id after ∈ c.effects) :
    after = e.deadlines.duration id.kind ∧
      t'.deadline? id.kind = some ⟨id, now.after (e.deadlines.duration id.kind)⟩ := by
  obtain ⟨tr, -, rfl, rfl⟩ := exists_commit_of_handle hcommit
  obtain ⟨hopen, hkind, harmedAt, hafter⟩ := arm_mem_effects_iff.1 harm
  rw [commit_fst, conclude, hopen, if_neg Bool.false_ne_true, deadline?_armAll, if_pos hkind,
    ← harmedAt]
  exact ⟨hafter, rfl⟩

/-- What an event arms in a trade it arms under any settings, with the length that they have for
it. The event is selected before the settings are looked at. -/
theorem deadline?_under_of_arm {t' : Trade} {event : Event} {c : Commit} {id : DeadlineId}
    {after : Duration} (hcommit : (e.under s).handle now t event = (t', .committed c))
    (harm : .arm id after ∈ c.effects) (s' : DeadlineSettings) :
    ((e.under s').handle now t event).1.deadline? id.kind =
      some ⟨id, now.after (s'.duration id.kind)⟩ := by
  obtain ⟨tr, hselect, -, rfl⟩ := exists_commit_of_handle hcommit
  obtain ⟨hopen, hkind, harmedAt, -⟩ := arm_mem_effects_iff.1 harm
  have hcommit' := handle_of_select (e := e.under s') now hselect
  rw [hcommit']
  exact (deadline?_of_arm hcommit' (arm_mem_effects_iff.2 ⟨hopen, hkind, harmedAt, rfl⟩)).2

/-- The event that has armed a deadline in a run arms it under any settings, and its length is
reckoned from the date of the event. -/
theorem ArmedOn.under {stream : Stream} {date : Instant} {d : Deadline}
    (h : (e.under s).ArmedOn t stream date d) :
    ∃ before event after, stream = before ++ (date, event) :: after ∧ ∀ s',
      ((e.under s').handle date ((e.under s).run t before).1 event).1.deadline? d.id.kind =
        some ⟨d.id, date.after (s'.duration d.id.kind)⟩ := by
  obtain ⟨before, event, after, _, _, hstream, hcommit, -, harm⟩ := h.committed
  exact ⟨before, event, after, hstream, deadline?_under_of_arm hcommit harm⟩

theorem keyed_run (hkeyed : Trade.Keyed t.deadlines) (e : Engine) (stream : Stream) :
    Trade.Keyed (e.run t stream).1.deadlines := by
  refine run_induction (P := fun t _ => Trade.Keyed t.deadlines) (h := []) ?_ hkeyed stream
  intro t₁ _ now event t₂ c hkeyed hcommit
  obtain ⟨tr, hc⟩ := exists_committed_of_handle hcommit
  exact hc.deadlines Trade.Keyed Trade.keyed_empty (fun _ k h => h.erase k)
    (fun _ d h => h.insert d) hkeyed

section Created

variable {created : Instant} {id : String} {combination : Combination} {terms : Terms}
  {counterparty : Peer}

/-- What becomes of a created trade under some settings. -/
theorem run_under (hcreate : e.create created id combination terms counterparty = .ok t)
    (htimeless : t.protocol.Timeless e.context) (s : DeadlineSettings) (stream : Stream) :
    ((e.under s).run t stream).1 = ((e.under .none).run t stream).1.stretch s := by
  have hunarmed : t.deadlines = {} := by
    obtain ⟨-, -, protocol, -, rfl⟩ := Trade.create_eq_ok_iff.1 hcreate
    rfl
  rw [← run_stretch htimeless, Trade.stretch_of_unarmed s hunarmed]

/-- How long deadlines last makes no difference to what becomes of a trade. -/
theorem run_under_retimed (hcreate : e.create created id combination terms counterparty = .ok t)
    (htimeless : t.protocol.Timeless e.context) (s s' : DeadlineSettings) (stream : Stream) :
    ((e.under s).run t stream).1.Retimed ((e.under s').run t stream).1 := by
  rw [run_under hcreate htimeless s, run_under hcreate htimeless s']
  exact Trade.retimed_stretches s s' _

/-- Every deadline that a created trade has armed was armed on a date of the run, whatever the
settings, and its length is reckoned from this date. -/
theorem exists_date_of_run
    (hcreate : e.create created id combination terms counterparty = .ok t)
    (htimeless : t.protocol.Timeless e.context) {stream : Stream} {kind : DeadlineKind} {d : Deadline}
    (hd : ((e.under s).run t stream).1.deadline? kind = some d) :
    ∃ date event, (date, event) ∈ stream ∧ ∀ s', ((e.under s').run t stream).1.deadline? kind =
      some ⟨d.id, date.after (s'.duration d.id.kind)⟩ := by
  have hrun (s : DeadlineSettings) : ((e.under s).run t stream).1.deadline? kind =
      (((e.under .none).run t stream).1.deadline? kind).map (Deadline.stretch s) := by
    rw [← Trade.deadline?_stretch, run_under hcreate htimeless]
  rw [hrun] at hd
  obtain ⟨d₀, hd₀, rfl⟩ := Option.map_eq_some_iff.1 hd
  -- without a length the deadline expires on the date on which it was armed
  have hmem : d₀ ∈ ((e.under .none).run t stream).1.deadlines.values :=
    List.mem_map.2 ⟨_, Dict.get?_eq_some_iff.1 hd₀, rfl⟩
  obtain ⟨date, harmed⟩ := exists_armedOn_of_create (e := e.under .none) hcreate hmem
  have hexpires : d₀.expiresAt = date := by
    rw [harmed.expiresAt]
    show date.after (DeadlineSettings.none.duration d₀.id.kind) = date
    rw [DeadlineSettings.duration_none, Instant.after_zero]
  obtain ⟨event, hevent⟩ := harmed.mem_stream
  refine ⟨date, event, hevent, fun s' => ?_⟩
  rw [hrun, hd₀, Option.map_some, Deadline.id_stretch, ← hexpires]
  rfl

end Created

end Engine

end PeerTrade
