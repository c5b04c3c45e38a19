import PeerTrade.Proofs.Dict
import PeerTrade.Proofs.Engine.Run
import PeerTrade.Proofs.Instant
import PeerTrade.Proofs.Trade.Origin

/-!
# The instants in a trade

A trade carries the date on which it was created and the one of its last commit, and every deadline
that it has armed expires a length of its kind after the date of the commit that armed it
(`Engine.ArmedOn`). All of them come from the readings of the clock in a run, or were there before
(`Engine.dated_run`).
-/

namespace PeerTrade

/-! ## Where armed deadlines come from -/

namespace Engine

variable {e : Engine} {t : Trade} {stream : Stream} {d : Deadline}

theorem mem_values_cleared {now : Instant} {event : Event} {tr : Transition}
    (h : d ∈ (cleared now t event tr).deadlines.values) : d ∈ t.deadlines.values := by
  -- nothing is armed before the commit concludes
  let Kept (ds : Dict DeadlineKind Deadline) : Prop :=
    ∀ d ∈ ds.values, d ∈ t.deadlines.values
  have herase : ∀ ds k, Kept ds → Kept (ds.erase k) := fun ds k hds d hd =>
    hds d (Dict.mem_values_of_erase hd)
  have hentered : Kept (entered now t event tr).deadlines :=
    deadlines_consume herase event fun _ hd => hd
  exact deadlines_clearAll herase tr.clear hentered d h

theorem of_mem_values_armAll {settings : DeadlineSettings} {now : Instant}
    {kinds : List DeadlineKind} (h : d ∈ (armAll settings now kinds t).1.deadlines.values) :
    d ∈ t.deadlines.values ∨
      (.arm d.id (settings.duration d.id.kind) ∈ (armAll settings now kinds t).2 ∧
        d.expiresAt = now.after (settings.duration d.id.kind)) := by
  induction kinds generalizing t with
  | nil => exact .inl h
  | cons k rest ih =>
    rw [armAll_cons] at h ⊢
    rcases ih h with hbefore | ⟨harm, hexpires⟩
    · rcases Dict.mem_values_insert hbefore with rfl | hold
      · exact .inr ⟨List.mem_cons_self, rfl⟩
      · exact .inl hold
    · exact .inr ⟨List.mem_cons_of_mem _ harm, hexpires⟩

/-- An armed deadline stood before the last commit, or was armed by it from its date on. -/
theorem of_mem_values_commit {now : Instant} {event : Event} {tr : Transition}
    (h : d ∈ (e.commit now t event tr).1.deadlines.values) :
    d ∈ t.deadlines.values ∨
      (.arm d.id (e.deadlines.duration d.id.kind) ∈ (e.commit now t event tr).2.effects ∧
        d.expiresAt = now.after (e.deadlines.duration d.id.kind)) := by
  rw [commit_fst] at h
  rw [commit_effects]
  unfold conclude at h ⊢
  split at h
  · cases h
  next hopen =>
    rcases of_mem_values_armAll h with hcleared | ⟨harm, hexpires⟩
    · exact .inl (mem_values_cleared hcleared)
    · rw [if_neg hopen]
      exact .inr ⟨List.mem_append_right _ harm, hexpires⟩

/-- A deadline was armed in a run by an event that was committed on a date. -/
structure ArmedOn (e : Engine) (t : Trade) (stream : Stream) (date : Instant) (d : Deadline) :
    Prop where
  committed : ∃ before event after t' c, stream = before ++ (date, event) :: after ∧
    e.handle date (e.run t before).1 event = (t', .committed c) ∧ d.id.armedAt = c.sequence ∧
    .arm d.id (e.deadlines.duration d.id.kind) ∈ c.effects
  expiresAt : d.expiresAt = date.after (e.deadlines.duration d.id.kind)

theorem ArmedOn.mem_stream {date : Instant} (h : e.ArmedOn t stream date d) :
    ∃ event, (date, event) ∈ stream := by
  obtain ⟨before, event, after, _, _, rfl, -⟩ := h.committed
  exact ⟨event, List.mem_append_right _ List.mem_cons_self⟩

theorem ArmedOn.append {date : Instant} (h : e.ArmedOn t stream date d) (later : Stream) :
    e.ArmedOn t (stream ++ later) date d := by
  obtain ⟨⟨before, event, after, t', c, rfl, hcommit⟩, hexpires⟩ := h
  exact ⟨⟨before, event, after ++ later, t', c, by simp, hcommit⟩, hexpires⟩

theorem run_concat (e : Engine) (t : Trade) (stream : Stream) (date : Instant) (event : Event) :
    (e.run t (stream ++ [(date, event)])).1 = (e.handle date (e.run t stream).1 event).1 := by
  rw [run_append]
  rfl

/-! ## The instants of a run -/

/-- What is known about the instants in a trade after a run. -/
structure Dated (e : Engine) (t : Trade) (stream : Stream) (t' : Trade) : Prop where
  createdAt : t'.createdAt = t.createdAt
  updatedAt : t'.updatedAt = t.updatedAt ∨ ∃ event, (t'.updatedAt, event) ∈ stream
  deadlines : ∀ d ∈ t'.deadlines.values, d ∈ t.deadlines.values ∨ ∃ date, e.ArmedOn t stream date d

theorem Dated.append {t' : Trade} (h : e.Dated t stream t') (later : Stream) :
    e.Dated t (stream ++ later) t' where
  createdAt := h.createdAt
  updatedAt := h.updatedAt.imp_right fun ⟨event, hevent⟩ => ⟨event, List.mem_append_left _ hevent⟩
  deadlines d hd :=
    (h.deadlines d hd).imp_right fun ⟨date, hdate⟩ => ⟨date, hdate.append later⟩

/-- A commit dates the trade and the deadlines that it arms, and no others. -/
theorem Dated.commit {date : Instant} {event : Event} {t' : Trade} {c : Commit}
    (h : e.Dated t stream (e.run t stream).1)
    (hcommit : e.handle date (e.run t stream).1 event = (t', .committed c)) :
    e.Dated t (stream ++ [(date, event)]) t' := by
  have hlast : (date, event) ∈ stream ++ [(date, event)] :=
    List.mem_append_right _ List.mem_cons_self
  obtain ⟨tr, hc⟩ := exists_committed_of_handle hcommit
  obtain ⟨_, hselect, hafter, heffects⟩ := exists_commit_of_handle hcommit
  refine ⟨?_, ?_, fun d hd => ?_⟩
  · obtain ⟨deadlines, rfl⟩ := hc.after
    exact h.createdAt
  · obtain ⟨deadlines, rfl⟩ := hc.after
    exact .inr ⟨event, hlast⟩
  · rw [hafter] at hd
    rcases of_mem_values_commit hd with hold | ⟨harm, hexpires⟩
    · exact ((h.append [(date, event)]).deadlines d hold)
    · rw [← heffects] at harm
      exact .inr ⟨date, ⟨stream, event, [], t', c, rfl, hcommit, hc.armedAt harm, harm⟩, hexpires⟩

theorem dated_run (e : Engine) (t : Trade) (stream : Stream) :
    e.Dated t stream (e.run t stream).1 := by
  -- the run grows at its end, where its last date is
  induction stream using List.reverseRecOn with
  | nil => exact ⟨rfl, .inl rfl, fun d hd => .inl hd⟩
  | append_singleton stream arrival ih =>
    obtain ⟨date, event⟩ := arrival
    rw [run_concat]
    cases hhandle : e.handle date (e.run t stream).1 event with
    | mk t' outcome =>
      cases outcome with
      | committed c => exact ih.commit hhandle
      | rejected r =>
        rw [eq_of_rejected hhandle]
        exact ih.append [(date, event)]

theorem exists_armedOn_of_create {created : Instant} {id : String} {combination : Combination}
    {terms : Terms} {counterparty : Peer}
    (hcreate : e.create created id combination terms counterparty = .ok t)
    (hd : d ∈ (e.run t stream).1.deadlines.values) : ∃ date, e.ArmedOn t stream date d := by
  obtain ⟨-, -, protocol, -, rfl⟩ := Trade.create_eq_ok_iff.1 hcreate
  rcases (dated_run e _ stream).deadlines d hd with hold | harmed
  · cases hold
  · exact harmed

end Engine

end PeerTrade
