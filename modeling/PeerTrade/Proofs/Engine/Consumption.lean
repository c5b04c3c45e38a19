import PeerTrade.Proofs.Engine.Replay

/-!
# Every event is consumed at most once

The steps of a history are numbered from one on, and a deadline carries the number of the step that
armed it. A deadline that expired can therefore not be armed again, so that it does not expire a
second time, whatever the table looks like. Messages and commands need no numbers: that each of
them was fresh when it was committed is enough.
-/

namespace PeerTrade

open DeadlineMove History

/-! ## Numbered steps -/

namespace History

/-- The deadlines that expired, in the order of the commits. -/
def timeoutIds (h : History) : List DeadlineId :=
  h.filterMap fun step =>
    match step.1 with
    | .timeout id => some id
    | .inbound _ | .command _ => none

/-- What a step arms is named after the number of the step. -/
def Numbered (before : History) (event : Event) (c : Commit) : Prop :=
  ∀ id, armed id ∈ Engine.moves event c → id.armedAt = UInt64.ofNat (before.length + 1)

/-- Every event was fresh when it was committed. -/
abbrev AllFresh (h : History) : Prop := Each (fun before event _ => Fresh before event) h

theorem timeoutIds_append (h h' : History) :
    timeoutIds (h ++ h') = timeoutIds h ++ timeoutIds h' :=
  List.filterMap_append

theorem mem_timeoutIds_iff {h : History} {id : DeadlineId} :
    id ∈ timeoutIds h ↔ ∃ before c after, h = before ++ (.timeout id, c) :: after := by
  constructor
  · intro hid
    obtain ⟨⟨event, c⟩, hstep, heq⟩ := List.mem_filterMap.1 hid
    obtain ⟨before, after, rfl⟩ := List.append_of_mem hstep
    cases event with
    | timeout id' =>
      cases heq
      exact ⟨before, c, after, rfl⟩
    | inbound _ => cases heq
    | command _ => cases heq
  · rintro ⟨before, c, after, rfl⟩
    rw [timeoutIds_append]
    exact List.mem_append_right _ List.mem_cons_self

theorem Each.of_append {P : History → Event → Commit → Prop} {h h' : History}
    (hh : Each P (h ++ h')) : Each P h :=
  fun before event c after heq => hh before event c (after ++ h') (by simp [heq])

/-- A deadline that is armed in a part of a history is named after a step in that part. -/
theorem exists_armedAt_eq {h h' : History} (hh : Each Numbered (h ++ h')) {id : DeadlineId}
    (hid : armed id ∈ deadlineMoves h') :
    ∃ n, h.length < n ∧ n ≤ h.length + h'.length ∧ id.armedAt = UInt64.ofNat n := by
  obtain ⟨⟨event, c⟩, hstep, hmove⟩ := List.mem_flatMap.1 hid
  obtain ⟨before, after, rfl⟩ := List.append_of_mem hstep
  refine ⟨(h ++ before).length + 1, ?_, ?_, ?_⟩
  · rw [List.length_append]
    omega
  · rw [List.length_append, List.length_append, List.length_cons]
    omega
  · exact hh (h ++ before) event c after (List.append_assoc ..).symm id hmove

/-- A deadline that has expired is not fresh any more. -/
theorem not_fresh_timeout_of_mem {h : History} {id : DeadlineId} (hlength : h.length < 2 ^ 64)
    (hnumbered : Each Numbered h) (hfresh : AllFresh h) (hid : id ∈ timeoutIds h) :
    ¬Fresh h (.timeout id) := by
  rintro ⟨moves, since, hmoves, huntouched⟩
  obtain ⟨before, c, after, rfl⟩ := mem_timeoutIds_iff.1 hid
  -- it had been armed before it expired
  obtain ⟨n, -, hn, harmed⟩ : ∃ n, 0 < n ∧ n ≤ before.length ∧ id.armedAt = UInt64.ofNat n := by
    obtain ⟨moves', since', hbefore, -⟩ := hfresh before (.timeout id) c after rfl
    have harm : armed id ∈ deadlineMoves before := by
      rw [hbefore]
      exact List.mem_append_right _ List.mem_cons_self
    simpa using exists_armedAt_eq (h := []) hnumbered.of_append harm
  -- since it is live now, it was armed once more after that
  have hlater : armed id ∈ deadlineMoves ((Event.timeout id, c) :: after) := by
    have hexpired : deadlineMoves ((Event.timeout id, c) :: after) =
        expired id :: (Effect.moves c.effects ++ deadlineMoves after) := rfl
    rw [deadlineMoves_append, hexpired] at hmoves
    rw [hexpired]
    rcases List.append_eq_append_iff.1 hmoves with ⟨rest, -, hrest⟩ | ⟨rest, -, hrest⟩
    · rw [hrest]
      exact List.mem_append_right _ List.mem_cons_self
    · have hmem : expired id ∈ armed id :: since := by
        rw [hrest]
        exact List.mem_append_right _ List.mem_cons_self
      rcases List.mem_cons.1 hmem with heq | hmem
      · cases heq
      · exact absurd rfl (huntouched _ hmem)
  obtain ⟨m, hm, hm', harmed'⟩ := exists_armedAt_eq hnumbered hlater
  -- one name would stand for two different steps
  rw [List.length_append] at hlength
  have hnm : n = m := by
    have heq : (UInt64.ofNat n).toNat = (UInt64.ofNat m).toNat := by rw [← harmed, ← harmed']
    rwa [UInt64.toNat_ofNat', UInt64.toNat_ofNat', Nat.mod_eq_of_lt (by omega),
      Nat.mod_eq_of_lt (by omega)] at heq
  omega

/-! ## Histories of fresh events -/

/-- What it means for a history that every event is consumed at most once. -/
structure ConsumedOnce (h : History) : Prop where
  /-- Messages come in ascending order of their sequences. -/
  messages : (messageSequences h).Pairwise (· < ·)
  /-- No deadline expires twice. -/
  timeouts : (timeoutIds h).Nodup
  /-- A deadline that expires was the last of its kind to be armed, and nothing has happened to
  that kind since. -/
  live : ∀ before id c after, h = before ++ (.timeout id, c) :: after →
    ∃ moves since, deadlineMoves before = moves ++ armed id :: since ∧
      ∀ m ∈ since, m.kind ≠ id.kind
  /-- There are at least 64 further commands between two of one id. -/
  commands : ∀ xs id ys zs, commandIds h = xs ++ id :: (ys ++ id :: zs) → 64 ≤ ys.length

theorem pairwise_messageSequences {h : History} (hfresh : AllFresh h) :
    (messageSequences h).Pairwise (· < ·) := by
  induction h using List.reverseRecOn with
  | nil => exact .nil
  | append_singleton rest step ih =>
    obtain ⟨hrest, hlast⟩ := hfresh.of_concat
    obtain ⟨event, c⟩ := step
    rw [messageSequences_append]
    -- only a message adds to the list, and it is greater than all others
    cases event with
    | inbound m =>
      refine List.pairwise_append.2 ⟨ih hrest, List.pairwise_singleton _ _, fun n hn k hk => ?_⟩
      rw [List.mem_singleton.1 hk]
      exact hlast.2 n hn
    | command cmd => simpa [messageSequences] using ih hrest
    | timeout id => simpa [messageSequences] using ih hrest

theorem nodup_timeoutIds {h : History} (hlength : h.length < 2 ^ 64)
    (hnumbered : Each Numbered h) (hfresh : AllFresh h) : (timeoutIds h).Nodup := by
  induction h using List.reverseRecOn with
  | nil => exact .nil
  | append_singleton rest step ih =>
    obtain ⟨hrest, hlast⟩ := hfresh.of_concat
    obtain ⟨event, c⟩ := step
    rw [List.length_append, List.length_singleton] at hlength
    have hrestLength : rest.length < 2 ^ 64 := by omega
    have hnodup := ih hrestLength hnumbered.of_append hrest
    rw [timeoutIds_append]
    -- a deadline that had expired before would not have been fresh
    cases event with
    | timeout id =>
      refine List.nodup_append.2 ⟨hnodup, List.pairwise_singleton _ _, fun id' hid' k hk => ?_⟩
      rw [List.mem_singleton.1 hk]
      rintro rfl
      exact not_fresh_timeout_of_mem hrestLength hnumbered.of_append hrest hid' hlast
    | inbound m => simpa [timeoutIds] using hnodup
    | command cmd => simpa [timeoutIds] using hnodup

theorem le_length_of_not_mem_recentCommandIds {h : History} {xs ys : List String} {id : String}
    (hids : commandIds h = xs ++ id :: ys) (hrecent : id ∉ recentCommandIds h) :
    64 ≤ ys.length := by
  -- otherwise the id would still be in the window
  by_contra hshort
  apply hrecent
  have hskip : (commandIds h).length - Trade.window ≤ xs.length := by
    rw [hids, List.length_append, List.length_cons, Trade.window]
    omega
  rw [recentCommandIds, hids, List.drop_append_of_le_length (by rwa [hids] at hskip)]
  exact List.mem_append_right _ List.mem_cons_self

theorem le_length_between_commands {h : History} (hfresh : AllFresh h) {id : String}
    {xs ys zs : List String} (hids : commandIds h = xs ++ id :: (ys ++ id :: zs)) :
    64 ≤ ys.length := by
  rw [show xs ++ id :: (ys ++ id :: zs) = (xs ++ id :: ys) ++ id :: zs by simp] at hids
  -- the second of the two commands was fresh behind everything in front of it
  obtain ⟨before, rest, rfl, hbefore, hrest⟩ := List.filterMap_eq_append_iff.1 hids
  obtain ⟨between, ⟨event, c⟩, after, rfl, hbetween, hevent, -⟩ :=
    List.filterMap_eq_cons_iff.1 hrest
  cases event with
  | command cmd =>
    have hid : cmd.id = id := Option.some.inj hevent
    have hlast := hfresh (before ++ between) (.command cmd) c after (by simp)
    have hnone : commandIds between = [] := List.filterMap_eq_nil_iff.2 hbetween
    have hbetweenIds : commandIds (before ++ between) = xs ++ id :: ys := by
      rw [commandIds_append, hnone, List.append_nil]
      exact hbefore
    apply le_length_of_not_mem_recentCommandIds hbetweenIds
    rwa [← hid]
  | inbound m => cases hevent
  | timeout id' => cases hevent

end History

namespace Engine

variable {e : Engine} {t t' : Trade} {now : Instant} {event : Event} {c : Commit} {h : History}

/-! ## Runs -/

/-- What holds of a trade and of its history at any time. -/
structure Recorded (t : Trade) (h : History) : Prop where
  remembers : Remembers t h
  sequence : t.sequence = UInt64.ofNat h.length
  fresh : AllFresh h
  numbered : Each Numbered h

theorem recorded_initial (id : String) (combination : Combination) (terms : Terms)
    (counterparty : Peer) (protocol : Protocol) :
    Recorded (.initial now id combination terms counterparty protocol) [] where
  remembers := remembers_initial ..
  sequence := rfl
  fresh := each_nil _
  numbered := each_nil _

theorem Recorded.commit (hr : Recorded t h)
    (hcommit : e.handle now t event = (t', .committed c)) :
    Recorded t' (h ++ [(event, c)]) := by
  obtain ⟨tr, hc⟩ := exists_committed_of_handle hcommit
  obtain ⟨deadlines, hafter⟩ := hc.after
  have hnext : c.sequence = UInt64.ofNat (h.length + 1) := by
    rw [hc.sequence, hr.sequence, UInt64.ofNat_add]
    rfl
  -- the sequence counts the commits, so the commit carries the number of its step
  refine ⟨hr.remembers.commit hcommit, ?_, hr.fresh.concat ?_, hr.numbered.concat ?_⟩
  · rw [hafter, List.length_append, List.length_singleton, UInt64.ofNat_add, ← hr.sequence]
    rfl
  · exact (hr.remembers.checkReplay_eq_ok_iff event).1 hc.replay
  · intro id hid
    rw [← hnext]
    exact hc.armedAt_of_move hid

theorem recorded_run {registry : Registry} {created : Instant} {id : String}
    {combination : Combination} {terms : Terms} {counterparty : Peer}
    (hcreate : Trade.create registry created id combination terms counterparty = .ok t)
    (e : Engine) (stream : Stream) : Recorded (e.run t stream).1 (e.history t stream) := by
  obtain ⟨-, -, protocol, -, rfl⟩ := Trade.create_eq_ok_iff.1 hcreate
  exact run_induction (h := []) (fun t h now event t' c hr hcommit => hr.commit hcommit)
    (recorded_initial ..) stream

theorem Recorded.consumedOnce (hr : Recorded t h) (hlength : h.length < 2 ^ 64) :
    ConsumedOnce h where
  messages := pairwise_messageSequences hr.fresh
  timeouts := nodup_timeoutIds hlength hr.numbered hr.fresh
  live before id c after heq := hr.fresh before (.timeout id) c after heq
  commands _ _ _ _ hids := le_length_between_commands hr.fresh hids

/-- Every event is consumed at most once, under any table and in any stream. Whether an event is
let through depends on the committed events alone, and a rejected event is as if it had not come. -/
theorem events_consumed_at_most_once {registry : Registry} {created : Instant} {id : String}
    {combination : Combination} {terms : Terms} {counterparty : Peer}
    (hcreate : Trade.create registry created id combination terms counterparty = .ok t)
    (e : Engine) (stream : Stream) (hlength : (e.history t stream).length < 2 ^ 64) :
    ConsumedOnce (e.history t stream) ∧
      (∀ event, checkReplay (e.run t stream).1 event = .ok () ↔
        Fresh (e.history t stream) event) ∧
      ∀ now event r rest, (e.handle now (e.run t stream).1 event).2 = .rejected r →
        (e.run t (stream ++ (now, event) :: rest)).1 = (e.run t (stream ++ rest)).1 ∧
          e.history t (stream ++ (now, event) :: rest) = e.history t (stream ++ rest) := by
  have hr : Recorded (e.run t stream).1 (e.history t stream) := recorded_run hcreate e stream
  refine ⟨hr.consumedOnce hlength, hr.remembers.checkReplay_eq_ok_iff, ?_⟩
  intro now event r rest hrejected
  obtain ⟨hfinal, -, hhistory⟩ := run_of_rejected rest hrejected
  exact ⟨hfinal, hhistory⟩

/-- A table with one state, in which the same deadline is armed again whenever it expires. -/
def roundabout : Protocol := Standard.tableOf .buyerAsTaker .reputationFiat [
  { states := [.init]
    event := .command .takeOffer
    transition := { target := .init, arm := [.deposit] } },
  { states := [.init]
    event := .timeout .deposit
    transition := { target := .init, arm := [.deposit] } }]

/-- A command, its repetition, a deadline, its repetition, and the deadline that replaced it. -/
def repetitions : Stream :=
  let command := Event.command ⟨"c", .takeOffer, [], []⟩
  [(.epoch, command), (.epoch, command), (.epoch, .timeout ⟨.deposit, 1⟩),
    (.epoch, .timeout ⟨.deposit, 1⟩), (.epoch, .timeout ⟨.deposit, 2⟩)]

theorem repetitions_consumed_once :
    ∃ registry t, ∃ e : Engine,
      Trade.create registry .epoch "trade_1" roundabout.combination Trade.soundTerms ⟨"maker"⟩ =
        .ok t ∧
      (e.history t repetitions).length = 3 ∧ ConsumedOnce (e.history t repetitions) := by
  -- the second command and the second expiry are the two that are rejected
  let registry : Registry := { tables := Dict.empty.insert roundabout.combination roundabout }
  let e : Engine := { registry, verifier := { accepts := fun _ _ _ => true } }
  let t : Trade := .initial .epoch "trade_1" roundabout.combination Trade.soundTerms ⟨"maker"⟩
    roundabout
  have hcreate : Trade.create registry .epoch "trade_1" roundabout.combination Trade.soundTerms
      ⟨"maker"⟩ = .ok t := Trade.create_soundTerms rfl rfl
  have hlength : (e.history t repetitions).length = 3 := by rfl
  exact ⟨registry, t, e, hcreate, hlength,
    (events_consumed_at_most_once hcreate e repetitions (by rw [hlength]; decide)).1⟩

end Engine

end PeerTrade
