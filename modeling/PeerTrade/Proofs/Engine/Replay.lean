import PeerTrade.Proofs.Engine.Run
import PeerTrade.Proofs.Trade.Origin

/-!
# Every event is consumed at most once

A trade keeps three things against repetitions: the greatest sequence of a message it acted upon,
the ids of the last commands, and the armed deadlines. The history of a run says which events are
still `Fresh`, without looking at the trade. The two agree after every run
(`Engine.checkReplay_eq_ok_iff_fresh`), so each committed event was fresh when it came, and whatever
a rejected event brought stays as fresh as it was.
-/

namespace PeerTrade

open DeadlineMove Checks

namespace History

/-! ## What a history says -/

/-- The sequences of the committed messages, in the order of the commits. -/
def messageSequences (h : History) : List UInt64 :=
  h.filterMap fun step =>
    match step.1 with
    | .inbound m => some m.sequence
    | .command _ | .timeout _ => none

/-- The ids of the committed commands, in the order of the commits. -/
def commandIds (h : History) : List String :=
  h.filterMap fun step =>
    match step.1 with
    | .command c => some c.id
    | .inbound _ | .timeout _ => none

/-- The ids of the last committed commands, as many as a trade remembers. -/
def recentCommandIds (h : History) : List String :=
  (commandIds h).drop ((commandIds h).length - Trade.window)

/-- Everything that happened to the deadlines, in order. -/
def deadlineMoves (h : History) : List DeadlineMove :=
  h.flatMap fun step => Engine.moves step.1 step.2

/-- An event that brings something new to a trade with a given history: a message with a greater
sequence than every one before it, a command that is not among the last ones, or the deadline
that was the last of its kind to be armed and has not been touched since. -/
def Fresh (h : History) : Event → Prop
  | .inbound m => 0 < m.sequence ∧ ∀ n ∈ messageSequences h, n < m.sequence
  | .command c => c.id ∉ recentCommandIds h
  | .timeout id => ∃ before since, deadlineMoves h = before ++ armed id :: since ∧
      ∀ m ∈ since, m.kind ≠ id.kind

/-- A property of each step of a history and of what was in front of it. -/
def Each (P : History → Event → Commit → Prop) (h : History) : Prop :=
  ∀ before event c after, h = before ++ (event, c) :: after → P before event c

theorem messageSequences_append (h h' : History) :
    messageSequences (h ++ h') = messageSequences h ++ messageSequences h' :=
  List.filterMap_append

theorem commandIds_append (h h' : History) :
    commandIds (h ++ h') = commandIds h ++ commandIds h' :=
  List.filterMap_append

theorem deadlineMoves_append (h h' : History) :
    deadlineMoves (h ++ h') = deadlineMoves h ++ deadlineMoves h' :=
  List.flatMap_append

theorem deadlineMoves_singleton (event : Event) (c : Commit) :
    deadlineMoves [(event, c)] = Engine.moves event c :=
  List.append_nil _

theorem drop_window_append {α : Type} (l : List α) (a : α) {n : Nat} (hn : 0 < n) :
    (l.drop (l.length - n) ++ [a]).drop ((l.drop (l.length - n) ++ [a]).length - n) =
      (l ++ [a]).drop ((l ++ [a]).length - n) := by
  have hkept : (l.drop (l.length - n)).length = l.length - (l.length - n) := List.length_drop
  -- neither window reaches beyond the new last member
  rw [List.length_append, List.length_append, List.length_singleton, hkept,
    List.drop_append_of_le_length (by omega), List.drop_append_of_le_length (by omega),
    List.drop_drop]
  congr 2
  omega

theorem each_nil (P : History → Event → Commit → Prop) : Each P [] := by
  intro before event c after h
  exact absurd h.symm (by simp)

theorem Each.concat {P : History → Event → Commit → Prop} {h : History} {event : Event}
    {c : Commit} (hh : Each P h) (hlast : P h event c) : Each P (h ++ [(event, c)]) := by
  intro before event' c' after heq
  -- the step is either the last one or stands in the part in front of it
  rcases List.eq_nil_or_concat after with rfl | ⟨after', last, rfl⟩
  · obtain ⟨rfl, hstep⟩ := List.append_inj' heq rfl
    cases hstep
    exact hlast
  · rw [List.concat_eq_append, ← List.cons_append, ← List.append_assoc] at heq
    obtain ⟨rfl, -⟩ := List.append_inj' heq rfl
    exact hh before event' c' after' rfl

theorem Each.of_concat {P : History → Event → Commit → Prop} {h : History}
    {step : Event × Commit} (hh : Each P (h ++ [step])) : Each P h ∧ P h step.1 step.2 :=
  ⟨fun before event c after heq => hh before event c (after ++ [step]) (by simp [heq]),
    hh h step.1 step.2 [] rfl⟩

end History

open History

namespace Engine

variable {e : Engine} {t t' : Trade} {now : Instant} {event : Event} {c : Commit} {h : History}

/-! ## What a trade remembers of its history -/

/-- The expiry of a deadline is no repetition as long as it is the one that is armed. -/
theorem checkReplay_timeout_eq_ok_iff {id : DeadlineId} :
    checkReplay t (.timeout id) = .ok () ↔ t.liveId? id.kind = some id := by
  have hlive : (t.deadline? id.kind).any (·.id == id) = true ↔ t.liveId? id.kind = some id := by
    rw [Trade.liveId?]
    cases t.deadline? id.kind <;> simp
  rw [checkReplay, ite_else_error_eq_ok_iff, and_iff_left rfl, hlive]

/-- A trade knows of its history what it needs to tell repetitions. -/
structure Remembers (t : Trade) (h : History) : Prop where
  peerSequence : ∀ n, t.lastPeerSequence < n ↔ 0 < n ∧ ∀ k ∈ messageSequences h, k < n
  consumed : t.consumed = recentCommandIds h
  live : ∀ k, t.liveId? k = liveAfter k none (deadlineMoves h)

theorem Remembers.checkReplay_eq_ok_iff (hr : Remembers t h) (event : Event) :
    checkReplay t event = .ok () ↔ Fresh h event := by
  cases event with
  | inbound m =>
    rw [checkReplay, ite_error_eq_ok_iff, and_iff_left rfl, UInt64.not_le, hr.peerSequence]
    rfl
  | command cmd =>
    -- the trade remembers exactly the last commands
    rw [checkReplay, ite_error_eq_ok_iff, and_iff_left rfl, Trade.hasConsumed,
      List.contains_iff_mem, hr.consumed]
    rfl
  | timeout id =>
    -- the deadline is armed exactly if its arming was the last move of its kind
    rw [checkReplay_timeout_eq_ok_iff, hr.live, liveAfter_none_eq_some_iff, and_iff_right rfl]
    rfl

theorem remembers_initial (id : String) (combination : Combination) (terms : Terms)
    (counterparty : Peer) (protocol : Protocol) :
    Remembers (.initial now id combination terms counterparty protocol) [] where
  peerSequence n := by simp [Trade.initial, messageSequences]
  consumed := rfl
  live _ := rfl

/-- A commit adds its event to what the trade remembers. -/
theorem Remembers.commit (hr : Remembers t h)
    (hcommit : e.handle now t event = (t', .committed c)) :
    Remembers t' (h ++ [(event, c)]) := by
  obtain ⟨tr, hc⟩ := exists_committed_of_handle hcommit
  obtain ⟨deadlines, hafter⟩ := hc.after
  have hfresh : Fresh h event := (hr.checkReplay_eq_ok_iff event).1 hc.replay
  constructor
  · intro n
    rw [hafter, messageSequences_append]
    cases event with
    | inbound m =>
      -- the new sequence is above all earlier ones, so that it alone decides
      obtain ⟨hpos, hgreater⟩ := hfresh
      show m.sequence < n ↔ 0 < n ∧ ∀ k ∈ messageSequences h ++ [m.sequence], k < n
      constructor
      · intro hn
        refine ⟨UInt64.lt_trans hpos hn, fun k hk => ?_⟩
        rcases List.mem_append.1 hk with hk | hk
        · exact UInt64.lt_trans (hgreater k hk) hn
        · rwa [List.mem_singleton.1 hk]
      · rintro ⟨-, hall⟩
        exact hall m.sequence (List.mem_append_right _ List.mem_cons_self)
    | command cmd =>
      rw [show messageSequences [(Event.command cmd, c)] = [] from rfl, List.append_nil]
      exact hr.peerSequence n
    | timeout id =>
      rw [show messageSequences [(Event.timeout id, c)] = [] from rfl, List.append_nil]
      exact hr.peerSequence n
  · rw [hafter, recentCommandIds, commandIds_append]
    cases event with
    | command cmd =>
      have hwindow : 0 < Trade.window := by decide
      rw [show commandIds [(Event.command cmd, c)] = [cmd.id] from rfl,
        ← drop_window_append _ _ hwindow]
      show (t.consumed ++ [cmd.id]).drop ((t.consumed ++ [cmd.id]).length - Trade.window) = _
      rw [hr.consumed, recentCommandIds]
    | inbound m =>
      rw [show commandIds [(Event.inbound m, c)] = [] from rfl, List.append_nil]
      exact hr.consumed
    | timeout id =>
      rw [show commandIds [(Event.timeout id, c)] = [] from rfl, List.append_nil]
      exact hr.consumed
  · intro k
    rw [hc.moves, hr.live, deadlineMoves_append, deadlineMoves_singleton, liveAfter_append]

end Engine

end PeerTrade
