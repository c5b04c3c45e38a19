import Mathlib.Algebra.Group.Nat.Defs
import PeerTrade.Proofs.Engine.Step

/-!
# Runs of the engine

A run handles a stream of events, each at an instant of its own. Its history lists the events that
were committed, each with its commit, oldest first; rejected events leave no trace in it. What
every commit keeps is kept by every run (`Engine.run_induction`), and a rejected event can be taken
out of the stream without changing anything else (`Engine.run_of_rejected`).
-/

namespace PeerTrade

/-- Events in the order of their arrival, each with the instant at which it is handled. -/
abbrev Stream := List (Instant × Event)

/-- The committed events of a run with their commits, oldest first. -/
abbrev History := List (Event × Commit)

/-- The commit that an event came to, if it was not rejected. -/
def Outcome.commit? : Outcome → Option Commit
  | committed c => some c
  | rejected _ => none

namespace Engine

/-- Handles the events of a stream one after the other. -/
def run (e : Engine) (t : Trade) : Stream → Trade × List Outcome
  | [] => (t, [])
  | (now, event) :: rest =>
    let (t, outcome) := e.handle now t event
    let (t, outcomes) := e.run t rest
    (t, outcome :: outcomes)

/-- The history of a run: the events with their outcomes, without the rejected ones. -/
def history (e : Engine) (t : Trade) (stream : Stream) : History :=
  ((stream.map (·.2)).zip (e.run t stream).2).filterMap fun (event, outcome) =>
    outcome.commit?.map fun c => (event, c)

variable {e : Engine} {now : Instant} {t t' : Trade} {event : Event} {c : Commit}

/-! ## One event more -/

theorem run_cons (e : Engine) (t : Trade) (now : Instant) (event : Event) (rest : Stream) :
    e.run t ((now, event) :: rest) =
      ((e.run (e.handle now t event).1 rest).1,
        (e.handle now t event).2 :: (e.run (e.handle now t event).1 rest).2) := rfl

theorem length_run_snd (e : Engine) (t : Trade) (stream : Stream) :
    (e.run t stream).2.length = stream.length := by
  induction stream generalizing t with
  | nil => rfl
  | cons arrival rest ih =>
    obtain ⟨now, event⟩ := arrival
    rw [run_cons, List.length_cons, List.length_cons, ih]

theorem history_cons_of_committed (h : e.handle now t event = (t', .committed c))
    (rest : Stream) :
    e.history t ((now, event) :: rest) = (event, c) :: e.history t' rest := by
  rw [history, run_cons, h]
  rfl

theorem history_cons_of_rejected {r : Rejection} (h : e.handle now t event = (t', .rejected r))
    (rest : Stream) : e.history t ((now, event) :: rest) = e.history t' rest := by
  rw [history, run_cons, h]
  rfl

/-! ## Streams in sequence -/

theorem run_append (e : Engine) (t : Trade) (xs ys : Stream) :
    e.run t (xs ++ ys) =
      ((e.run (e.run t xs).1 ys).1, (e.run t xs).2 ++ (e.run (e.run t xs).1 ys).2) := by
  induction xs generalizing t with
  | nil => rfl
  | cons arrival rest ih =>
    obtain ⟨now, event⟩ := arrival
    rw [List.cons_append, run_cons, run_cons, ih]
    rfl

theorem history_append (e : Engine) (t : Trade) (xs ys : Stream) :
    e.history t (xs ++ ys) = e.history t xs ++ e.history (e.run t xs).1 ys := by
  rw [history, run_append, List.map_append, List.zip_append, List.filterMap_append]
  · rfl
  · rw [List.length_map, length_run_snd]

/-! ## Invariants -/

/-- What every commit keeps, with the commit added to the history, is kept by every run. -/
theorem run_induction {P : Trade → History → Prop}
    (step : ∀ t h now event t' c, P t h → e.handle now t event = (t', .committed c) →
      P t' (h ++ [(event, c)]))
    {h : History} (start : P t h) (stream : Stream) :
    P (e.run t stream).1 (h ++ e.history t stream) := by
  -- the history in front of the stream grows with every commit
  induction stream generalizing t h with
  | nil =>
    rw [show e.history t [] = [] from rfl, List.append_nil]
    exact start
  | cons arrival rest ih =>
    obtain ⟨now, event⟩ := arrival
    cases hhandle : e.handle now t event with
    | mk t' outcome =>
      cases outcome with
      | committed c =>
        have hnext := ih (step t h now event t' c start hhandle)
        rw [history_cons_of_committed hhandle, run_cons, hhandle]
        simpa using hnext
      | rejected r =>
        -- the trade is the one before the event, and so is the history
        obtain rfl := eq_of_rejected hhandle
        rw [history_cons_of_rejected hhandle, run_cons, hhandle]
        exact ih start

theorem run_id (e : Engine) (t : Trade) (stream : Stream) : (e.run t stream).1.id = t.id := by
  refine run_induction (P := fun t' _ => t'.id = t.id) (h := []) ?_ rfl stream
  intro t₁ h now event t₂ c hid hcommit
  obtain ⟨tr, hc⟩ := exists_committed_of_handle hcommit
  obtain ⟨deadlines, rfl⟩ := hc.after
  exact hid

/-- The sequence of a trade counts its commits. -/
theorem run_sequence (e : Engine) (t : Trade) (stream : Stream) :
    (e.run t stream).1.sequence = t.sequence + .ofNat (e.history t stream).length := by
  refine run_induction (P := fun t' h => t'.sequence = t.sequence + .ofNat h.length) (h := []) ?_
    (by simp) stream
  intro t₁ h now event t₂ c hsequence hcommit
  obtain ⟨tr, hc⟩ := exists_committed_of_handle hcommit
  obtain ⟨deadlines, rfl⟩ := hc.after
  show t₁.sequence + 1 = _
  rw [hsequence, List.length_append, List.length_singleton, UInt64.ofNat_add, UInt64.add_assoc]
  rfl

/-- As long as the sequence does not wrap around, it does not go back. -/
theorem sequence_le_run (e : Engine) (t : Trade) (xs ys : Stream)
    (hfits : t.sequence.toNat + (e.history t (xs ++ ys)).length < 2 ^ 64) :
    (e.run t xs).1.sequence ≤ (e.run t (xs ++ ys)).1.sequence := by
  have hlength : (e.history t xs).length ≤ (e.history t (xs ++ ys)).length := by
    rw [history_append, List.length_append]
    exact Nat.le_add_right _ _
  rw [run_sequence, run_sequence, UInt64.le_iff_toNat_le, UInt64.toNat_add, UInt64.toNat_add,
    UInt64.toNat_ofNat', UInt64.toNat_ofNat']
  omega

/-- A rejected event can be taken out of a stream: the final trade stays the same, and so do the
outcomes of all other events and with them the history. -/
theorem run_of_rejected {before : Stream} (after : Stream) {r : Rejection}
    (h : (e.handle now (e.run t before).1 event).2 = .rejected r) :
    (e.run t (before ++ (now, event) :: after)).1 = (e.run t (before ++ after)).1 ∧
      (e.run t (before ++ (now, event) :: after)).2 =
        (e.run t before).2 ++ .rejected r :: (e.run (e.run t before).1 after).2 ∧
      e.history t (before ++ (now, event) :: after) = e.history t (before ++ after) := by
  have hsame : (e.handle now (e.run t before).1 event).1 = (e.run t before).1 :=
    handle_fst_of_rejected h
  -- what comes behind the event starts from the same trade
  refine ⟨?_, ?_, ?_⟩
  · rw [run_append, run_append, run_cons, hsame]
  · rw [run_append, run_cons, h, hsame]
  · rw [history_append, history_append, history_cons_of_rejected (Prod.ext hsame h)]

end Engine

end PeerTrade
