import Mathlib.Data.List.Forall2
import PeerTrade.Proofs.Engine.Guards
import PeerTrade.Proofs.Engine.Run

/-!
# Milestones

A route through a transition table lists the events that a trade has to commit on its way, and says
for each state how many of them lie behind a trade that is in it. Whether a table keeps to a route
is decided entry by entry (`Route.Fits`); if it does, then the history of every run contains the
milestones of the state it ends in, in their order (`Route.contains_run`).
-/

namespace PeerTrade

/-! ## Milestones -/

/-- What a milestone asks of an event besides its kind. -/
inductive Demand where
  /-- The payload commits to the trade's own terms. -/
  | ownTerms
  /-- The payload is not empty. -/
  | payload
  /-- The signature is not empty. -/
  | signature
  /-- The verifier accepts the signature. -/
  | verified
  deriving DecidableEq, Repr

/-- An event of a kind that fulfils some demands. -/
structure Milestone where
  event : EventKind
  demands : List Demand := []
  deriving DecidableEq, Repr

def Demand.Met (verifier : Verifier) (t : Trade) : Demand → Event → Prop
  | ownTerms, .inbound m => m.payload = Bytes.ofText t.termsFingerprint
  | payload, .inbound m => m.payload ≠ []
  | payload, .command c => c.payload ≠ []
  | signature, .command c => c.signature ≠ []
  | verified, .inbound m => verifier.accepts m.sender m.payload m.signature = true
  | _, _ => False

/-- An event reaches a milestone. -/
structure Milestone.Met (verifier : Verifier) (t : Trade) (m : Milestone) (event : Event) :
    Prop where
  kind : event.kind = m.event
  authentic : event.Authentic t
  demands : ∀ d ∈ m.demands, d.Met verifier t event

/-! ## What the guards of an entry grant -/

/-- The guard that grants a demand for a kind of event. -/
def Demand.guard : EventKind → Demand → Guard
  | _, ownTerms => .termsMatch
  | .message _, payload => .messagePayload
  | .command _, payload | .timeout _, payload => .commandPayload
  | _, signature => .commandSigned
  | _, verified => .signature

theorem Demand.met_of_check {context : GuardContext} {t : Trade} {event : Event} {d : Demand}
    (h : (d.guard event.kind).check context t event = .ok ()) : d.Met context.verifier t event := by
  -- a guard on messages refuses every other event, and a guard on commands likewise
  cases d <;> cases event <;>
    simp_all [guard, Event.kind, Guard.check, Guard.onMessage, Guard.onCommand, Met]

/-- A guard that holds of no event in a state. -/
def Guard.Bars (state : State) : Guard → Prop
  | depositConfirmed => isDepositConfirmed state = false
  | fiatReceiptConfirmed => state ≠ .fiatReceiptConfirmed
  | _ => False

instance (state : State) : DecidablePred (Guard.Bars state) := fun g => by
  cases g <;> unfold Guard.Bars <;> infer_instance

theorem Guard.not_bars_of_check {context : GuardContext} {t : Trade} {event : Event} {g : Guard}
    (h : g.check context t event = .ok ()) : ¬g.Bars t.state := by
  cases g with
  | depositConfirmed => simpa [Bars, check] using h
  | fiatReceiptConfirmed => simpa [Bars, check] using h
  | _ => exact fun hbars => hbars

/-! ## Routes -/

/-- Milestones in their order, and how many of them lie behind a trade in a state. -/
structure Route where
  milestones : List Milestone
  stage : State → Nat

namespace Route

/-- An entry grants a milestone to every event that passes its guards. -/
def Grants (m : Milestone) (e : Trigger × Transition) : Prop :=
  m.event = e.1.event ∧ (e.1.event.isMessage = true → .envelope ∈ e.2.guards) ∧
    ∀ d ∈ m.demands, d.guard e.1.event ∈ e.2.guards

/-- Every entry that any event can pass leads to the next milestone at most, and grants it. -/
def Fits (r : Route) (p : Protocol) : Prop :=
  r.stage p.initial = 0 ∧ ∀ e ∈ p.table.entries,
    (∃ g ∈ e.2.guards, g.Bars e.1.state) ∨ r.stage e.2.target ≤ r.stage e.1.state ∨
      (r.stage e.2.target = r.stage e.1.state + 1 ∧
        ∃ m ∈ r.milestones, r.milestones[r.stage e.1.state]? = some m ∧ Grants m e)

instance (m : Milestone) (e : Trigger × Transition) : Decidable (Grants m e) :=
  inferInstanceAs (Decidable (_ ∧ _))

instance (r : Route) (p : Protocol) : Decidable (r.Fits p) :=
  inferInstanceAs (Decidable (_ ∧ _))

/-- The milestones that lie behind a trade in a state. -/
def behind (r : Route) (state : State) : List Milestone := r.milestones.take (r.stage state)

end Route

/-! ## Milestones in a history -/

section Contains

variable {α β : Type} {R : α → β → Prop} {xs : List α} {ys : List β}

theorem sublistForall₂_append_right (h : xs.SublistForall₂ R ys) (zs : List β) :
    xs.SublistForall₂ R (ys ++ zs) := by
  obtain ⟨picked, hpicked, hsub⟩ := List.sublistForall₂_iff.1 h
  exact List.sublistForall₂_iff.2 ⟨picked, hpicked, hsub.trans (List.sublist_append_left ys zs)⟩

theorem sublistForall₂_concat (h : xs.SublistForall₂ R ys) {a : α} {b : β} (hab : R a b) :
    (xs ++ [a]).SublistForall₂ R (ys ++ [b]) := by
  obtain ⟨picked, hpicked, hsub⟩ := List.sublistForall₂_iff.1 h
  refine List.sublistForall₂_iff.2 ⟨picked ++ [b], ?_, hsub.append (List.Sublist.refl [b])⟩
  exact List.rel_append hpicked (.cons hab .nil)

theorem sublistForall₂_take (h : xs.SublistForall₂ R ys) (n : Nat) :
    (xs.take n).SublistForall₂ R ys := by
  obtain ⟨picked, hpicked, hsub⟩ := List.sublistForall₂_iff.1 h
  exact List.sublistForall₂_iff.2
    ⟨picked.take n, List.forall₂_take n hpicked, (List.take_sublist n picked).trans hsub⟩

end Contains

/-- What no event changes about a trade. -/
structure Trade.SameDeal (t t' : Trade) : Prop where
  protocol : t'.protocol = t.protocol
  id : t'.id = t.id
  counterparty : t'.counterparty = t.counterparty
  termsFingerprint : t'.termsFingerprint = t.termsFingerprint

theorem Trade.SameDeal.refl (t : Trade) : t.SameDeal t := ⟨rfl, rfl, rfl, rfl⟩

theorem Trade.SameDeal.trans {t t' t'' : Trade} (h : t.SameDeal t') (h' : t'.SameDeal t'') :
    t.SameDeal t'' :=
  ⟨h'.protocol.trans h.protocol, h'.id.trans h.id, h'.counterparty.trans h.counterparty,
    h'.termsFingerprint.trans h.termsFingerprint⟩

namespace Engine

variable {e : Engine} {now : Instant} {t t' : Trade} {event : Event} {c : Commit} {r : Route}

theorem sameDeal_of_committed (h : e.handle now t event = (t', .committed c)) :
    t.SameDeal t' := by
  obtain ⟨tr, hc⟩ := exists_committed_of_handle h
  obtain ⟨deadlines, rfl⟩ := hc.after
  exact ⟨rfl, rfl, rfl, rfl⟩

theorem sameDeal_run (e : Engine) (t : Trade) (stream : Stream) : t.SameDeal (e.run t stream).1 :=
  run_induction (P := fun t' _ => t.SameDeal t') (h := [])
    (fun _ _ _ _ _ _ hdeal hcommit => hdeal.trans (sameDeal_of_committed hcommit)) (.refl t) stream

/-- What every commit to a trade of the same deal keeps is kept by every run. -/
theorem run_induction_deal {P : Trade → History → Prop}
    (step : ∀ u h now event u' c, t.SameDeal u → P u h → e.handle now u event = (u', .committed c) →
      P u' (h ++ [(event, c)]))
    (start : P t []) (stream : Stream) : P (e.run t stream).1 (e.history t stream) := by
  refine (run_induction (P := fun u h => t.SameDeal u ∧ P u h) (h := []) ?_ ⟨.refl t, start⟩ stream).2
  rintro u h now event u' c ⟨hdeal, hu⟩ hcommit
  exact ⟨hdeal.trans (sameDeal_of_committed hcommit), step u h now event u' c hdeal hu hcommit⟩

/-- What a commit sends is what the entry calls for, under the deal of the trade. -/
theorem composed_of_committed {tr : Transition} (h : e.handle now t event = (t', .committed c))
    (hentry : t.protocol.lookup t.state event.kind = some tr) :
    ∃ u, t.SameDeal u ∧ u.sequence = t'.sequence ∧ c.sent = tr.send.toList.map (compose u event) := by
  obtain ⟨tr', hselect, rfl, rfl⟩ := exists_commit_of_handle h
  obtain ⟨-, -, hentry', -⟩ := select_eq_ok_iff.1 hselect
  obtain rfl : tr' = tr := Option.some.inj (hentry'.symm.trans hentry)
  obtain ⟨deadlines, hafter⟩ := commit_fst_eq e now t event tr'
  obtain ⟨_, hcleared⟩ := cleared_eq now t event tr'
  -- the messages are composed in the middle of the commit
  refine ⟨_, ?_, ?_, commit_sent e now t event tr'⟩
  · rw [hcleared]
    exact ⟨rfl, rfl, rfl, rfl⟩
  · rw [hcleared, hafter]

/-- A committed event either stays within what lies behind the trade or reaches the next
milestone. -/
theorem behind_of_committed (hfits : r.Fits t.protocol)
    (h : e.handle now t event = (t', .committed c)) :
    r.stage t'.state ≤ r.stage t.state ∨
      ∃ m, r.behind t'.state = r.behind t.state ++ [m] ∧ m.Met e.verifier t event := by
  obtain ⟨tr, hc⟩ := exists_committed_of_handle h
  obtain ⟨deadlines, hafter⟩ := hc.after
  have hstate : t'.state = tr.target := by rw [hafter]
  have hguards : ∀ g ∈ tr.guards, g.check e.context t event = .ok () :=
    checkGuards_eq_ok_iff.1 hc.guards
  rw [hstate]
  rcases hfits.2 _ (Dict.get?_eq_some_iff.1 hc.entry) with ⟨g, hg, hbars⟩ | hback |
    ⟨hnext, m, -, hm, hkind, henvelope, hdemands⟩
  · -- a guard of the entry would have refused every event
    exact absurd hbars (Guard.not_bars_of_check (hguards g hg))
  · exact .inl hback
  · refine .inr ⟨m, ?_, hkind.symm, ?_, fun d hd => ?_⟩
    · simp only [Route.behind, hnext]
      rw [List.take_add_one, hm]
      rfl
    · cases event with
      | inbound message =>
        exact Guard.check_envelope_eq_ok_iff.1 (hguards _ (henvelope rfl))
      | command _ => trivial
      | timeout _ => trivial
    · exact Demand.met_of_check (hguards _ (hdemands d hd))

end Engine

theorem Trade.SameDeal.authentic_iff {t t' : Trade} (h : t.SameDeal t') {event : Event} :
    event.Authentic t' ↔ event.Authentic t := by
  cases event <;> simp [Event.Authentic, h.id, h.counterparty]

theorem Trade.SameDeal.met_iff {t t' : Trade} (h : t.SameDeal t') {verifier : Verifier}
    {d : Demand} {event : Event} : d.Met verifier t' event ↔ d.Met verifier t event := by
  cases d <;> cases event <;> simp [Demand.Met, h.termsFingerprint]

theorem Milestone.Met.congr {verifier : Verifier} {t t' : Trade} {m : Milestone} {event : Event}
    (hdeal : t.SameDeal t') (h : m.Met verifier t' event) : m.Met verifier t event where
  kind := h.kind
  authentic := hdeal.authentic_iff.1 h.authentic
  demands d hd := hdeal.met_iff.1 (h.demands d hd)

namespace Engine

variable {t : Trade} {r : Route}

/-- Whatever happens to a trade, its history contains the milestones that lie behind the state it
ends in. -/
theorem contains_run (hfits : r.Fits t.protocol) (hstate : t.state = t.protocol.initial)
    (e : Engine) (stream : Stream) :
    (r.behind (e.run t stream).1.state).SublistForall₂ (Milestone.Met e.verifier t)
      ((e.history t stream).map (·.1)) := by
  refine run_induction_deal (P := fun t' h =>
    (r.behind t'.state).SublistForall₂ (Milestone.Met e.verifier t) (h.map (·.1))) ?_ ?_ stream
  · intro u h now event u' c hdeal hbehind hcommit
    rw [List.map_append]
    rcases behind_of_committed (by rwa [hdeal.protocol]) hcommit with hle | ⟨m, hm, hmet⟩
    · -- what lies behind the new state is the beginning of what lay behind the old one
      have htake : r.behind u'.state = (r.behind u.state).take (r.stage u'.state) := by
        rw [Route.behind, Route.behind, List.take_take, Nat.min_eq_left hle]
      rw [htake]
      exact sublistForall₂_append_right (sublistForall₂_take hbehind _) _
    · rw [hm]
      exact sublistForall₂_concat hbehind (hmet.congr hdeal)
  · -- nothing lies behind a trade that has just begun
    rw [hstate, Route.behind, hfits.1]
    exact .nil

end Engine

end PeerTrade
