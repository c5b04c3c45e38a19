import PeerTrade.Proofs.Engine.Guards
import PeerTrade.Proofs.Engine.Replay
import PeerTrade.Proofs.Standard.Progress
import PeerTrade.Proofs.Trade.Restart

/-!
# Deadlines under the built-in tables

The built-in tables arm a deadline only where they let its expiry through, and keep it armed only as
long as they do (`Protocol.HeedsDeadlines`). A trade therefore acts on the expiry of every deadline
that is armed. As no sequence is ever used twice, the name of a deadline that was disarmed or replaced
does not come back, and its expiry is refused from then on (`Trade.Past`).
-/

namespace PeerTrade

open DeadlineMove

/-! ## Tables -/

/-- Whether the expiry of a kind of deadline is let through in a state, without a guard. -/
def Protocol.heeds (p : Protocol) (s : State) (k : DeadlineKind) : Bool :=
  (p.lookup s (.timeout k)).any (·.guards.isEmpty)

/-- Every entry that does not end the trade leads to a state in which the expiry of whatever it arms
is let through, and of whatever may have been armed before and is not cleared. -/
def Protocol.HeedsDeadlines (p : Protocol) : Prop :=
  ∀ e ∈ p.table.entries, p.isTerminal e.2.target = true ∨ ∀ k ∈ (Catalog.all : List DeadlineKind),
    k ∈ e.2.arm ∨ (p.heeds e.1.state k = true ∧ k ∉ e.2.clear ∧ e.1.event ≠ .timeout k) →
      p.heeds e.2.target k = true

instance (p : Protocol) : Decidable p.HeedsDeadlines :=
  inferInstanceAs (Decidable (∀ e ∈ p.table.entries, _ ∨ ∀ k ∈ (Catalog.all : List DeadlineKind), _))

theorem Standard.heedsDeadlines_of_isTable {c : Combination} {p : Protocol} (h : IsTable c p) :
    p.HeedsDeadlines := by
  cases h with
  | reputation role => cases role <;> decide
  | escrowSeller => decide
  | escrowBuyer => decide

/-! ## Trades -/

namespace Trade

variable {e : Engine} {now : Instant} {t t' : Trade} {event : Event} {c : Commit} {id : DeadlineId}

/-- A trade that a registry let begin, after any commits and any restarts, the engines of which may
have been set up in different ways. -/
inductive Lived (registry : Registry) : Trade → Prop where
  | created {now : Instant} {id : String} {combination : Combination} {terms : Terms}
      {counterparty : Peer} {t : Trade} :
      create registry now id combination terms counterparty = .ok t → Lived registry t
  | committed {e : Engine} {now : Instant} {event : Event} {c : Commit} {t t' : Trade} :
      Lived registry t → e.handle now t event = (t', .committed c) → Lived registry t'
  | restored {t t' : Trade} :
      Lived registry t → restore registry t.toSnapshot = .ok t' → Lived registry t'

theorem Lived.restorable {registry : Registry} (h : Lived registry t) :
    t.Restorable registry := by
  induction h with
  | created hcreate => exact (Origin.created hcreate).restorable
  | committed _ hcommit ih => exact Engine.restorable_commit ih hcommit
  | restored _ hrestore _ => exact (Origin.restored hrestore).restorable

theorem Lived.run {registry : Registry} (h : Lived registry t) (e : Engine) (stream : Stream) :
    (e.run t stream).1.Lived registry :=
  Engine.run_induction (P := fun t _ => t.Lived registry) (h := [])
    (fun _ _ _ _ _ _ ht hcommit => ht.committed hcommit) h stream

/-- A trade in which the expiry of every armed deadline is let through. The deadlines are named
after sequences that it has reached. -/
structure Heedful (t : Trade) : Prop where
  ascends : t.protocol.Ascends
  heeds : t.protocol.HeedsDeadlines
  paced : t.Paced
  named : ∀ k id, t.liveId? k = some id → id.kind = k ∧ id.armedAt ≤ t.sequence
  heeded : ∀ k id, t.liveId? k = some id →
    t.finalized = false ∧ t.protocol.heeds t.state k = true

theorem Heedful.mem_armed_iff (h : t.Heedful) : id ∈ t.armed ↔ t.liveId? id.kind = some id :=
  Trade.mem_armed_iff fun k id hlive => (h.named k id hlive).1

theorem Paced.lt_succ (h : t.Paced) : t.sequence < t.sequence + 1 := by
  rw [UInt64.lt_iff_toNat_lt, h.toNat_succ]
  exact Nat.lt_succ_self _

theorem Heedful.commit (h : t.Heedful) (hcommit : e.handle now t event = (t', .committed c)) :
    t'.Heedful := by
  obtain ⟨hprotocol, hpaced⟩ : t'.protocol = t.protocol ∧ t'.Paced :=
    ⟨(Engine.sameDeal_of_committed hcommit).protocol, h.paced.commit h.ascends hcommit⟩
  obtain ⟨tr, hselect, rfl, -⟩ := Engine.exists_commit_of_handle hcommit
  have hc := Engine.committed_of_select now hselect
  obtain ⟨deadlines, hafter⟩ := hc.after
  refine ⟨by rw [hprotocol]; exact h.ascends, by rw [hprotocol]; exact h.heeds, hpaced,
    fun k id hlive => ?_, fun k id hlive => ?_⟩
  · -- what was armed now is named after this commit, anything else after an earlier one
    have hsequence : (e.commit now t event tr).1.sequence = t.sequence + 1 := by rw [hafter]
    rw [hsequence]
    obtain ⟨-, ⟨-, rfl⟩ | ⟨hbefore, -⟩⟩ := Engine.of_liveId?_commit hlive
    · exact ⟨rfl, UInt64.le_refl _⟩
    · obtain ⟨hkind, hle⟩ := h.named k id hbefore
      exact ⟨hkind, UInt64.le_of_lt (UInt64.lt_of_le_of_lt hle h.paced.lt_succ)⟩
  · obtain ⟨hgoes, hcause⟩ := Engine.of_liveId?_commit hlive
    refine ⟨by rw [hafter]; exact hgoes, ?_⟩
    have hstate : (e.commit now t event tr).1.state = tr.target := by rw [hafter]
    rw [hprotocol, hstate]
    -- the entry leads to a state that heeds whatever is armed there
    rcases h.heeds _ (Dict.get?_eq_some_iff.1 hc.entry) with hterminal | hheeds
    · rw [hgoes] at hterminal
      cases hterminal
    · refine hheeds k (Catalog.mem_all k) (hcause.imp (·.1) fun ⟨hbefore, hclear, hkind⟩ => ?_)
      exact ⟨(h.heeded k id hbefore).2, hclear, hkind⟩

theorem Lived.heedful (h : Lived .standard t) : t.Heedful := by
  induction h with
  | created hcreate =>
    obtain ⟨-, -, protocol, hlookup, rfl⟩ := create_eq_ok_iff.1 hcreate
    have htable := Standard.isTable_of_lookup hlookup
    exact ⟨Standard.ascends_of_isTable htable, Standard.heedsDeadlines_of_isTable htable,
      Nat.zero_le _, nofun, nofun⟩
  | committed _ hcommit ih => exact ih.commit hcommit
  | restored hlived hrestore ih =>
    -- a restart leaves the trade as it was
    cases hlived.restorable.restore_toSnapshot.symm.trans hrestore
    exact ih

/-! ## Expiry -/

theorem Heedful.select_timeout (h : t.Heedful) (e : Engine) (hlive : t.liveId? id.kind = some id) :
    ∃ tr, e.select t (.timeout id) = .ok tr := by
  obtain ⟨hopen, hheeds⟩ := h.heeded id.kind id hlive
  obtain ⟨tr, hentry, hguards⟩ := (Option.any_eq_true _ _).1 hheeds
  refine ⟨tr, Engine.select_eq_ok_iff.2
    ⟨hopen, Engine.checkReplay_timeout_eq_ok_iff.2 hlive, hentry, ?_⟩⟩
  rw [List.isEmpty_iff.1 hguards]
  rfl

/-- The expiry of an armed deadline is acted upon. -/
theorem Heedful.handle_timeout (h : t.Heedful) (e : Engine) (now : Instant)
    (hlive : t.liveId? id.kind = some id) :
    ∃ c, (e.handle now t (.timeout id)).2 = .committed c := by
  obtain ⟨tr, hselect⟩ := h.select_timeout e hlive
  exact ⟨_, by rw [Engine.handle_of_select now hselect]⟩

/-- The expiry of any other deadline is refused. -/
theorem handle_timeout_of_unarmed (e : Engine) (now : Instant) (h : t.liveId? id.kind ≠ some id) :
    ∃ r, e.handle now t (.timeout id) = (t, .rejected r) ∧
      r.reason = if t.finalized then .finalized else .duplicate := by
  cases hfinalized : t.finalized with
  | true => exact ⟨_, by rw [Engine.handle, Engine.select_of_finalized e _ hfinalized], rfl⟩
  | false =>
    have hother : ¬(t.deadline? id.kind).any (·.id == id) = true := by
      intro hany
      exact h (Engine.checkReplay_timeout_eq_ok_iff.1 (if_pos hany))
    have hreplay : Engine.checkReplay t (.timeout id) = .error ⟨.duplicate, _⟩ := if_neg hother
    exact ⟨_, by rw [Engine.handle, Engine.select_of_checkReplay e hfinalized hreplay], rfl⟩

/-- A deadline that a trade had, and that is not armed any more. -/
structure Past (t : Trade) (id : DeadlineId) : Prop where
  armedAt : id.armedAt ≤ t.sequence
  unarmed : t.liveId? id.kind ≠ some id

/-- A deadline is past after a commit if it was past before, or if something is done about its
kind. -/
theorem Heedful.past_of_committed (h : t.Heedful)
    (hcommit : e.handle now t event = (t', .committed c)) (harmed : id.armedAt ≤ t.sequence)
    (hgone : t.liveId? id.kind = some id → ∃ m ∈ Engine.moves event c, m.kind = id.kind) :
    t'.Past id := by
  obtain ⟨tr, hc⟩ := Engine.exists_committed_of_handle hcommit
  obtain ⟨deadlines, hafter⟩ := hc.after
  have hsequence : t'.sequence = t.sequence + 1 := by rw [hafter]
  have hlt : id.armedAt < t.sequence + 1 := UInt64.lt_of_le_of_lt harmed h.paced.lt_succ
  refine ⟨by rw [hsequence]; exact UInt64.le_of_lt hlt, fun hlive => ?_⟩
  rw [hc.moves] at hlive
  rcases armed_mem_or_untouched hlive with ⟨-, hnew⟩ | ⟨hbefore, huntouched⟩
  · -- what a commit arms has a name of its own
    rw [hc.armedAt_of_move hnew, hc.sequence] at hlt
    exact absurd hlt (UInt64.lt_irrefl _)
  · obtain ⟨m, hm, hkind⟩ := hgone hbefore
    exact huntouched m hm hkind

/-- A deadline that is past remains so, whatever comes. -/
theorem Heedful.past_run (h : t.Heedful) (hpast : t.Past id) (e : Engine) (stream : Stream) :
    (e.run t stream).1.Past id := by
  have hrun := Engine.run_induction (e := e) (t := t) (h := [])
    (P := fun t' _ => t'.Heedful ∧ t'.Past id) ?_ ⟨h, hpast⟩ stream
  · exact hrun.2
  · rintro t₁ _ now event t₂ c ⟨hheedful, hpast⟩ hcommit
    exact ⟨hheedful.commit hcommit, hheedful.past_of_committed hcommit hpast.armedAt
      fun hlive => absurd hlive hpast.unarmed⟩

end Trade

end PeerTrade
