import PeerTrade.Proofs.Node.Messages
import PeerTrade.Proofs.Node.Shutdown
import PeerTrade.Proofs.Snapshot.RoundTrip

/-!
# Lives of a trade

A node that crashes leaves its backend behind and nothing else, and the next node takes the trade up
from the record there. In each of these lives the messages about the trade ascend, from beyond the
sequence of that record (`Node.Watched.Life.ascends`), and no life leaves an older record behind
than it found (`Node.Watched.Life.keeps`). A message is on its way before its commit is written,
however, so that its sequence is given out again if the write does not come about any more, and only
then (`Node.shared_sequences_are_lost`, `Node.sequence_is_given_out_again`).
-/

namespace PeerTrade

/-! ## What a counterparty takes for a repetition -/

namespace Engine

variable {e : Engine} {t : Trade} {now : Instant} {event : Event} {r : Rejection}

theorem reason_of_checkGuards {context : GuardContext} {guards : List Guard}
    (h : checkGuards context t event guards = .error r) : r.reason = .guardFailed := by
  induction guards with
  | nil => cases h
  | cons g rest ih =>
    rw [checkGuards] at h
    split at h
    · exact ih h
    · cases h
      rfl

/-- No check but the one for repetitions refuses an event as a duplicate. -/
theorem reason_ne_duplicate (hfresh : checkReplay t event = .ok ())
    (h : (e.handle now t event).2 = .rejected r) : r.reason ≠ .duplicate := by
  rw [handle] at h
  cases hselect : e.select t event with
  | ok tr =>
    rw [hselect] at h
    cases h
  | error r' =>
    rw [hselect] at h
    cases h
    cases hopen : t.finalized with
    | true =>
      rw [select_of_finalized e event hopen] at hselect
      cases hselect
      simp
    | false =>
      cases hlookup : t.protocol.lookup t.state event.kind with
      | none =>
        simp only [select, hopen, hfresh, hlookup] at hselect
        cases hselect
        cases event.kind <;> simp [missingEntry]
      | some tr =>
        cases hguards : checkGuards e.context t event tr.guards with
        | ok =>
          simp only [select, hopen, hfresh, hlookup, hguards] at hselect
          cases hselect
        | error r' =>
          simp only [select, hopen, hfresh, hlookup, hguards] at hselect
          cases hselect
          simp [reason_of_checkGuards hguards]

/-- The last sequence of the other side that a trade remembers is one that it was brought, or the
one that it remembered before. -/
theorem lastPeerSequence_run (e : Engine) (t : Trade) (stream : Stream) :
    (e.run t stream).1.lastPeerSequence = t.lastPeerSequence ∨
      ∃ date m, (date, .inbound m) ∈ stream ∧
        (e.run t stream).1.lastPeerSequence = m.sequence := by
  induction stream generalizing t with
  | nil => exact .inl rfl
  | cons arrival rest ih =>
    obtain ⟨date, event⟩ := arrival
    rw [run_cons]
    rcases ih (e.handle date t event).1 with hsame | ⟨date', m, hm, hlast⟩
    · rw [hsame]
      cases hhandle : e.handle date t event with
      | mk t' outcome =>
        cases outcome with
        | rejected r => exact .inl (by rw [eq_of_rejected hhandle])
        | committed c =>
          obtain ⟨tr, hc⟩ := exists_committed_of_handle hhandle
          obtain ⟨deadlines, rfl⟩ := hc.after
          cases event with
          | inbound m => exact .inr ⟨date, m, List.mem_cons_self, rfl⟩
          | command c => exact .inl rfl
          | timeout id => exact .inl rfl
    · exact .inr ⟨date', m, List.mem_cons_of_mem _ hm, hlast⟩

end Engine

/-! ## Records -/

/-- What a backend holds of a trade, if it can be read. -/
def Backend.stored? (b : Backend) (id : String) : Option Snapshot :=
  (b.records.get? id).bind fun record => (Snapshot.decode record).toOption

theorem Snapshot.FitsMemory.decode_eq_ok {t : Trade} {record : Bytes}
    (hfits : t.toSnapshot.FitsMemory) (h : t.toSnapshot.encode = .ok record) :
    Snapshot.decode record = .ok t.toSnapshot.recorded := by
  obtain ⟨record', hencode, hdecode⟩ :=
    Snapshot.exists_encode_eq_ok (hfits.storable h) (UInt32.le_refl _)
  cases h.symm.trans hencode
  exact hdecode

/-- A restored trade goes on under its id, at its sequence. -/
theorem Engine.restore_eq {e : Engine} {s : Snapshot} {t : Trade} (h : e.restore s = .ok t) :
    t.id = s.tradeId ∧ t.sequence = s.sequence := by
  obtain ⟨-, -, protocol, -, -, rfl⟩ := Trade.restore_eq_ok_iff.1 h
  exact ⟨rfl, rfl⟩

namespace Node

open Store (tradeAt storable_tradeAt)

variable {x x₁ x' : Watched} {a : Action} {actions : List Action} {k k' : Nat} {w w' : Worker}
  {id : String}

/-! ## Taking a trade on -/

/-- An action takes the trade of some id on. -/
def Action.takesOn (id : String) : Action → Bool
  | .launch _ t => t.id = id
  | .resume _ s => s.tradeId = id
  | _ => false

/-- Among some actions a trade was launched or resumed. -/
def TakenFrom (engine : Engine) (actions : List Action) (t : Trade) : Prop :=
  (∃ now, .launch now t ∈ actions) ∨
    ∃ now s, .resume now s ∈ actions ∧ engine.restore s = .ok t

theorem TakenFrom.mono {engine : Engine} {t : Trade} {more : List Action}
    (h : TakenFrom engine actions t) (hsub : actions ⊆ more) : TakenFrom engine more t := by
  rcases h with ⟨now, hmem⟩ | ⟨now, s, hmem, hrestore⟩
  · exact .inl ⟨now, hsub hmem⟩
  · exact .inr ⟨now, s, hsub hmem, hrestore⟩

theorem TakenFrom.exists_takesOn {engine : Engine} {t : Trade}
    (h : TakenFrom engine actions t) : ∃ a ∈ actions, a.takesOn t.id = true := by
  rcases h with ⟨now, hmem⟩ | ⟨now, s, hmem, hrestore⟩
  · exact ⟨_, hmem, decide_eq_true rfl⟩
  · exact ⟨_, hmem, decide_eq_true (Engine.restore_eq hrestore).1.symm⟩

theorem Begins.takenFrom {n : Node} (h : Begins n a k w) : TakenFrom n.engine [a] w.trade := by
  cases h with
  | launched ha => exact .inl ⟨_, List.mem_singleton.2 ha.symm⟩
  | resumed ha hrestore => exact .inr ⟨_, _, List.mem_singleton.2 ha.symm, hrestore⟩

theorem Begins.eq_started {n : Node} (h : Begins n a k w) : k = n.started := by
  cases h with
  | launched _ hk => exact hk
  | resumed _ _ hk => exact hk

/-- A worker keeps the id of the trade that it began with. -/
theorem Linear.id_eq (h : Linear x) (hk : x.node.workers.get? k = some w) {t₀ : Trade}
    (horigin : (x.journal k).origin = some t₀) : w.trade.id = t₀.id := by
  obtain ⟨t, ht, hw⟩ := (h.straight k w hk).follows.trade
  cases horigin.symm.trans ht
  rw [hw, Engine.run_id]

namespace Watched

/-- Every worker began with a trade that was taken on. -/
theorem Run.exists_origin (h : x.Run actions x') (hlinear : Linear x)
    (hnone : ∀ k, x.node.workers.get? k = none) (hk : x'.node.workers.get? k = some w) :
    ∃ t₀, (x'.journal k).origin = some t₀ ∧ TakenFrom x.node.engine actions t₀ := by
  induction h generalizing w with
  | nil => cases (hnone k).symm.trans hk
  | @concat actions x₁ x₂ a hrun hact ih =>
    cases hk₁ : x₁.node.workers.get? k with
    | some w₁ =>
      obtain ⟨t₀, horigin, htaken⟩ := ih hk₁
      rw [← (journal_of_act (hlinear.run hrun) hact hk₁).1] at horigin
      exact ⟨t₀, horigin, htaken.mono (List.subset_append_left _ _)⟩
    | none =>
      obtain ⟨hbegins, -, -, horigin⟩ := begins_of_act hact hk₁ hk
      rw [← (hlinear.extends_of_run hrun).engine]
      exact ⟨w.trade, horigin, hbegins.takenFrom.mono (List.subset_append_right _ _)⟩

/-- A trade that is taken on once has one worker. -/
theorem Run.eq_of_taken_once (h : x.Run actions x') (hlinear : Linear x)
    (hnone : ∀ k, x.node.workers.get? k = none) (honce : actions.countP (Action.takesOn id) ≤ 1)
    (hk : x'.node.workers.get? k = some w) (hk' : x'.node.workers.get? k' = some w')
    (hid : w.trade.id = id) (hid' : w'.trade.id = id) : k = k' := by
  induction h generalizing w w' k k' with
  | nil => cases (hnone k).symm.trans hk
  | @concat actions x₁ x₂ a hrun hact ih =>
    rw [List.countP_append] at honce
    -- nobody can begin with the trade if somebody has it already
    have hfirst {k k' : Nat} {w w₁' : Worker} (hk : x₂.node.workers.get? k = some w)
        (hid : w.trade.id = id) (hk₁ : x₁.node.workers.get? k = none)
        (hk₁' : x₁.node.workers.get? k' = some w₁') : w₁'.trade.id ≠ id := by
      intro hid'
      obtain ⟨hbegins, -, -, -⟩ := begins_of_act hact hk₁ hk
      obtain ⟨a', ha', htakes⟩ := hbegins.takenFrom.exists_takesOn
      obtain ⟨t₀, horigin, htaken⟩ := hrun.exists_origin hlinear hnone hk₁'
      obtain ⟨a'', ha'', htakes'⟩ := htaken.exists_takesOn
      rw [← (hlinear.run hrun).id_eq hk₁' horigin, hid'] at htakes'
      rw [hid] at htakes
      have hpos := List.countP_pos_iff.2 ⟨a', ha', htakes⟩
      have hpos' := List.countP_pos_iff.2 ⟨a'', ha'', htakes'⟩
      omega
    have hsame {k : Nat} {w w₁ : Worker} (hk : x₂.node.workers.get? k = some w)
        (hk₁ : x₁.node.workers.get? k = some w₁) : w₁.trade.id = w.trade.id := by
      obtain ⟨t₀, horigin, -⟩ := hrun.exists_origin hlinear hnone hk₁
      rw [(hlinear.run hrun).id_eq hk₁ horigin]
      rw [← (journal_of_act (hlinear.run hrun) hact hk₁).1] at horigin
      rw [((hlinear.run hrun).act hact).id_eq hk horigin]
    cases hk₁ : x₁.node.workers.get? k with
    | some w₁ =>
      cases hk₁' : x₁.node.workers.get? k' with
      | some w₁' =>
        exact ih (Nat.le_trans (Nat.le_add_right _ _) honce) hk₁ hk₁' ((hsame hk hk₁).trans hid)
          ((hsame hk' hk₁').trans hid')
      | none => exact absurd ((hsame hk hk₁).trans hid) (hfirst hk' hid' hk₁' hk₁)
    | none =>
      cases hk₁' : x₁.node.workers.get? k' with
      | some w₁' => exact absurd ((hsame hk' hk₁').trans hid') (hfirst hk hid hk₁ hk₁')
      | none =>
        exact ((begins_of_act hact hk₁ hk).1.eq_started).trans
          ((begins_of_act hact hk₁' hk').1.eq_started).symm

/-! ## One life -/

/-- The messages about a trade that are handed to the link in some actions. -/
def messages (x : Watched) (id : String) (actions : List Action) : List Outbound :=
  ((x.sentIn actions).filter (·.2.tradeId = id)).map (·.2)

/-- A node starts over a backend and has come to `x'` when it crashes. It has taken a trade on once
at most, from the record that it found, or as a new one if there was none. No sequence has wrapped
around, and what was handed to the store has its place in memory. -/
structure Life (id : String) (x : Watched) (actions : List Action) (x' : Watched) : Prop where
  starts : ∃ name engine settings backend identity,
    x = .new name engine settings backend identity
  run : x.Run actions x'
  once : actions.countP (Action.takesOn id) ≤ 1
  resumed : ∀ now s, .resume now s ∈ actions → s.tradeId = id →
    x.node.backend.stored? id = some s
  launched : ∀ now t, .launch now t ∈ actions → t.id = id → x.node.backend.stored? id = none
  fits : x'.Fits
  memory : ∀ e ∈ x'.handed, e.2.toSnapshot.FitsMemory

namespace Life

variable {s : Snapshot} {t t₀ : Trade}

theorem linear (h : Life id x actions x') : Linear x := by
  obtain ⟨name, engine, settings, backend, identity, rfl⟩ := h.starts
  exact linear_new ..

theorem no_worker (h : Life id x actions x') (k : Nat) : x.node.workers.get? k = none := by
  obtain ⟨name, engine, settings, backend, identity, rfl⟩ := h.starts
  rfl

/-- The trade goes on from the record, if there is one. -/
theorem sequence_eq (h : Life id x actions x') (htaken : TakenFrom x.node.engine actions t₀)
    (hid : t₀.id = id) (hs : x.node.backend.stored? id = some s) : t₀.sequence = s.sequence := by
  rcases htaken with ⟨now, hmem⟩ | ⟨now, s', hmem, hrestore⟩
  · rw [h.launched now t₀ hmem hid] at hs
    cases hs
  · obtain ⟨hid', hsequence⟩ := Engine.restore_eq hrestore
    rw [h.resumed now s' hmem (hid'.symm.trans hid)] at hs
    cases hs
    exact hsequence

/-- What a worker has handed to the link ascends, from beyond the sequence that it began with. -/
theorem ascends_of_worker (h : Life id x actions x') (hk : x'.node.workers.get? k = some w)
    (horigin : (x'.journal k).origin = some t₀) :
    (((x.sentIn actions).filter (·.1 = k)).map (·.2)).Pairwise
        (fun m m' => m.sequence < m'.sequence) ∧
      ∀ m ∈ ((x.sentIn actions).filter (·.1 = k)).map (·.2),
        m.tradeId = t₀.id ∧ t₀.sequence < m.sequence := by
  have hutters := sent_of_run h.run h.linear h.no_worker hk t₀ horigin
  obtain ⟨hpairs, hall⟩ := x'.node.engine.ascends_sent t₀ _ (h.fits k t₀ horigin)
  rw [← hutters] at hpairs hall
  exact ⟨(List.pairwise_append.1 hpairs).1, fun m hm => hall m (List.mem_append_left _ hm)⟩

/-- Whoever sends a message about the trade is a worker that has taken it on. -/
theorem exists_speaker (h : Life id x actions x') {e : Nat × Outbound} (he : e ∈ x.sentIn actions)
    (hid : e.2.tradeId = id) : ∃ w t₀, x'.node.workers.get? e.1 = some w ∧ w.trade.id = id ∧
      (x'.journal e.1).origin = some t₀ ∧ t₀.id = id ∧
        TakenFrom x.node.engine actions t₀ := by
  obtain ⟨w, hk⟩ := h.run.exists_worker_of_mem_sentIn h.linear he
  obtain ⟨t₀, horigin, htaken⟩ := h.run.exists_origin h.linear h.no_worker hk
  obtain ⟨hid₀, -⟩ := (h.ascends_of_worker hk horigin).2 e.2
    (List.mem_map_of_mem (List.mem_filter.2 ⟨he, decide_eq_true rfl⟩))
  rw [hid] at hid₀
  exact ⟨w, t₀, hk, ((h.linear.run h.run).id_eq hk horigin).trans hid₀.symm, horigin, hid₀.symm,
    htaken⟩

/-- All messages about the trade are those of one worker. -/
theorem messages_sublist (h : Life id x actions x') {e : Nat × Outbound}
    (he : e ∈ x.sentIn actions) (hid : e.2.tradeId = id) :
    (x.messages id actions).Sublist (((x.sentIn actions).filter (·.1 = e.1)).map (·.2)) := by
  obtain ⟨w, -, hk, hw, -⟩ := h.exists_speaker he hid
  -- a filter by the trade finds only what a filter by this worker has found before
  have hsame : (x.sentIn actions).filter (·.2.tradeId = id) =
      ((x.sentIn actions).filter (·.1 = e.1)).filter (·.2.tradeId = id) := by
    rw [List.filter_filter]
    refine List.filter_congr fun e' he' => ?_
    by_cases hid' : e'.2.tradeId = id
    · obtain ⟨w', -, hk', hw', -⟩ := h.exists_speaker he' hid'
      have heq := h.run.eq_of_taken_once h.linear h.no_worker h.once hk' hk hw' hw
      simp [heq]
    · simp [hid']
  rw [messages, hsame]
  exact List.filter_sublist.map _

/-- The messages of a life ascend, from beyond the sequence of the record that there was. -/
theorem ascends (h : Life id x actions x') :
    (x.messages id actions).Pairwise (fun m m' => m.sequence < m'.sequence) ∧
      (∀ m ∈ x.messages id actions, 0 < m.sequence) ∧
      ∀ s, x.node.backend.stored? id = some s →
        ∀ m ∈ x.messages id actions, s.sequence < m.sequence := by
  by_cases hsilent : ∃ e ∈ x.sentIn actions, e.2.tradeId = id
  · obtain ⟨e, he, hid⟩ := hsilent
    obtain ⟨w, t₀, hk, -, horigin, hid₀, htaken⟩ := h.exists_speaker he hid
    obtain ⟨hpairs, hall⟩ := h.ascends_of_worker hk horigin
    have hsub := h.messages_sublist he hid
    refine ⟨hpairs.sublist hsub, fun m hm => ?_, fun s hs m hm => ?_⟩
    · exact UInt64.lt_of_le_of_lt UInt64.zero_le (hall m (hsub.subset hm)).2
    · rw [← h.sequence_eq htaken hid₀ hs]
      exact (hall m (hsub.subset hm)).2
  · have hnone : x.messages id actions = [] := by
      rw [messages, List.filter_eq_nil_iff.2 fun e he hid =>
        hsilent ⟨e, he, of_decide_eq_true hid⟩]
      rfl
    simp [hnone]

/-- A trade that was handed in is not older than the one that its worker began with. -/
theorem sequence_le_of_handed (h : Life id x actions x') {e : Nat × Trade}
    (he : e ∈ x'.handed) : ∃ t₀, TakenFrom x.node.engine actions t₀ ∧ t₀.id = e.2.id ∧
      t₀.sequence ≤ e.2.sequence := by
  obtain ⟨name, engine, settings, backend, identity, rfl⟩ := h.starts
  have htended : Tended (fun _ => True) x' :=
    h.run.tended h.linear (tended_new ..) fun _ _ _ => trivial
  obtain ⟨w, hk⟩ := htended.known e he
  obtain ⟨t₀, horigin, htaken⟩ := h.run.exists_origin h.linear h.no_worker hk
  obtain ⟨i, -, t₁, ht₁, ht⟩ := (htended.kept e.1 w hk).handed e.2 he
  cases horigin.symm.trans ht₁
  -- the commits up to the place at which the trade was handed in are some of those of the life
  have hwhole := h.fits e.1 t₀ horigin
  rw [← List.take_append_drop i (x'.journal e.1).read, Mail.stream_append,
    Engine.history_append, List.length_append] at hwhole
  have hle := x'.node.engine.sequence_le_run t₀ [] (Mail.stream ((x'.journal e.1).read.take i)) (by
    rw [List.nil_append]
    omega)
  exact ⟨t₀, htaken, by rw [ht, Engine.run_id], by rw [ht]; exact hle⟩

/-- The record of a trade is not replaced by an older one, and does not vanish. -/
theorem keeps (h : Life id x actions x') (hs : x.node.backend.stored? id = some s) :
    ∃ s', x'.node.backend.stored? id = some s' ∧ s.sequence ≤ s'.sequence := by
  obtain ⟨moves, more, hmoves, hhanded, hrequests⟩ := h.run.store
  have hall : x'.handed = more ∧ x.node.store = {} := by
    obtain ⟨name, engine, settings, backend, identity, rfl⟩ := h.starts
    exact ⟨hhanded, rfl⟩
  obtain ⟨rfl, hempty⟩ := hall
  rw [hempty] at hmoves
  -- the record is the one from the beginning, or the snapshot of a trade that was handed in
  rcases hmoves.drawn.records id with hsame | ⟨record, hrecord, t, ht, hid, hencode⟩
  · refine ⟨s, ?_, UInt64.le_refl _⟩
    rw [Backend.stored?, hsame]
    exact hs
  · rw [hrequests] at ht
    obtain ⟨e, he, rfl⟩ := List.mem_map.1 ht
    obtain ⟨t₀, htaken, hid₀, hle⟩ := h.sequence_le_of_handed he
    refine ⟨e.2.toSnapshot.recorded, ?_, ?_⟩
    · rw [Backend.stored?, hrecord, Option.bind_some, (h.memory e he).decode_eq_ok hencode]
      rfl
    · rw [← h.sequence_eq htaken (hid₀.trans hid) hs]
      exact hle

end Life

end Watched

/-! ## Life after life -/

/-- What is left of a life: the messages about the trade that were handed to the link, in order, and
the record that the next node finds. -/
structure Past where
  sent : List Outbound
  stored : Option Snapshot

/-- The commit that sent a message is not in the record any more. -/
def Past.Lost (p : Past) (m : Outbound) : Prop := ∀ s, p.stored = some s → s.sequence < m.sequence

/-- Nodes ran over one backend, each of them until it crashed. -/
inductive Crashes (id : String) (b₀ : Backend) : List Past → Backend → Prop where
  | nil : Crashes id b₀ [] b₀
  | concat {pasts : List Past} {x x' : Watched} {actions : List Action} :
      Crashes id b₀ pasts x.node.backend → x.Life id actions x' →
      Crashes id b₀ (pasts ++ [⟨x.messages id actions, x'.node.backend.stored? id⟩])
        x'.node.backend

namespace Crashes

variable {b₀ b : Backend} {pasts : List Past}

theorem keeps (h : Crashes id b₀ pasts b) : ∀ p ∈ pasts, ∀ s, p.stored = some s →
    ∃ s', b.stored? id = some s' ∧ s.sequence ≤ s'.sequence := by
  induction h with
  | nil => exact fun p hp => absurd hp List.not_mem_nil
  | concat _ hlife ih =>
    intro p hp s hs
    rcases List.mem_append.1 hp with hp | hp
    · obtain ⟨s₁, hs₁, hle⟩ := ih p hp s hs
      obtain ⟨s', hs', hle'⟩ := hlife.keeps hs₁
      exact ⟨s', hs', UInt64.le_trans hle hle'⟩
    · rw [List.mem_singleton.1 hp] at hs
      exact ⟨s, hs, UInt64.le_refl _⟩

/-- The messages of every life ascend, from beyond the records that earlier lives left. -/
theorem ascends (h : Crashes id b₀ pasts b) :
    (∀ p ∈ pasts, p.sent.Pairwise (fun m m' => m.sequence < m'.sequence) ∧
      ∀ m ∈ p.sent, 0 < m.sequence) ∧
    pasts.Pairwise fun p p' => ∀ s, p.stored = some s → ∀ m ∈ p'.sent, s.sequence < m.sequence := by
  induction h with
  | nil => exact ⟨fun p hp => absurd hp List.not_mem_nil, .nil⟩
  | concat hbefore hlife ih =>
    obtain ⟨hpairs, hpositive, hbeyond⟩ := hlife.ascends
    refine ⟨fun p hp => ?_, List.pairwise_append.2 ⟨ih.2, List.pairwise_singleton _ _, ?_⟩⟩
    · rcases List.mem_append.1 hp with hp | hp
      · exact ih.1 p hp
      · rw [List.mem_singleton.1 hp]
        exact ⟨hpairs, hpositive⟩
    · intro p hp p' hp' s hs m hm
      rw [List.mem_singleton.1 hp'] at hm
      -- the record that was left has not become older until this life began
      obtain ⟨s', hs', hle⟩ := hbefore.keeps p hp s hs
      exact UInt64.lt_of_le_of_lt hle (hbeyond s' hs' m hm)

end Crashes

theorem Past.exists_of_not_lost {p : Past} {m : Outbound} (h : ¬p.Lost m) :
    ∃ s, p.stored = some s ∧ m.sequence ≤ s.sequence := by
  by_contra hnone
  refine h fun s hs => ?_
  by_contra hle
  exact hnone ⟨s, hs, UInt64.not_lt.1 hle⟩

/-- A message was sent before: earlier in the same life, or in a life before that left its commit in
the record. -/
def SentBefore (before : List Past) (earlier : List Outbound) (m : Outbound) : Prop :=
  m ∈ earlier ∨ ∃ p ∈ before, m ∈ p.sent ∧ ¬p.Lost m

theorem Crashes.sequence_lt {b₀ b : Backend} {before after : List Past} {p : Past}
    {earlier later : List Outbound} {m m' : Outbound}
    (h : Crashes id b₀ (before ++ p :: after) b) (hsent : p.sent = earlier ++ m' :: later)
    (hm : SentBefore before earlier m) : m.sequence < m'.sequence := by
  obtain ⟨hlives, hrecords⟩ := h.ascends
  rcases hm with hm | ⟨p₀, hp₀, hm, hkept⟩
  · have hpairs := (hlives p (by simp)).1
    rw [hsent] at hpairs
    exact (List.pairwise_append.1 hpairs).2.2 m hm m' List.mem_cons_self
  · obtain ⟨s, hs, hle⟩ := Past.exists_of_not_lost hkept
    have hbeyond := (List.pairwise_append.1 hrecords).2.2 p₀ hp₀ p List.mem_cons_self s hs m'
      (by simp [hsent])
    exact UInt64.lt_of_le_of_lt hle hbeyond

/-! ## Played lives -/

theorem act_resume {t : Trade} (ht : t.Restorable x.node.engine.registry) (now : Time) :
    x.act (.resume now t.toSnapshot) =
      ((x.node.start now t true).toOption).map (x.note (.resume now t.toSnapshot)) := by
  have hrestore : x.node.engine.restore t.toSnapshot = .ok t := ht.restore_toSnapshot
  show Option.map _ (Option.bind _ _) = _
  rw [hrestore]
  rfl

/-- A new node over a backend. -/
def fresh (b : Backend) : Watched := .new "a" (lenient false) {} b ⟨"local"⟩

/-- A backend that holds the record of one trade. -/
def holding (t : Trade) : Backend where
  records := .ofList [(t.id, t.toSnapshot.encode.toOption.getD [])]

theorem stored?_holding {t : Trade} (ht : t.Storable) (hplain : t.Plain) :
    (holding t).stored? t.id = some t.toSnapshot := by
  obtain ⟨record, hencode, hdecode⟩ :=
    Snapshot.exists_encode_eq_ok ht.toSnapshot (UInt32.le_refl _)
  have hget : (holding t).records.get? t.id = some record := by
    simp [holding, hencode, Dict.ofList, Except.toOption]
  rw [Backend.stored?, hget, Option.bind_some, hdecode, ht.toSnapshot.recorded_eq_self_iff.2 hplain]
  rfl

/-- A life with one worker. -/
theorem life_of_play {b : Backend} {t₀ : Trade} (hplay : (fresh b).play actions = some x')
    (honce : actions.countP (Action.takesOn id) ≤ 1)
    (hresumed : ∀ now s, .resume now s ∈ actions → b.stored? id = some s)
    (hlaunched : ∀ now t, .launch now t ∈ actions → b.stored? id = none)
    (hstarted : x'.node.started = 1) (horigin : (x'.journal 0).origin = some t₀)
    (hfits : t₀.sequence.toNat +
      (x'.node.engine.history t₀ (Mail.stream (x'.journal 0).read)).length < 2 ^ 64)
    (hstorable : ∀ e ∈ x'.handed, e.2.Storable) : (fresh b).Life id actions x' where
  starts := ⟨_, _, _, _, _, rfl⟩
  run := Watched.run_of_play hplay
  once := honce
  resumed now s hmem _ := hresumed now s hmem
  launched now t hmem _ := hlaunched now t hmem
  fits := ((linear_new ..).run (Watched.run_of_play hplay)).fits_of_single hstarted horigin hfits
  memory e he :=
    have hs := (hstorable e he).toSnapshot
    ⟨hs.texts, hs.lengths.1, hs.lengths.2⟩

/-- An order to take the offer. -/
def acceptance : Event := .command ⟨"o", .takeOffer, [], []⟩

/-- A new trade is written. Then its offer is taken, and when the request is on its way to the
maker, the writer takes some steps. -/
def takingOn (steps : Nat) : List Action :=
  .launch ⟨.epoch, 0, .farFuture⟩ (tradeAt 0) :: writing ++
    .call 0 (.dispatch acceptance) :: List.replicate 3 (atOnce (.worker 0)) ++
    List.replicate steps (atOnce .writer)

theorem restorable_tradeAt (sequence : UInt64) :
    (tradeAt sequence).Restorable (lenient false).registry :=
  ⟨rfl, rfl, Trade.verify_soundTerms, rfl, Trade.keyed_empty⟩

/-- A trade after its offer was taken. -/
def takenAt (sequence : UInt64) : Trade :=
  ((lenient false).handle .epoch (tradeAt sequence) acceptance).1

theorem restorable_takenAt (sequence : UInt64) :
    (takenAt sequence).Restorable (lenient false).registry :=
  Engine.restorable_run (restorable_tradeAt sequence) (lenient false) [(.epoch, acceptance)]

theorem storable_takenAt (sequence : UInt64) : (takenAt sequence).Storable := by
  refine ⟨?_, ?_, ?_, ?_, ?_⟩
  · show Instant.epoch.IsStorable
    decide
  · show Instant.epoch.IsStorable
    decide
  · -- the response is awaited
    show ∀ d ∈ [Deadline.mk ⟨.takeOfferResponse, sequence + 1⟩
      (Instant.epoch.after ⟨120000000000⟩)], d.expiresAt.IsStorable
    intro d hd
    rw [List.mem_singleton.1 hd]
    show (Instant.epoch.after ⟨120000000000⟩).IsStorable
    decide
  · show ∀ x ∈ ["trade_1", "maker", "BTC", "EUR", "EUR", "o"], Fits x
    decide
  · show 1 < 2 ^ 64
    decide

theorem plain_tradeAt (sequence : UInt64) : (tradeAt sequence).Plain :=
  ⟨rfl, rfl, fun _ hd => absurd hd List.not_mem_nil⟩

theorem plain_takenAt (sequence : UInt64) : (takenAt sequence).Plain :=
  have hdates : ∀ arrival ∈ ([(.epoch, acceptance)] : Stream), arrival.1.leap = false := by
    simp [Instant.epoch]
  Engine.plain_run (plain_tradeAt sequence) hdates

theorem takingOn_life {steps : Nat} (hplay : (fresh {}).play (takingOn steps) = some x)
    (hstarted : x.node.started = 1) (horigin : (x.journal 0).origin = some (tradeAt 0))
    (hread : Mail.stream (x.journal 0).read = [(.epoch, acceptance)])
    (hengine : x.node.engine = lenient false)
    (hhanded : x.handed = [(0, tradeAt 0), (0, takenAt 0)]) :
    (fresh {}).Life "trade_1" (takingOn steps) x := by
  refine life_of_play hplay ?_ (fun now s hmem => ?_) (fun _ _ _ => rfl) hstarted horigin ?_ ?_
  · have hwriter :
        (List.replicate steps (atOnce .writer)).countP (Action.takesOn "trade_1") = 0 := by
      refine List.countP_eq_zero.2 fun a ha => ?_
      simp [List.eq_of_mem_replicate ha, atOnce, Action.takesOn]
    rw [takingOn, List.countP_append, hwriter]
    decide
  · simp [takingOn, writing, atOnce] at hmem
  · rw [hread, hengine]
    decide
  · simp [hhanded, storable_tradeAt, storable_takenAt]

/-- A trade is cancelled, and the other side is told. -/
def callingOff : List Action :=
  .call 0 (.dispatch cancellation) :: List.replicate 3 (atOnce (.worker 0))

/-- A trade is resumed, and called off at once. -/
def resuming (t : Trade) : List Action := .resume ⟨.epoch, 0, .farFuture⟩ t.toSnapshot :: callingOff

theorem resuming_life {t : Trade} (hid : t.id = "trade_1") (ht : t.Storable) (hplain : t.Plain)
    (hact : (fresh (holding t)).act (.resume ⟨.epoch, 0, .farFuture⟩ t.toSnapshot) = some x₁)
    (hplay : x₁.play callingOff = some x') (hstarted : x'.node.started = 1)
    (horigin : (x'.journal 0).origin = some t)
    (hfits : t.sequence.toNat +
      (x'.node.engine.history t (Mail.stream (x'.journal 0).read)).length < 2 ^ 64)
    (hstorable : ∀ e ∈ x'.handed, e.2.Storable) :
    (fresh (holding t)).Life "trade_1" (resuming t) x' := by
  refine life_of_play ?_ ?_ (fun now s hmem => ?_) (fun now t' hmem => ?_) hstarted horigin hfits
    hstorable
  · show Option.bind _ _ = _
    rw [hact]
    exact hplay
  · rw [resuming, List.countP_cons]
    show 0 + _ ≤ 1
    split <;> decide
  · obtain ⟨-, rfl⟩ : now = ⟨.epoch, 0, .farFuture⟩ ∧ s = t.toSnapshot := by
      simpa [resuming, callingOff, atOnce] using hmem
    rw [← hid, stored?_holding ht hplain]
  · simp [resuming, callingOff, atOnce] at hmem

theorem messages_resuming {t : Trade} {m : Outbound}
    (hact : (fresh (holding t)).act (.resume ⟨.epoch, 0, .farFuture⟩ t.toSnapshot) = some x₁)
    (hsent : x₁.sentIn callingOff = [(0, m)]) (hid : m.tradeId = id) :
    (fresh (holding t)).messages id (resuming t) = [m] := by
  rw [Watched.messages, resuming, Watched.sentIn_cons hact, hsent]
  simp [sends, hid]

/-- A node takes the trade up that another one left in its backend, and calls it off. -/
theorem crashes_of_two {t : Trade} {m m' : Outbound}
    (hfirst : (fresh {}).Life "trade_1" actions x)
    (hsent : (fresh {}).messages "trade_1" actions = [m]) (hbackend : x.node.backend = holding t)
    (hid : t.id = "trade_1") (ht : t.Storable) (hplain : t.Plain)
    (hsecond : (fresh (holding t)).Life "trade_1" (resuming t) x')
    (hsent' : (fresh (holding t)).messages "trade_1" (resuming t) = [m']) :
    Crashes "trade_1" {} [⟨[m], some t.toSnapshot⟩, ⟨[m'], x'.node.backend.stored? "trade_1"⟩]
      x'.node.backend := by
  have hbefore : Crashes "trade_1" {} ([] ++ [⟨(fresh {}).messages "trade_1" actions,
      x.node.backend.stored? "trade_1"⟩]) x.node.backend := .concat .nil hfirst
  have hstored : (holding t).stored? "trade_1" = some t.toSnapshot := by
    rw [← hid, stored?_holding ht hplain]
  rw [hsent, hbackend, hstored] at hbefore
  rw [← hsent']
  exact .concat hbefore hsecond

/-- The trade after it has been called off. -/
def calledOff : Trade := ((lenient false).handle .epoch (takenAt 0) cancellation).1

theorem storable_calledOff : calledOff.Storable := by
  refine ⟨?_, ?_, ?_, ?_, ?_⟩
  · show Instant.epoch.IsStorable
    decide
  · show Instant.epoch.IsStorable
    decide
  · intro d hd
    cases hd
  · show ∀ x ∈ ["trade_1", "maker", "BTC", "EUR", "EUR", "o", "c"], Fits x
    decide
  · show 2 < 2 ^ 64
    decide

/-! ## The result -/

/-- Over all crashes, a sequence names one message about a trade within a life, and across lives
unless the commit of the first message was lost with the node: then the record is missing or from
before that commit. A counterparty that has been brought nothing but messages from before, whose
commits were not lost, does not take the next one for a repetition. -/
theorem shared_sequences_are_lost {b₀ b : Backend} {pasts : List Past}
    (h : Crashes id b₀ pasts b) :
    (∀ p ∈ pasts, p.sent.Pairwise fun m m' => m.sequence < m'.sequence) ∧
    (pasts.Pairwise fun p p' => ∀ m ∈ p.sent, ∀ m' ∈ p'.sent,
      m.sequence < m'.sequence ∨ p.Lost m) ∧
    ∀ before p after earlier m' later, pasts = before ++ p :: after →
      p.sent = earlier ++ m' :: later →
      ∀ (e : Engine) (t : Trade) (stream : Stream), t.lastPeerSequence = 0 →
        (∀ date received, (date, .inbound received) ∈ stream →
          ∃ m, SentBefore before earlier m ∧ received.sequence = m.sequence) →
        ∀ date received rejection, received.sequence = m'.sequence →
          (e.handle date (e.run t stream).1 (.inbound received)).2 = .rejected rejection →
          rejection.reason ≠ .duplicate := by
  obtain ⟨hlives, hrecords⟩ := h.ascends
  refine ⟨fun p hp => (hlives p hp).1, hrecords.imp fun {p p'} hbeyond m hm m' hm' => ?_, ?_⟩
  · by_cases hlost : p.Lost m
    · exact .inr hlost
    · obtain ⟨s, hs, hle⟩ := Past.exists_of_not_lost hlost
      exact .inl (UInt64.lt_of_le_of_lt hle (hbeyond s hs m' hm'))
  · rintro before p after earlier m' later rfl hsent e t stream hfirst hbrought date received
      rejection hsequence
    refine Engine.reason_ne_duplicate ?_
    rw [Engine.checkReplay, Checks.ite_error_eq_ok_iff, UInt64.not_le, hsequence]
    refine ⟨?_, rfl⟩
    rcases e.lastPeerSequence_run t stream with hlast | ⟨date', received', hmem, hlast⟩
    · rw [hlast, hfirst]
      exact (hlives p (by simp)).2 m' (by simp [hsent])
    · obtain ⟨m, hm, heq⟩ := hbrought date' received' hmem
      rw [hlast, heq]
      exact h.sequence_lt hsent hm

/-- The node crashes when everything is written. The first message of the next one has a sequence of
its own, and a counterparty that has been brought the request does not take it for a repetition. -/
theorem written_sequence_is_not_given_out_again :
    ∃ (p p' : Past) (b : Backend) (m m' : Outbound),
      Crashes "trade_1" {} [p, p'] b ∧ p.sent = [m] ∧ p'.sent = [m'] ∧ ¬p.Lost m ∧
        m.sequence < m'.sequence ∧
        ∀ (e : Engine) (t : Trade) (date date' : Instant) (sender : Peer) (r : Rejection),
          t.lastPeerSequence = 0 →
          (e.handle date' (e.run t [(date, .inbound (m.toInbound sender))]).1
            (.inbound (m'.toInbound sender))).2 = .rejected r → r.reason ≠ .duplicate := by
  obtain ⟨x, m, hplay, hsent, hsequence, hstarted, horigin, hread, hengine, hhanded, hbackend⟩ :
      ∃ (x : Watched) (m : Outbound), (fresh {}).play (takingOn 3) = some x ∧
        (fresh {}).messages "trade_1" (takingOn 3) = [m] ∧ m.sequence = 1 ∧
        x.node.started = 1 ∧ (x.journal 0).origin = some (tradeAt 0) ∧
        Mail.stream (x.journal 0).read = [(.epoch, acceptance)] ∧
        x.node.engine = lenient false ∧ x.handed = [(0, tradeAt 0), (0, takenAt 0)] ∧
        x.node.backend = holding (takenAt 0) :=
    ⟨_, _, rfl, rfl, rfl, rfl, rfl, rfl, rfl, rfl, rfl⟩
  have hfirst := takingOn_life hplay hstarted horigin hread hengine hhanded
  obtain ⟨x₁, x', m', hact, hplay', hsent', hid', hstarted', horigin', hread', hengine',
      hhanded'⟩ :
      ∃ (x₁ x' : Watched) (m' : Outbound),
        (fresh (holding (takenAt 0))).act (.resume ⟨.epoch, 0, .farFuture⟩ (takenAt 0).toSnapshot) =
          some x₁ ∧
        x₁.play callingOff = some x' ∧ x₁.sentIn callingOff = [(0, m')] ∧
        m'.tradeId = "trade_1" ∧ x'.node.started = 1 ∧
        (x'.journal 0).origin = some (takenAt 0) ∧
        Mail.stream (x'.journal 0).read = [(.epoch, cancellation)] ∧
        x'.node.engine = lenient false ∧ x'.handed = [(0, calledOff)] := by
    rw [act_resume (restorable_takenAt 0)]
    exact ⟨_, _, _, rfl, rfl, rfl, rfl, rfl, rfl, rfl, rfl, rfl⟩
  have hsecond := resuming_life rfl (storable_takenAt 0) (plain_takenAt 0) hact hplay' hstarted' horigin'
    (by rw [hread', hengine']; decide) (by simp [hhanded', storable_calledOff])
  have hcrashes := crashes_of_two hfirst hsent hbackend rfl (storable_takenAt 0) (plain_takenAt 0)
    hsecond (messages_resuming hact hsent' hid')
  have hkept : ¬Past.Lost ⟨[m], some (takenAt 0).toSnapshot⟩ m := by
    intro hlost
    have hlt : (1 : UInt64) < m.sequence := hlost _ rfl
    rw [hsequence] at hlt
    exact absurd hlt (by decide)
  obtain ⟨-, hpairs, hfresh⟩ := shared_sequences_are_lost hcrashes
  refine ⟨_, _, _, m, m', hcrashes, rfl, rfl, hkept, ?_,
    fun e t date date' sender r hfirst hrejected => ?_⟩
  · have hpair := List.pairwise_pair.1 hpairs m List.mem_cons_self m' List.mem_cons_self
    exact hpair.resolve_right hkept
  · refine hfresh [_] _ [] [] m' [] rfl rfl e t _ hfirst (fun d received hmem => ?_) date' _ r rfl
      hrejected
    cases List.mem_singleton.1 hmem
    exact ⟨m, .inr ⟨_, List.mem_singleton.2 rfl, List.mem_singleton.2 rfl, hkept⟩, rfl⟩

/-- The node crashes before the transition that sent the request is written. The next one takes the
trade up from the record, and its first message has the sequence of that request. A counterparty
that has acted on the request refuses it as a repetition. -/
theorem sequence_is_given_out_again :
    ∃ (p p' : Past) (b : Backend) (m m' : Outbound),
      Crashes "trade_1" {} [p, p'] b ∧ m ∈ p.sent ∧ m' ∈ p'.sent ∧ m.sequence = m'.sequence ∧
        m.kind ≠ m'.kind ∧
        ∀ (e : Engine) (t : Trade) (date : Instant) (sender : Peer), t.finalized = false →
          t.lastPeerSequence = m.sequence →
          ∃ r, (e.handle date t (.inbound (m'.toInbound sender))).2 = .rejected r ∧
            r.reason = .duplicate := by
  obtain ⟨x, m, hplay, hsent, hsequence, hkind, hstarted, horigin, hread, hengine, hhanded,
      hbackend⟩ :
      ∃ (x : Watched) (m : Outbound), (fresh {}).play (takingOn 0) = some x ∧
        (fresh {}).messages "trade_1" (takingOn 0) = [m] ∧ m.sequence = 1 ∧
        m.kind = .takeOfferRequest ∧ x.node.started = 1 ∧
        (x.journal 0).origin = some (tradeAt 0) ∧
        Mail.stream (x.journal 0).read = [(.epoch, acceptance)] ∧
        x.node.engine = lenient false ∧ x.handed = [(0, tradeAt 0), (0, takenAt 0)] ∧
        x.node.backend = holding (tradeAt 0) :=
    ⟨_, _, rfl, rfl, rfl, rfl, rfl, rfl, rfl, rfl, rfl, rfl⟩
  have hfirst := takingOn_life hplay hstarted horigin hread hengine hhanded
  obtain ⟨x₁, x', m', hact, hplay', hsent', hid', hsequence', hkind', hstarted', horigin', hread',
      hengine', hhanded'⟩ :
      ∃ (x₁ x' : Watched) (m' : Outbound),
        (fresh (holding (tradeAt 0))).act (.resume ⟨.epoch, 0, .farFuture⟩ (tradeAt 0).toSnapshot) =
          some x₁ ∧
        x₁.play callingOff = some x' ∧ x₁.sentIn callingOff = [(0, m')] ∧
        m'.tradeId = "trade_1" ∧ m'.sequence = 1 ∧ m'.kind = .tradeCancelled ∧
        x'.node.started = 1 ∧ (x'.journal 0).origin = some (tradeAt 0) ∧
        Mail.stream (x'.journal 0).read = [(.epoch, cancellation)] ∧
        x'.node.engine = lenient false ∧ x'.handed = [(0, cancelledAt 0)] := by
    rw [act_resume (restorable_tradeAt 0)]
    exact ⟨_, _, _, rfl, rfl, rfl, rfl, rfl, rfl, rfl, rfl, rfl, rfl, rfl⟩
  have hsecond := resuming_life rfl (storable_tradeAt 0) (plain_tradeAt 0) hact hplay' hstarted' horigin'
    (by rw [hread', hengine']; decide) (by simp [hhanded', storable_cancelledAt])
  have hcrashes := crashes_of_two hfirst hsent hbackend rfl (storable_tradeAt 0) (plain_tradeAt 0)
    hsecond (messages_resuming hact hsent' hid')
  refine ⟨_, _, _, m, m', hcrashes, List.mem_cons_self, List.mem_cons_self,
    by rw [hsequence, hsequence'], by simp [hkind, hkind'], fun e t date sender hopen hlast => ?_⟩
  have hreplay : Engine.checkReplay t (.inbound (m'.toInbound sender)) = .error ⟨.duplicate, _⟩ :=
    if_pos (by rw [hlast, hsequence]; exact UInt64.le_of_eq hsequence')
  exact ⟨_, by rw [Engine.handle, Engine.select_of_checkReplay e hopen hreplay], rfl⟩

end Node

end PeerTrade
