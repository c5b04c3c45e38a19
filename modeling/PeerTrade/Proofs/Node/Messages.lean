import PeerTrade.Proofs.Node.Deadlines
import PeerTrade.Proofs.Pair.Basic

/-!
# Messages of workers

A worker hands the messages of its commits to the link one by one. Those that it has handed over and
those that are still pending are the messages of its history (`Node.Watched.sent_of_run`), and each
of these has a sequence of its own, in ascending order and beyond the one that the trade began with
(`Engine.ascends_sent`).
-/

namespace PeerTrade

/-! ## The messages of a history -/

theorem History.filterMap_effects (h : History) :
    h.effects.filterMap Effect.message? = h.sent := by
  rw [History.effects, List.filterMap_flatMap]
  rfl

theorem History.sent_append (h h' : History) : (h ++ h').sent = h.sent ++ h'.sent :=
  List.flatMap_append

namespace Engine

/-- A commit sends at most one message, with its own sequence. -/
theorem sent_of_committed {e : Engine} {now : Instant} {t t' : Trade} {event : Event} {c : Commit}
    (h : e.handle now t event = (t', .committed c)) :
    t'.id = t.id ∧ t'.sequence = t.sequence + 1 ∧
      c.sent.Pairwise (fun m m' => m.sequence < m'.sequence) ∧
      ∀ m ∈ c.sent, m.tradeId = t.id ∧ m.sequence = t'.sequence := by
  obtain ⟨tr, hc⟩ := exists_committed_of_handle h
  obtain ⟨deadlines, rfl⟩ := hc.after
  obtain ⟨u, hid, hsequence, hsent⟩ := hc.sent
  refine ⟨rfl, rfl, ?_, ?_⟩
  · rw [hsent]
    cases tr.send <;> simp
  · rw [hsent, ← hid, show t.sequence + 1 = u.sequence by rw [hsequence, hc.sequence]]
    cases tr.send <;> simp [compose]

/-- The messages of a run ascend, from beyond the sequence with which the trade began. -/
theorem ascends_sent (e : Engine) (t : Trade) (stream : Stream)
    (hfits : t.sequence.toNat + (e.history t stream).length < 2 ^ 64) :
    (e.history t stream).sent.Pairwise (fun m m' => m.sequence < m'.sequence) ∧
      ∀ m ∈ (e.history t stream).sent, m.tradeId = t.id ∧ t.sequence < m.sequence := by
  induction stream generalizing t with
  | nil => exact ⟨.nil, fun m hm => absurd hm List.not_mem_nil⟩
  | cons arrival rest ih =>
    obtain ⟨now, event⟩ := arrival
    cases hhandle : e.handle now t event with
    | mk t' outcome =>
      cases outcome with
      | rejected r =>
        obtain rfl := eq_of_rejected hhandle
        rw [history_cons_of_rejected hhandle] at hfits ⊢
        exact ih t' hfits
      | committed c =>
        obtain ⟨hid, hsequence, hpairs, hsent⟩ := sent_of_committed hhandle
        rw [history_cons_of_committed hhandle] at hfits ⊢
        rw [List.length_cons] at hfits
        have hsucc : t'.sequence.toNat = t.sequence.toNat + 1 := by
          rw [hsequence, UInt64.toNat_add, UInt64.toNat_one]
          omega
        have hlt : t.sequence < t'.sequence := by
          rw [UInt64.lt_iff_toNat_lt]
          omega
        obtain ⟨hrestPairs, hrest⟩ := ih t' (by omega)
        show (c.sent ++ (e.history t' rest).sent).Pairwise _ ∧
          ∀ m ∈ c.sent ++ (e.history t' rest).sent, _
        refine ⟨List.pairwise_append.2 ⟨hpairs, hrestPairs, fun m hm m' hm' => ?_⟩, fun m hm => ?_⟩
        · rw [(hsent m hm).2]
          exact (hrest m' hm').2
        · rcases List.mem_append.1 hm with hm | hm
          · exact ⟨(hsent m hm).1, by rwa [(hsent m hm).2]⟩
          · obtain ⟨hid', hbeyond⟩ := hrest m hm
            exact ⟨hid'.trans hid, UInt64.lt_trans hlt hbeyond⟩

end Engine

namespace Node

variable {x x₁ x' : Watched} {n : Node} {a : Action} {actions : List Action} {k : Nat}
  {w : Worker} {t₀ : Trade}

/-! ## What is handed to the link -/

/-- The messages that a worker hands to the link in an action, with its number; there is one at
most. -/
def sends (n : Node) : Action → List (Nat × Outbound)
  | .step now (.worker k) =>
    ((n.done k (.step now (.worker k))).filterMap Effect.message?).map (k, ·)
  | _ => []

theorem sends_eq (n : Node) (a : Action) :
    n.sends a = n.byWorker (fun n k a => (n.done k a).filterMap Effect.message?) a := by
  cases a with
  | step now actor => cases actor <;> rfl
  | _ => rfl

theorem done_of_absent (hk : n.workers.get? k = none) : n.done k a = [] := by
  cases a with
  | step now actor =>
    cases actor with
    | worker k' =>
      by_cases heq : k' = k
      · subst heq
        simp [done, hk]
      · exact n.done_of_ne heq
    | _ => rfl
  | _ => rfl

theorem isOwn_messages : IsOwn fun n k a => (n.done k a).filterMap Effect.message? := by
  intro n k a hsome
  have hdone : n.done k a ≠ [] := fun hnone => hsome (congrArg (List.filterMap _) hnone)
  constructor
  · cases a with
    | step now actor =>
      cases actor with
      | worker k' =>
        by_cases heq : k' = k
        · exact ⟨now, by rw [heq]⟩
        · exact absurd (n.done_of_ne heq) hdone
      | _ => exact absurd rfl hdone
    | _ => exact absurd rfl hdone
  · cases hk : n.workers.get? k with
    | some w => exact ⟨w, rfl⟩
    | none => exact absurd (done_of_absent hk) hdone

theorem filter_sends (n : Node) (k : Nat) (a : Action) :
    ((n.sends a).filter (·.1 = k)).map (·.2) = (n.done k a).filterMap Effect.message? := by
  rw [sends_eq]
  exact isOwn_messages.filter_byWorker n k a

namespace Watched

/-- The messages that workers hand to the link in some actions, in order. -/
def sentIn (x : Watched) : List Action → List (Nat × Outbound)
  | [] => []
  | a :: rest => x.node.sends a ++ ((x.act a).map (·.sentIn rest)).getD []

theorem sentIn_eq (x : Watched) (actions : List Action) :
    x.sentIn actions =
      x.logIn (byWorker fun n k a => (n.done k a).filterMap Effect.message?) actions := by
  induction actions generalizing x with
  | nil => rfl
  | cons a rest ih =>
    rw [sentIn, logIn, sends_eq]
    cases x.act a with
    | none => rfl
    | some x' => exact congrArg _ (ih x')

theorem sentIn_cons (h : x.act a = some x') (rest : List Action) :
    x.sentIn (a :: rest) = x.node.sends a ++ x'.sentIn rest := by
  rw [sentIn_eq, sentIn_eq, logIn_cons h, sends_eq]

theorem Run.sentIn_concat (h : x.Run actions x₁) (hact : x₁.act a = some x') :
    x.sentIn (actions ++ [a]) = x.sentIn actions ++ x₁.node.sends a := by
  rw [sentIn_eq, sentIn_eq, h.logIn_concat hact, sends_eq]

/-- Whoever hands a message over is a worker. -/
theorem Run.exists_worker_of_mem_sentIn (h : x.Run actions x') (hlinear : Linear x)
    {e : Nat × Outbound} (he : e ∈ x.sentIn actions) :
    ∃ w, x'.node.workers.get? e.1 = some w :=
  h.exists_worker_of_mem_logIn isOwn_messages hlinear (sentIn_eq x actions ▸ he)

/-! ## The messages of a worker -/

/-- The messages that a worker has handed over, and those that are pending, are those of its
history, as far as it has come. -/
def Utters (x : Watched) (k : Nat) (w : Worker) (sent : List Outbound) : Prop :=
  ∀ t₀, (x.journal k).origin = some t₀ → sent ++ w.pending.filterMap Effect.message? =
    (x.node.engine.history t₀ (Mail.stream (x.journal k).read)).sent

theorem Utters.act {sent : List Outbound} {w' : Worker} (h : x.Utters k w sent)
    (hlinear : Linear x) (hact : x.act a = some x') (hk : x.node.workers.get? k = some w)
    (hk' : x'.node.workers.get? k = some w') :
    x'.Utters k w' (sent ++ (x.node.done k a).filterMap Effect.message?) := by
  intro t₀ horigin'
  obtain ⟨horigin, hread⟩ := journal_of_act hlinear hact hk
  rw [horigin] at horigin'
  obtain ⟨t₁, ht₁, hw⟩ := (hlinear.straight k w hk).follows.trade
  cases horigin'.symm.trans ht₁
  rw [List.take_length] at hw
  -- what was pending and what the event adds has been carried out or is pending now
  have hproceeds : Proceeds x.node a k w w' := by
    obtain ⟨n', hn', rfl⟩ := Option.map_eq_some_iff.1 hact
    exact proceeds_of_act hn' hlinear.get?_started hk hk'
  have hmessages := congrArg (List.filterMap Effect.message?) hproceeds
  rw [List.filterMap_append, List.filterMap_append, History.filterMap_effects] at hmessages
  rw [(hlinear.extends_of_act hact).engine, hread, Mail.stream_append, Engine.history_append,
    History.sent_append, ← h t₀ horigin', ← hw, List.append_assoc, List.append_assoc, hmessages]

theorem sent_of_run (h : x.Run actions x') (hlinear : Linear x)
    (hnone : ∀ k, x.node.workers.get? k = none) (hk : x'.node.workers.get? k = some w) :
    x'.Utters k w (((x.sentIn actions).filter (·.1 = k)).map (·.2)) := by
  induction h generalizing w with
  | nil => cases (hnone k).symm.trans hk
  | @concat actions x₁ x₂ a hrun hact ih =>
    rw [hrun.sentIn_concat hact, List.filter_append, List.map_append, filter_sends]
    cases hk₁ : x₁.node.workers.get? k with
    | some w₁ => exact (ih hk₁).act (hlinear.run hrun) hact hk₁ hk
    | none =>
      -- the worker begins with nothing to say
      obtain ⟨-, -, hchores, -⟩ := begins_of_act hact hk₁ hk
      have hsilent : (x.sentIn actions).filter (·.1 = k) = [] := by
        rw [sentIn_eq]
        exact hrun.filter_logIn_of_absent isOwn_messages hlinear hk₁
      have hdone : x₁.node.done k a = [] := done_of_absent hk₁
      have hread : (x₂.journal k).read = [] := by
        obtain ⟨n', hn', rfl⟩ := Option.map_eq_some_iff.1 hact
        show ((x₁.journal k).note _ _ _).read = []
        rw [hk₁, show n'.workers.get? k = some w from hk]
        rfl
      intro t₀ horigin
      rw [hsilent, hdone, hread, Worker.pending, hchores]
      rfl

end Watched

end Node

end PeerTrade
