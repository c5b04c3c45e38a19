import PeerTrade.Proofs.Node.Linearization

/-!
# What senders are told

A sender is told that its mail has been accepted when the mail lies in the mailbox. So everything
that was accepted for a worker has been placed there, in the same order (`Node.Watched.Run.accounts`).
-/

namespace PeerTrade.Node

variable {n n' : Node} {x x' : Watched} {a : Action} {actions : List Action}

/-- The mail that was accepted for a worker. -/
def Watched.acceptedFor (x : Watched) (k : Nat) : List Mail :=
  (x.accepted.filter (·.1 == k)).map (·.2)

/-- Mail is accepted by putting it at the end of the mailbox of a worker. -/
theorem accepts_cases (hact : n.act a = some n') :
    n.accepts a = [] ∨ ∃ k w w' mail, n.accepts a = [(k, mail)] ∧ n.heard k a = none ∧
      n.workers.get? k = some w ∧ n'.workers.get? k = some w' ∧
      w'.mailbox.queue = w.mailbox.queue ++ [mail] := by
  cases a with
  | call k request =>
    cases hact
    let called : Node := { n with called := n.called + 1 }
    by_cases hdelivered :
        (called.deliver k (.caller n.called) (request.mail n.called)).2 = .delivered
    · rcases called.deliver_cases k (.caller n.called) (request.mail n.called) with
        ⟨heq, -⟩ | ⟨w, woken, hk, -, heq⟩
      · rw [heq] at hdelivered
        cases hdelivered
      · let w' : Worker := { w with
          mailbox := (w.mailbox.offer (.caller n.called) (request.mail n.called)).1 }
        refine .inr ⟨k, w, w', request.mail n.called, if_pos hdelivered, rfl, hk, ?_, ?_⟩
        · rw [heq]
          exact (get?_setWorker ..).trans (if_pos rfl)
        · rw [heq] at hdelivered
          exact Mailbox.queue_of_delivered hdelivered
    · exact .inl (if_neg hdelivered)
  | enter k sender =>
    cases hact
    by_cases hdelivered : (n.enter k sender).2 = .delivered
    · rcases n.enter_cases k sender with ⟨-, hnot⟩ | ⟨w, mailbox, woken, hk, -, henter, heq⟩
      · exact absurd hdelivered hnot
      · obtain ⟨mail, hmail, rfl⟩ := Option.map_eq_some_iff.1 henter
        rw [heq]
        refine .inr ⟨k, w, { w with mailbox := _ }, mail, ?_, rfl, hk,
          (get?_setWorker ..).trans (if_pos rfl), rfl⟩
        simp [accepts, hdelivered, hk, hmail]
    · exact .inl (if_neg hdelivered)
  | _ => exact .inl rfl

/-- What was accepted for a worker has been placed in its mailbox, in the same order. -/
def Watched.Accounts (x : Watched) : Prop :=
  ∀ k, (x.node.workers.get? k = none → x.acceptedFor k = []) ∧
    (x.acceptedFor k).Sublist (x.journal k).placed

theorem Linear.accounts_act (h : Linear x) (hact : x.act a = some x') (hx : x.Accounts) :
    x'.Accounts := by
  intro k
  obtain ⟨n', hn', rfl⟩ := Option.map_eq_some_iff.1 hact
  have hnew : (x.note a n').acceptedFor k =
      x.acceptedFor k ++ ((x.node.accepts a).filter (·.1 == k)).map (·.2) := by
    simp [Watched.acceptedFor, Watched.note]
  rw [hnew]
  cases hk : x.node.workers.get? k with
  | none =>
    -- nobody is told anything by a worker that is not there
    have hnothing : (x.node.accepts a).filter (·.1 == k) = [] := by
      rcases accepts_cases hn' with hnone | ⟨k', w, w', mail, hone, -, hk', -⟩
      · rw [hnone]
        rfl
      · have hne : k' ≠ k := by
          rintro rfl
          cases hk'.symm.trans hk
        simp [hone, hne]
    rw [(hx k).1 hk, hnothing]
    exact ⟨fun _ => rfl, List.nil_sublist _⟩
  | some w =>
    obtain ⟨w', hk', -⟩ := h.turn hact hk
    refine ⟨fun hnone => (by cases hk'.symm.trans hnone), ?_⟩
    have hkept (hnothing : (x.node.accepts a).filter (·.1 == k) = []) :
        (x.acceptedFor k ++ ((x.node.accepts a).filter (·.1 == k)).map (·.2)).Sublist
          ((x.note a n').journal k).placed := by
      obtain ⟨t₀, ht₀, -⟩ := (h.straight k w hk).follows.trade
      obtain ⟨-, -, hplaced⟩ := (h.extends_of_act hact).journal k t₀ ht₀
      rw [hnothing]
      simpa using (hx k).2.trans hplaced.sublist
    rcases accepts_cases hn' with hnone | ⟨k₁, w₁, w₂, mail, hone, hheard, hk₁, hk₂, hqueue⟩
    · exact hkept (by rw [hnone]; rfl)
    · by_cases heq : k₁ = k
      · subst heq
        have hplaced : ((x.note a n').journal k₁).placed = (x.journal k₁).placed ++ [mail] := by
          show ((x.journal k₁).note _ _ _).placed = _
          rw [hheard, hk₁, hk₂]
          simp [Journal.note, hqueue]
        rw [hplaced, hone]
        simpa using (hx k₁).2.append_right [mail]
      · exact hkept (by simp [hone, heq])

theorem accounts_new (name : String) (engine : Engine) (settings : WorkerSettings)
    (backend : Backend) (identity : Peer) :
    (Watched.new name engine settings backend identity).Accounts :=
  fun _ => ⟨fun _ => rfl, List.nil_sublist _⟩

theorem Watched.Run.accounts (h : x.Run actions x') (hlinear : Linear x) (hx : x.Accounts) :
    x'.Accounts := by
  induction h with
  | nil => exact hx
  | concat hrun hact ih => exact (hlinear.run hrun).accounts_act hact ih

end PeerTrade.Node
