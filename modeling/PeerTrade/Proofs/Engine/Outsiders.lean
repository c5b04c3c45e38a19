import PeerTrade.Proofs.Engine.Clock
import PeerTrade.Proofs.Engine.Milestones
import PeerTrade.Proofs.Protocol.Draft
import PeerTrade.Proofs.Trade.Origin

/-!
# Outsiders

An event that is rejected leaves no trace. Any of the rejected events can therefore be left out of a
stream at once: the trade ends as it did, and every other event has the outcome that it had
(`Engine.run_pick`). Under a table that was declared behind the envelope guard, the messages of
outsiders and for other trades are among those events, wherever in the stream they come and whatever
they say (`Engine.outsiders_have_no_influence`).
-/

namespace PeerTrade

/-! ## Leaving out members of a list -/

section Pick

variable {α β : Type}

/-- The members of a list at the places that are kept. -/
def pick (keep : Nat → Bool) : List α → List α
  | [] => []
  | a :: rest =>
    if keep 0 then a :: pick (fun i => keep (i + 1)) rest else pick (fun i => keep (i + 1)) rest

/-- To keep the places of some members is to keep those members. -/
theorem pick_eq_filter (p : α → Bool) (l : List α) : pick (fun i => l[i]?.any p) l = l.filter p := by
  induction l with
  | nil => rfl
  | cons a rest ih =>
    have hrest : (fun i => (a :: rest)[i + 1]?.any p) = fun i => rest[i]?.any p := rfl
    rw [pick, hrest, ih, List.filter_cons]
    rfl

theorem pick_eq_filter_zip (p : α → Bool) {l : List α} {m : List β} (h : m.length = l.length) :
    pick (fun i => l[i]?.any p) m = ((l.zip m).filter fun x => p x.1).map (·.2) := by
  induction l generalizing m with
  | nil =>
    rw [List.eq_nil_of_length_eq_zero h]
    rfl
  | cons a rest ih =>
    cases m with
    | nil => cases h
    | cons b rest' =>
      have hrest : (fun i => (a :: rest)[i + 1]?.any p) = fun i => rest[i]?.any p := rfl
      have hkeep : (a :: rest)[0]?.any p = p a := rfl
      rw [pick, hrest, hkeep, ih (Nat.succ.inj h), List.zip_cons_cons, List.filter_cons]
      cases p a <;> rfl

end Pick

namespace Engine

variable {e : Engine} {t : Trade} {now : Instant} {event : Event}

/-! ## Leaving out rejected events -/

/-- Some places of a stream hold nothing but events that are rejected when they come. -/
def RejectsAt (e : Engine) (t : Trade) (stream : Stream) (drop : Nat → Prop) : Prop :=
  ∀ i o, (e.run t stream).2[i]? = some o → drop i → ∃ r, o = .rejected r

/-- Without some of the rejected events the trade ends as it does with them, and all other events
have the same outcomes. -/
theorem run_pick {keep : Nat → Bool} {stream : Stream}
    (h : e.RejectsAt t stream (keep · = false)) :
    e.run t (pick keep stream) = ((e.run t stream).1, pick keep (e.run t stream).2) := by
  induction stream generalizing t keep with
  | nil => rfl
  | cons arrival rest ih =>
    obtain ⟨now, event⟩ := arrival
    have hrest : e.RejectsAt (e.handle now t event).1 rest fun i => keep (i + 1) = false :=
      fun i => h (i + 1)
    rw [run_cons, pick, pick]
    split
    · rw [run_cons, ih hrest]
    next hdrop =>
      -- the next event finds the trade as the rejected one did
      obtain ⟨r, hr⟩ := h 0 _ rfl (Bool.eq_false_iff.2 hdrop)
      rw [handle_fst_of_rejected hr] at hrest ⊢
      exact ih hrest

/-! ## Messages of outsiders -/

theorem rejected_of_not_authentic (e : Engine) (now : Instant)
    (henveloped : t.protocol.Enveloped) (h : ¬event.Authentic t) :
    ∃ r, (e.handle now t event).2 = .rejected r := by
  cases hhandle : e.handle now t event with
  | mk t' outcome =>
    cases outcome with
    | rejected r => exact ⟨r, rfl⟩
    | committed c =>
      obtain ⟨tr, hc⟩ := exists_committed_of_handle hhandle
      exact absurd (henveloped.authentic hc.entry hc.guards) h

theorem rejectsAt_outsiders (e : Engine) (henveloped : t.protocol.Enveloped) (stream : Stream) :
    e.RejectsAt t stream fun i => stream[i]?.any (·.2.Authentic t) = false := by
  induction stream generalizing t with
  | nil => exact fun i o ho => by cases ho
  | cons arrival rest ih =>
    obtain ⟨now, event⟩ := arrival
    have hdeal : t.SameDeal (e.handle now t event).1 := sameDeal_run e t [(now, event)]
    intro i o ho hdrop
    cases i with
    | zero =>
      have hnot : ¬event.Authentic t := by simpa using hdrop
      obtain ⟨r, hr⟩ := rejected_of_not_authentic e now henveloped hnot
      exact ⟨r, (Option.some.inj ho).symm.trans hr⟩
    | succ i =>
      -- the outsiders of the trade remain its outsiders
      have hnext : (e.handle now t event).1.protocol.Enveloped := by
        rw [hdeal.protocol]
        exact henveloped
      have hsame : ∀ x : Event, decide (x.Authentic (e.handle now t event).1) =
          decide (x.Authentic t) := fun x => by simp only [hdeal.authentic_iff]
      refine ih hnext i o ho ?_
      simp only [hsame]
      exact hdrop

/-- Outsiders cannot influence a trade, whatever else its table asks of events. If every message that
comes from anybody but the counterparty, or is meant for another trade, is left out of a stream, then
the trade ends as it did, and all other events have the outcomes that they had; and likewise if any
events are left out that were rejected where they stood. What remains may be handled at other instants,
with the same outcomes and a final trade that differs in its readings of the clock only, unless a guard
of the table looks at these. -/
theorem outsiders_have_no_influence {registry : Registry} {created : Instant} {id : String}
    {combination : Combination} {terms : Terms} {counterparty : Peer} {decls : List Declaration}
    (htable : registry.lookup combination = .ok (Draft.declareAll { combination } decls).1.build)
    (hcreate : Trade.create registry created id combination terms counterparty = .ok t)
    (e : Engine) (stream : Stream) :
    e.run t (stream.filter (·.2.Authentic t)) =
      ((e.run t stream).1,
        ((stream.zip (e.run t stream).2).filter (·.1.2.Authentic t)).map (·.2)) ∧
    (∀ keep : Nat → Bool, e.RejectsAt t stream (keep · = false) →
      e.run t (pick keep stream) = ((e.run t stream).1, pick keep (e.run t stream).2)) ∧
    (t.protocol.Timeless e.context →
      ∀ kept remaining : Stream, remaining.map (·.2) = kept.map (·.2) →
        (e.run t kept).1.Retimed (e.run t remaining).1 ∧
          (e.run t remaining).2 = (e.run t kept).2) := by
  refine ⟨?_, fun keep hrejects => run_pick hrejects,
    fun htimeless kept remaining hevents => run_retimed (.refl t) htimeless hevents⟩
  have henveloped : t.protocol.Enveloped := by
    obtain ⟨-, -, protocol, hlookup, rfl⟩ := Trade.create_eq_ok_iff.1 hcreate
    cases htable.symm.trans hlookup
    exact Draft.enveloped_build combination decls
  -- the messages of outsiders stand at places where everything is rejected
  have hrun := run_pick (rejectsAt_outsiders e henveloped stream)
  rwa [pick_eq_filter, pick_eq_filter_zip _ (length_run_snd e t stream)] at hrun

/-- One message and one command to the end, with a message that is declared a second time. The command
has to be short, which no built-in guard asks for. -/
def shortcut : List Declaration := [
  { states := [.init]
    event := .message .fiatSent
    transition := { target := .fiatSentReceived, arm := [.payout] } },
  { states := [.accountDataSent, .init]
    event := .message .fiatSent
    transition := { target := .completed } },
  { states := [.fiatSentReceived]
    event := .command .confirmFiatReceipt
    transition :=
      { target := .completed
        guards := [.custom "short" 0]
        send := some ⟨.fiatReceiptConfirmed, .command⟩ } }]

/-- The guard of the shortcut. -/
def isShort : CustomCheck where
  check _ _ event :=
    match event with
    | .command c => Guard.ensure (c.payload.length ≤ 32) "too long"
    | .inbound _ | .timeout _ => .error "not a command"

/-- A stranger claims the greatest sequence there is, the counterparty writes about another trade, and
the stranger repeats what the counterparty says. -/
def besieged : Stream :=
  let message := fun (tradeId sender : String) (sequence : UInt64) =>
    Event.inbound ⟨tradeId, sequence, ⟨sender⟩, .fiatSent, [], []⟩
  [(.epoch, message "trade_1" "stranger" 18446744073709551615),
    (.epoch, message "trade_2" "maker" 7),
    (.epoch, message "trade_1" "maker" 1),
    (.epoch, message "trade_1" "stranger" 1),
    (.epoch, .command ⟨"receipt", .confirmFiatReceipt, [1], []⟩)]

/-- The trade under siege ends as it does without it, also a day later. -/
theorem besieged_completes_undisturbed :
    ∃ registry t, ∃ e : Engine, ∃ later : Instant,
      registry.lookup ⟨.sellerAsMaker, .reputationFiat⟩ =
        .ok (Draft.declareAll { combination := ⟨.sellerAsMaker, .reputationFiat⟩ } shortcut).1.build ∧
      Trade.create registry .epoch "trade_1" ⟨.sellerAsMaker, .reputationFiat⟩ Trade.soundTerms
        ⟨"maker"⟩ = .ok t ∧
      later ≠ .epoch ∧ (e.run t besieged).1.state = .completed ∧
      let undisturbed := fun now : Instant =>
        [(now, Event.inbound ⟨"trade_1", 1, ⟨"maker"⟩, .fiatSent, [], []⟩),
          (now, .command ⟨"receipt", .confirmFiatReceipt, [1], []⟩)]
      (e.run t (undisturbed .epoch)).1 = (e.run t besieged).1 ∧
        (e.run t besieged).1.Retimed (e.run t (undisturbed later)).1 := by
  let protocol : Protocol :=
    (Draft.declareAll { combination := ⟨.sellerAsMaker, .reputationFiat⟩ } shortcut).1.build
  let registry : Registry := { tables := Dict.empty.insert protocol.combination protocol }
  let e : Engine :=
    { registry, verifier := { accepts := fun _ _ _ => false }, custom := fun _ => isShort }
  let t : Trade := .initial .epoch "trade_1" ⟨.sellerAsMaker, .reputationFiat⟩ Trade.soundTerms
    ⟨"maker"⟩ protocol
  let later : Instant := Instant.epoch.after (.ofSecs 86400)
  have hcreate : Trade.create registry .epoch "trade_1" ⟨.sellerAsMaker, .reputationFiat⟩
      Trade.soundTerms ⟨"maker"⟩ = .ok t := Trade.create_soundTerms rfl rfl
  have hdone : (e.run t besieged).1.state = .completed := by decide
  have htable : registry.lookup ⟨.sellerAsMaker, .reputationFiat⟩ = .ok protocol := by rfl
  have htimeless : protocol.Timeless e.context := by
    have hguards : ∀ entry ∈ protocol.table.entries, ∀ g ∈ entry.2.guards,
        g = .envelope ∨ g = .custom "short" 0 := by decide
    intro entry hentry g hg
    rcases hguards entry hentry g hg with rfl | rfl
    · exact Guard.BuiltIn.timeless (by decide) _
    · exact fun _ _ _ _ => rfl
  obtain ⟨hsame, -, hretimed⟩ := outsiders_have_no_influence htable hcreate e besieged
  have hundisturbed := congrArg Prod.fst hsame
  have hlater := (hretimed htimeless (besieged.filter (·.2.Authentic t)) [
    (later, .inbound ⟨"trade_1", 1, ⟨"maker"⟩, .fiatSent, [], []⟩),
    (later, .command ⟨"receipt", .confirmFiatReceipt, [1], []⟩)] rfl).1
  rw [hundisturbed] at hlater
  exact ⟨registry, t, e, later, htable, hcreate, by decide, hdone, hundisturbed, hlater⟩

end Engine

end PeerTrade
