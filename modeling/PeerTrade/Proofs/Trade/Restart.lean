import PeerTrade.Proofs.Engine.Clock
import PeerTrade.Proofs.Engine.Dates
import PeerTrade.Proofs.Snapshot.RoundTrip

/-!
# Restarts

A trade outlives a restart as a record. What is read back is the trade itself, table and deadlines
included: creating, restoring and every commit keep it `Restorable`, so that nothing about it has
to be found anew. A restart in the middle of a stream therefore changes no outcome
(`Engine.restarts_are_transparent`). The one thing that a record does not keep is whether an instant
lay within a leap second (`Trade.recorded`). A clock never shows such an instant, so that it can only
come from a snapshot that was not taken of a trade.
-/

namespace PeerTrade

open Checks

namespace Trade

variable {registry : Registry} {t : Trade}

/-! ## Trades that a record can hold -/

/-- The texts in a trade that come from outside. -/
def texts (t : Trade) : List String :=
  t.id :: t.counterparty.handle :: (t.terms.texts ++ t.consumed)

/-- A trade whose instants are in the range of a record, and whose texts fit into a machine. -/
structure Storable (t : Trade) : Prop where
  createdAt : t.createdAt.IsStorable
  updatedAt : t.updatedAt.IsStorable
  deadlines : ∀ d ∈ t.deadlines.values, d.expiresAt.IsStorable
  texts : ∀ x ∈ t.texts, Fits x
  consumed : t.consumed.length < 2 ^ 64

theorem Storable.toSnapshot (ht : t.Storable) : t.toSnapshot.Storable where
  createdAt := ht.createdAt
  updatedAt := ht.updatedAt
  deadlines := ht.deadlines
  texts x hx := by
    change x ∈ t.id :: t.counterparty.handle :: t.protocol.fingerprint ::
      (t.terms.texts ++ t.consumed) at hx
    rcases List.mem_cons.1 hx with rfl | hx
    · exact ht.texts _ List.mem_cons_self
    rcases List.mem_cons.1 hx with rfl | hx
    · exact ht.texts _ (List.mem_cons_of_mem _ List.mem_cons_self)
    rcases List.mem_cons.1 hx with rfl | hx
    · exact fits_hexDigest _
    · exact ht.texts x (List.mem_cons_of_mem _ (List.mem_cons_of_mem _ hx))
  lengths := by
    -- there is at most one deadline of a kind
    have hdeadlines : t.toSnapshot.deadlines.length ≤ 5 := by
      show (t.deadlines.entries.map (·.2)).length ≤ 5
      rw [List.length_map]
      exact t.deadlines.length_entries_le
    exact ⟨ht.consumed, Nat.lt_of_le_of_lt hdeadlines (by decide)⟩

theorem Storable.decode_eq_ok (ht : t.Storable) {record : Bytes}
    (h : t.toSnapshot.encode = .ok record) : Snapshot.decode record = .ok t.toSnapshot.recorded := by
  obtain ⟨record', hencode, hdecode⟩ :=
    Snapshot.exists_encode_eq_ok ht.toSnapshot (UInt32.le_refl _)
  rw [h] at hencode
  cases hencode
  exact hdecode

/-! ## What a record keeps of a trade -/

/-- The trade that is read in the place of a stored one. -/
def recorded (t : Trade) : Trade :=
  { t with
    createdAt := t.createdAt.recorded
    updatedAt := t.updatedAt.recorded
    deadlines := t.deadlines.map Deadline.recorded }

/-- No instant of a trade lies within a leap second. -/
abbrev Plain (t : Trade) : Prop := t.toSnapshot.Plain

theorem toSnapshot_recorded (t : Trade) : t.recorded.toSnapshot = t.toSnapshot.recorded := by
  have hvalues : (t.deadlines.map Deadline.recorded).values =
      t.deadlines.values.map Deadline.recorded := by
    simp [Dict.values, Dict.map]
  rw [toSnapshot, recorded, hvalues]
  rfl

/-- What a record does not keep of a trade are readings of the clock. -/
theorem retimed_recorded (t : Trade) : t.Retimed t.recorded := by
  refine .intro _ _ (t.deadlines.map Deadline.recorded) fun k => ?_
  rw [Dict.get?_map, Option.map_map]
  rfl

/-- A trade comes back as it was exactly if none of its instants lies within a leap second. -/
theorem Storable.recorded_eq_self_iff (ht : t.Storable) : t.recorded = t ↔ t.Plain := by
  constructor
  · intro h
    have hsnapshot : t.toSnapshot.recorded = t.toSnapshot := by rw [← toSnapshot_recorded, h]
    rw [Plain, ← hsnapshot]
    exact t.toSnapshot.plain_recorded
  · intro h
    have hcreated := (Instant.recorded_eq_self_iff ht.createdAt).2 h.createdAt
    have hupdated := (Instant.recorded_eq_self_iff ht.updatedAt).2 h.updatedAt
    have hdeadlines : t.deadlines.map Deadline.recorded = t.deadlines :=
      Dict.map_eq_self fun d hd =>
        (Deadline.recorded_eq_self_iff (ht.deadlines d hd)).2 (h.deadlines d hd)
    rw [recorded, hcreated, hupdated, hdeadlines]

/-! ## Deadlines under their kinds -/

/-- Every deadline stands under its own kind. -/
def Keyed (ds : Dict DeadlineKind Deadline) : Prop := ∀ e ∈ ds.entries, e.2.id.kind = e.1

theorem keyed_empty : Keyed {} := by
  intro e he
  cases he

theorem Keyed.insert {ds : Dict DeadlineKind Deadline} (h : Keyed ds) (d : Deadline) :
    Keyed (ds.insert d.id.kind d) := by
  intro e he
  rcases Dict.mem_insertEntry he with rfl | he
  · rfl
  · exact h e he

theorem Keyed.erase {ds : Dict DeadlineKind Deadline} (h : Keyed ds) (k : DeadlineKind) :
    Keyed (ds.erase k) :=
  fun e he => h e (List.mem_filter.1 he).1

theorem keyed_ofList (deadlines : List Deadline) :
    Keyed (.ofList (deadlines.map fun d => (d.id.kind, d))) := by
  -- each deadline is inserted under its own kind
  have hfold : ∀ (l : List Deadline) (ds : Dict DeadlineKind Deadline), Keyed ds →
      Keyed ((l.map fun d => (d.id.kind, d)).foldl (fun ds e => ds.insert e.1 e.2) ds) := by
    intro l
    induction l with
    | nil => exact fun ds h => h
    | cons d rest ih => exact fun ds h => ih _ (h.insert d)
  exact hfold deadlines {} keyed_empty

theorem Keyed.ofList_values {ds : Dict DeadlineKind Deadline} (h : Keyed ds) :
    Dict.ofList (ds.values.map fun d => (d.id.kind, d)) = ds := by
  have hentries : (ds.values.map fun d => (d.id.kind, d)) = ds.entries := by
    rw [Dict.values, List.map_map]
    calc ds.entries.map ((fun d : Deadline => (d.id.kind, d)) ∘ (·.2))
      _ = ds.entries.map fun e => e := List.map_congr_left fun e he => Prod.ext (h e he) rfl
      _ = ds.entries := List.map_id' _
  rw [hentries, Dict.ofList_entries]

/-! ## Trades that can be restored -/

/-- Everything that a registry has to find again is what the trade already has. -/
structure Restorable (registry : Registry) (t : Trade) : Prop where
  id : t.id.isEmpty = false
  table : registry.lookup t.combination = .ok t.protocol
  terms : t.terms.verify = .ok ()
  fingerprint : t.termsFingerprint = t.terms.fingerprint
  keyed : Keyed t.deadlines

/-- What is restored of a trade's own snapshot is the trade. -/
theorem Restorable.restore_toSnapshot (ht : t.Restorable registry) :
    restore registry t.toSnapshot = .ok t := by
  refine restore_eq_ok_iff.2 ⟨ht.id, ht.terms, t.protocol, ht.table, rfl, ?_⟩
  -- all other fields go through the snapshot unchanged
  have hsnapshot : ofSnapshot t.toSnapshot t.protocol =
      { t with
        termsFingerprint := t.terms.fingerprint
        deadlines := .ofList (t.deadlines.values.map fun d => (d.id.kind, d)) } := rfl
  rw [hsnapshot, ht.keyed.ofList_values, ← ht.fingerprint]

theorem Keyed.map {ds : Dict DeadlineKind Deadline} (h : Keyed ds) {f : Deadline → Deadline}
    (hf : ∀ d, (f d).id = d.id) : Keyed (ds.map f) := by
  intro e he
  obtain ⟨e', he', rfl⟩ := List.mem_map.1 he
  exact (congrArg DeadlineId.kind (hf e'.2)).trans (h e' he')

theorem Restorable.recorded (ht : t.Restorable registry) : t.recorded.Restorable registry where
  id := ht.id
  table := ht.table
  terms := ht.terms
  fingerprint := ht.fingerprint
  keyed := ht.keyed.map fun _ => rfl

/-- Whatever is restored of a trade's own snapshot is stored in the same way again. -/
theorem toSnapshot_of_restore {t' : Trade} (hkeyed : Keyed t.deadlines)
    (h : restore registry t.toSnapshot = .ok t') : t'.toSnapshot = t.toSnapshot := by
  obtain ⟨-, -, protocol, -, hfingerprint, rfl⟩ := restore_eq_ok_iff.1 h
  have hvalues : (Dict.ofList (t.deadlines.values.map fun d => (d.id.kind, d))).values =
      t.deadlines.values := by rw [hkeyed.ofList_values]
  simp only [toSnapshot, ofSnapshot, hvalues] at hfingerprint ⊢
  rw [hfingerprint]

theorem Origin.restorable (h : Origin registry t) : t.Restorable registry := by
  cases h with
  | created hcreate =>
    obtain ⟨hid, hterms, protocol, hlookup, rfl⟩ := create_eq_ok_iff.1 hcreate
    exact ⟨hid, hlookup, hterms, rfl, keyed_empty⟩
  | restored hrestore =>
    obtain ⟨hid, hterms, protocol, hlookup, -, rfl⟩ := restore_eq_ok_iff.1 hrestore
    exact ⟨hid, hlookup, hterms, rfl, keyed_ofList _⟩

end Trade

namespace Engine

variable {e : Engine} {t t' : Trade} {now : Instant} {event : Event}

theorem restorable_commit {registry : Registry} {c : Commit} (ht : t.Restorable registry)
    (hcommit : e.handle now t event = (t', .committed c)) : t'.Restorable registry := by
  obtain ⟨tr, hc⟩ := exists_committed_of_handle hcommit
  have hkeyed : Trade.Keyed t'.deadlines := hc.deadlines Trade.Keyed Trade.keyed_empty
    (fun _ k h => h.erase k) (fun _ d h => h.insert d) ht.keyed
  -- a commit touches neither id, combination and table, nor the terms
  obtain ⟨deadlines, rfl⟩ := hc.after
  exact ⟨ht.id, ht.table, ht.terms, ht.fingerprint, hkeyed⟩

theorem restorable_run {registry : Registry} (ht : t.Restorable registry) (e : Engine)
    (stream : Stream) : (e.run t stream).1.Restorable registry :=
  run_induction (P := fun t _ => t.Restorable registry) (h := [])
    (fun _ _ _ _ _ _ ht hcommit => restorable_commit ht hcommit) ht stream

/-! ## Going on after a restart -/

/-- Stores a trade, reads the record and restores what it says. -/
def reload (e : Engine) (t : Trade) : Option Trade := do
  let record ← t.toSnapshot.encode.toOption
  let snapshot ← (Snapshot.decode record).toOption
  (e.restore snapshot).toOption

/-- What happens to a trade between two looks at it. -/
inductive Turn where
  | event (now : Instant) (event : Event)
  /-- The program ends and starts again. -/
  | restart

/-- The stream of events among some turns. -/
def arrivals : List Turn → Stream
  | [] => []
  | .event now event :: rest => (now, event) :: arrivals rest
  | .restart :: rest => arrivals rest

/-- Handles events, with a reload at each restart; there is no result if a reload fails. -/
def runTurns (e : Engine) (t : Trade) : List Turn → Option (Trade × List Outcome)
  | [] => some (t, [])
  | .event now event :: rest => do
    let (t, outcome) := e.handle now t event
    let (t, outcomes) ← e.runTurns t rest
    some (t, outcome :: outcomes)
  | .restart :: rest => do
    let t ← e.reload t
    e.runTurns t rest

theorem reload_eq_some (ht : t.Restorable e.registry) (hstorable : t.Storable) :
    e.reload t = some t.recorded := by
  obtain ⟨record, hencode, hdecode⟩ :=
    Snapshot.exists_encode_eq_ok hstorable.toSnapshot (UInt32.le_refl _)
  have hrestore : e.restore t.toSnapshot.recorded = .ok t.recorded := by
    rw [← Trade.toSnapshot_recorded]
    exact ht.recorded.restore_toSnapshot
  rw [reload, hencode]
  show (Snapshot.decode record).toOption.bind (fun s => (e.restore s).toOption) = some t.recorded
  rw [hdecode]
  show (e.restore t.toSnapshot.recorded).toOption = some t.recorded
  rw [hrestore]
  rfl

theorem runTurns_event {rest : List Turn} {u : Trade} {outcomes : List Outcome}
    (h : e.runTurns (e.handle now t event).1 rest = some (u, outcomes)) :
    e.runTurns t (.event now event :: rest) = some (u, (e.handle now t event).2 :: outcomes) := by
  show (e.runTurns (e.handle now t event).1 rest).bind _ = _
  rw [h]
  rfl

theorem runTurns_eq_run (ht : t.Restorable e.registry) (turns : List Turn)
    (hexact : ∀ before after, turns = before ++ .restart :: after →
      (e.run t (arrivals before)).1.Storable ∧ (e.run t (arrivals before)).1.Plain) :
    e.runTurns t turns = some (e.run t (arrivals turns)) := by
  -- a restart leaves the trade as it is, so that the turns behind it start from the same trade
  induction turns generalizing t with
  | nil => rfl
  | cons turn rest ih =>
    cases turn with
    | event now event =>
      have hnext : (e.handle now t event).1.Restorable e.registry :=
        restorable_run ht e [(now, event)]
      have hrest := ih hnext fun before after heq =>
        hexact (.event now event :: before) after (by rw [heq]; rfl)
      exact runTurns_event hrest
    | restart =>
      obtain ⟨hstorable, hplain⟩ : t.Storable ∧ t.Plain := hexact [] rest rfl
      have hrest := ih ht fun before after heq =>
        hexact (.restart :: before) after (by rw [heq]; rfl)
      rw [runTurns, reload_eq_some ht hstorable, hstorable.recorded_eq_self_iff.2 hplain]
      exact hrest

/-- A restart in a leap second changes no outcome either, if no guard looks at the clock. The trade
that goes on from there differs only in what a record does not keep. -/
theorem runTurns_retimed (ht : t.Restorable e.registry) (htimeless : t.protocol.Timeless e.context)
    (turns : List Turn)
    (hstorable : ∀ before after u outcomes, turns = before ++ .restart :: after →
      e.runTurns t before = some (u, outcomes) → u.Storable) :
    ∃ u, e.runTurns t turns = some (u, (e.run t (arrivals turns)).2) ∧
      (e.run t (arrivals turns)).1.Retimed u := by
  induction turns generalizing t with
  | nil => exact ⟨t, rfl, .refl t⟩
  | cons turn rest ih =>
    cases turn with
    | event now event =>
      have hnext : (e.handle now t event).1.Restorable e.registry :=
        restorable_run ht e [(now, event)]
      have hdeal : t.SameDeal (e.handle now t event).1 := sameDeal_run e t [(now, event)]
      obtain ⟨u, hrest, hretimed⟩ := ih hnext (hdeal.protocol ▸ htimeless)
        fun before after u outcomes heq hbefore =>
          hstorable (.event now event :: before) after u _ (by rw [heq]; rfl)
            (runTurns_event hbefore)
      exact ⟨u, runTurns_event hrest, hretimed⟩
    | restart =>
      have hreload := reload_eq_some ht (hstorable [] rest t [] rfl rfl)
      obtain ⟨u, hrest, hretimed⟩ := ih ht.recorded htimeless
        fun before after u outcomes heq hbefore =>
          hstorable (.restart :: before) after u outcomes (by rw [heq]; rfl)
            (by rw [runTurns, hreload]; exact hbefore)
      -- the events behind the restart find a trade that differs in readings of the clock only
      obtain ⟨hsame, houtcomes⟩ : (e.run t (arrivals rest)).1.Retimed
            (e.run t.recorded (arrivals rest)).1 ∧
          (e.run t.recorded (arrivals rest)).2 = (e.run t (arrivals rest)).2 :=
        run_retimed t.retimed_recorded htimeless rfl
      refine ⟨u, ?_, hsame.trans hretimed⟩
      rw [runTurns, hreload]
      exact hrest.trans (by rw [houtcomes]; rfl)

/-- A trade stays clear of leap seconds as long as the clock does. -/
theorem plain_run (ht : t.Plain) {stream : Stream}
    (hdates : ∀ arrival ∈ stream, arrival.1.leap = false) : (e.run t stream).1.Plain := by
  have hdated := dated_run e t stream
  refine ⟨?_, ?_, fun d hd => ?_⟩
  · show (e.run t stream).1.createdAt.leap = false
    rw [hdated.createdAt]
    exact ht.createdAt
  · show (e.run t stream).1.updatedAt.leap = false
    rcases hdated.updatedAt with hsame | ⟨event, hevent⟩
    · rw [hsame]
      exact ht.updatedAt
    · exact hdates _ hevent
  · rcases hdated.deadlines d hd with hold | ⟨date, harmed⟩
    · exact ht.deadlines d hold
    · obtain ⟨event, hevent⟩ := harmed.mem_stream
      rw [harmed.expiresAt]
      exact Instant.leap_after (hdates _ hevent) _

/-- A restart changes nothing. A trade that came from a registry, and was driven by any events
since, is taken back from its own record as it was, unless one of its instants lies within a leap
second; and wherever restarts stand among the events, every outcome and the final trade are those
without restarts. In a leap second the outcomes still are, if no guard looks at the clock, and the final
trade differs in its readings of the clock only. No instant lies within a leap second if none did in the
beginning and the clock never shows one. -/
theorem restarts_are_transparent (horigin : Trade.Origin e.registry t) :
    (∀ stream, (e.run t stream).1.Storable →
      ∃ record, (e.run t stream).1.toSnapshot.encode = .ok record ∧
        Snapshot.decode record = .ok (e.run t stream).1.recorded.toSnapshot ∧
        e.restore (e.run t stream).1.recorded.toSnapshot = .ok (e.run t stream).1.recorded ∧
        ((e.run t stream).1.recorded = (e.run t stream).1 ↔ (e.run t stream).1.Plain)) ∧
    (∀ turns, (∀ before after, turns = before ++ .restart :: after →
        (e.run t (arrivals before)).1.Storable ∧ (e.run t (arrivals before)).1.Plain) →
      e.runTurns t turns = some (e.run t (arrivals turns))) ∧
    (t.protocol.Timeless e.context → ∀ turns,
      (∀ before after u outcomes, turns = before ++ .restart :: after →
        e.runTurns t before = some (u, outcomes) → u.Storable) →
      ∃ u, e.runTurns t turns = some (u, (e.run t (arrivals turns)).2) ∧
        (e.run t (arrivals turns)).1.Retimed u) ∧
    ∀ stream : Stream, t.Plain → (∀ arrival ∈ stream, arrival.1.leap = false) →
      (e.run t stream).1.Plain := by
  have ht : t.Restorable e.registry := horigin.restorable
  refine ⟨fun stream hstorable => ?_, fun turns hexact => runTurns_eq_run ht turns hexact,
    fun htimeless turns hstorable => runTurns_retimed ht htimeless turns hstorable,
    fun stream hplain hdates => plain_run hplain hdates⟩
  obtain ⟨record, hencode, hdecode⟩ :=
    Snapshot.exists_encode_eq_ok hstorable.toSnapshot (UInt32.le_refl _)
  rw [← Trade.toSnapshot_recorded] at hdecode
  exact ⟨record, hencode, hdecode, (restorable_run ht e stream).recorded.restore_toSnapshot,
    hstorable.recorded_eq_self_iff⟩

/-- A buyer takes an offer, and the program is restarted while the deadline for the answer is
armed. The deadline expires afterwards as if nothing had happened. -/
def restartWhileWaiting : List Turn := [
  .event .epoch (.command ⟨"c", .takeOffer, [], []⟩),
  .restart,
  .event .epoch (.timeout ⟨.takeOfferResponse, 1⟩)]

theorem restartWhileWaiting_is_transparent :
    ∃ e : Engine, ∃ t, Trade.Origin e.registry t ∧
      (∃ record, Snapshot.decode record =
        .ok (e.run t (arrivals (restartWhileWaiting.take 1))).1.toSnapshot) ∧
      e.runTurns t restartWhileWaiting = some (e.run t (arrivals restartWhileWaiting)) ∧
      (e.run t (arrivals restartWhileWaiting)).1.state = .failed := by
  let e : Engine := { registry := .standard, verifier := { accepts := fun _ _ _ => true } }
  let t : Trade := .initial .epoch "trade_1" ⟨.buyerAsTaker, .multisigEscrow⟩ Trade.soundTerms
    ⟨"maker"⟩ Standard.Escrow.buyerAsTaker
  have horigin : Trade.Origin e.registry t := .created (Trade.create_soundTerms rfl rfl)
  have hwaiting : (e.run t (arrivals (restartWhileWaiting.take 1))).1.Storable := by
    refine ⟨?_, ?_, ?_, ?_, ?_⟩ <;> decide
  obtain ⟨hrecord, hturns, -, hclock⟩ := restarts_are_transparent horigin
  have hplain := hclock (arrivals (restartWhileWaiting.take 1)) ⟨rfl, rfl, fun _ h => nomatch h⟩
    (by decide)
  obtain ⟨record, -, hdecode, -, hsame⟩ := hrecord _ hwaiting
  rw [hsame.2 hplain] at hdecode
  refine ⟨e, t, horigin, ⟨record, hdecode⟩, hturns restartWhileWaiting ?_, by rfl⟩
  -- the second turn is the only restart
  rintro (_ | ⟨first, _ | ⟨second, _ | ⟨third, before⟩⟩⟩) after heq
  · cases heq
  · cases heq
    exact ⟨hwaiting, hplain⟩
  · cases heq
  · cases before <;> cases heq

/-- A buyer's trade that was restored with a deadline in a leap second comes back from its record with
the deadline in the next minute. -/
theorem restart_forgets_leap_second :
    ∃ (e : Engine) (s : Snapshot) (t t' : Trade), e.restore s = .ok t ∧ t.Storable ∧
      e.runTurns t [.restart] = some (t', []) ∧ t' ≠ t ∧
      t.deadlines.values.map (·.expiresAt.text) = ["1970-01-01 00:00:60.500 UTC"] ∧
      t'.deadlines.values.map (·.expiresAt.text) = ["1970-01-01 00:01:00.500 UTC"] := by
  let e : Engine := { registry := .standard, verifier := { accepts := fun _ _ _ => true } }
  let t : Trade :=
    { Trade.initial .epoch "trade_1" ⟨.buyerAsTaker, .multisigEscrow⟩ Trade.soundTerms ⟨"maker"⟩
        Standard.Escrow.buyerAsTaker with
      state := .takeOfferSent
      sequence := 1
      deadlines := .ofList [(.takeOfferResponse, ⟨⟨.takeOfferResponse, 1⟩, Snapshot.inLeapSecond⟩)] }
  have hbegun : Trade.Origin e.registry (Trade.initial .epoch "trade_1"
      ⟨.buyerAsTaker, .multisigEscrow⟩ Trade.soundTerms ⟨"maker"⟩ Standard.Escrow.buyerAsTaker) :=
    .created (Trade.create_soundTerms rfl rfl)
  have ht : t.Restorable e.registry :=
    { hbegun.restorable with keyed := Trade.keyed_ofList [⟨⟨.takeOfferResponse, 1⟩, _⟩] }
  have hstorable : t.Storable := by
    refine ⟨?_, ?_, ?_, ?_, ?_⟩ <;> decide
  have hreload := reload_eq_some ht hstorable
  refine ⟨e, t.toSnapshot, t, t.recorded, ht.restore_toSnapshot, hstorable, ?_, ?_, by decide,
    by decide⟩
  · rw [runTurns, hreload]
    rfl
  · rw [ne_eq, hstorable.recorded_eq_self_iff]
    exact fun hplain => absurd (hplain.deadlines _ List.mem_cons_self) (by decide)

end Engine

end PeerTrade
