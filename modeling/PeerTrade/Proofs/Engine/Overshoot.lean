import PeerTrade.Proofs.Engine.Dates
import PeerTrade.Proofs.Snapshot.RoundTrip
import PeerTrade.Proofs.Store.Steps
import PeerTrade.Settings.Basic

/-!
# Deadlines beyond the reach of a record

A deadline may last any number of seconds. A shift of the clock gives up only behind the last day of
the calendar, whereas a record ends much earlier. A deadline that expires between the two
(`Instant.Overshoots`) has no stored form, so that the trade cannot be stored for as long as the
deadline is armed; a shorter deadline, and one that the calendar does not reach either, do no harm.
-/

namespace PeerTrade

/-! ## Shifts of the clock -/

namespace Instant

/-- A delay leads to an instant that is still in the calendar, but in no record. -/
def Overshoots (date : Instant) (delay : Duration) : Prop :=
  9223372036854775807 < date.nanosAfter delay ∧
    date.nanosAfter delay ≤ 8210266876799999999999

instance (date : Instant) (delay : Duration) : Decidable (date.Overshoots delay) :=
  inferInstanceAs (Decidable (_ ∧ _))

/-- A date that a record can hold is shifted out of it exactly by the delays that overshoot. -/
theorem isStorable_after_iff {date : Instant} {delay : Duration} (hdate : date.IsStorable) :
    (date.after delay).IsStorable ↔ ¬date.Overshoots delay := by
  by_cases hreaches : date.Reaches delay
  · obtain ⟨hnanos, hleap⟩ := shift?_eq_some_iff.1 hreaches.shift?_eq
    obtain ⟨hlow, hhigh⟩ := hdate
    rw [reaches_iff] at hreaches
    rw [IsStorable, Overshoots, hnanos, hleap]
    cases hdate : date.leap with
    | false =>
      simp only [lingers_of_plain hdate, nanosAfter_of_plain hdate, hdate, Bool.false_eq_true,
        if_false, false_or] at hreaches hlow ⊢
      omega
    | true =>
      -- the full second stays the same within the leap second, and is the next one behind it
      simp only [hdate, if_true] at hlow
      rcases nanosAfter_of_leap hdate delay with ⟨hlingers, hwithin, heq⟩ | ⟨hlingers, hbehind, heq⟩
      · simp only [hlingers, heq, if_true]
        omega
      · simp only [hlingers, heq, Bool.false_eq_true, if_false, false_or] at hreaches ⊢
        omega
  · rw [after_of_not_reaches hreaches]
    refine iff_of_true hdate fun hovershoots => hreaches (reaches_iff.2 (.inr hovershoots.2))

end Instant

/-! ## Requests to an open store -/

namespace Store

/-- A store that is open passes a snapshot on exactly if it has a stored form. -/
theorem schedule_of_open {s : Store} (hopen : s.closed = false) (t : Trade) :
    (∀ record, t.toSnapshot.encode = .ok record → (s.schedule t).1 =
      { s with issued := s.issued + 1 }.enqueue ⟨s.issued, t.id, t.sequence⟩ record) ∧
    (¬(∃ record, t.toSnapshot.encode = .ok record) → (s.schedule t).1 =
      { s with issued := s.issued + 1 }.reply [⟨s.issued, t.id, t.sequence⟩] fun w =>
        failure w (StoreError.encode .instantOutOfRange).message) := by
  cases hencode : t.toSnapshot.encode with
  | ok record =>
    refine ⟨fun record' h => ?_, fun hnone => absurd ⟨record, rfl⟩ hnone⟩
    cases h
    exact (schedule_of_encode_ok hencode s).trans (if_neg (by simp [hopen]))
  | error cause =>
    refine ⟨fun record h => (by cases h), fun _ => ?_⟩
    rw [schedule_of_encode_error hencode]

end Store

/-! ## Which trades can be stored -/

namespace Engine

variable {e : Engine} {t : Trade} {stream : Stream} {d : Deadline}

/-- A deadline that overshoots is armed at the end of a run. -/
def Overshot (e : Engine) (t : Trade) (stream : Stream) : Prop :=
  ∃ d ∈ (e.run t stream).1.deadlines.values, ∃ date, e.ArmedOn t stream date d ∧
    date.Overshoots (e.deadlines.duration d.id.kind)

variable {created : Instant} {id : String} {combination : Combination} {terms : Terms}
  {counterparty : Peer}

/-- A trade has a stored form exactly if no deadline that it has armed overshoots. -/
theorem exists_encode_run_iff
    (hcreate : e.create created id combination terms counterparty = .ok t)
    (hcreated : created.IsStorable) (hdates : ∀ arrival ∈ stream, arrival.1.IsStorable) :
    (∃ record, (e.run t stream).1.toSnapshot.encode = .ok record) ↔ ¬e.Overshot t stream := by
  have hdated := dated_run e t stream
  have hbegun : t.createdAt = created ∧ t.updatedAt = created := by
    obtain ⟨-, -, protocol, -, rfl⟩ := Trade.create_eq_ok_iff.1 hcreate
    exact ⟨rfl, rfl⟩
  have hcreatedAt : (e.run t stream).1.createdAt.IsStorable := by
    rw [hdated.createdAt, hbegun.1]
    exact hcreated
  have hupdatedAt : (e.run t stream).1.updatedAt.IsStorable := by
    rcases hdated.updatedAt with hsame | ⟨event, hevent⟩
    · rw [hsame, hbegun.2]
      exact hcreated
    · exact hdates _ hevent
  -- an armed deadline can be stored exactly if it does not overshoot
  have hstorable {date : Instant} {d : Deadline} (harmed : e.ArmedOn t stream date d) :
      d.expiresAt.IsStorable ↔ ¬date.Overshoots (e.deadlines.duration d.id.kind) := by
    obtain ⟨event, hevent⟩ := harmed.mem_stream
    rw [harmed.expiresAt]
    exact Instant.isStorable_after_iff (hdates _ hevent)
  rw [Snapshot.exists_encode_iff]
  constructor
  · rintro ⟨-, -, hdeadlines⟩ ⟨d, hd, date, harmed, hovershoots⟩
    exact (hstorable harmed).1 (hdeadlines d hd) hovershoots
  · intro hnone
    refine ⟨hcreatedAt, hupdatedAt, fun d hd => ?_⟩
    obtain ⟨date, harmed⟩ := exists_armedOn_of_create hcreate hd
    exact (hstorable harmed).2 fun hovershoots => hnone ⟨d, hd, date, harmed, hovershoots⟩

/-- Which trades can be stored. Every deadline that a trade has armed after a run expires a length
of its kind after the date on which it was armed. The snapshot of the trade has a stored form exactly
if none of them overshoots, so in particular if no length of the settings overshoots from any date of
the run. A store that is open passes the snapshot on in this case, and answers the request with a
failure, without the backend being asked, in every other one. -/
theorem storable_unless_overshot
    (hcreate : e.create created id combination terms counterparty = .ok t)
    (hcreated : created.IsStorable) (hdates : ∀ arrival ∈ stream, arrival.1.IsStorable) :
    (∀ d ∈ (e.run t stream).1.deadlines.values, ∃ date, e.ArmedOn t stream date d) ∧
    ((∃ record, (e.run t stream).1.toSnapshot.encode = .ok record) ↔ ¬e.Overshot t stream) ∧
    ((∀ arrival ∈ stream, ∀ kind, ¬arrival.1.Overshoots (e.deadlines.duration kind)) →
      ¬e.Overshot t stream) ∧
    ∀ s : Store, s.closed = false →
      (¬e.Overshot t stream → ∃ record, (e.run t stream).1.toSnapshot.encode = .ok record ∧
        (s.schedule (e.run t stream).1).1 = { s with issued := s.issued + 1 }.enqueue
          ⟨s.issued, t.id, (e.run t stream).1.sequence⟩ record) ∧
      (e.Overshot t stream → (s.schedule (e.run t stream).1).1 =
        { s with issued := s.issued + 1 }.reply
          [⟨s.issued, t.id, (e.run t stream).1.sequence⟩] fun w =>
            Store.failure w (StoreError.encode .instantOutOfRange).message) := by
  have hencodes := exists_encode_run_iff hcreate hcreated hdates
  refine ⟨fun d hd => exists_armedOn_of_create hcreate hd, hencodes, ?_, fun s hopen => ?_⟩
  · rintro hwithin ⟨d, -, date, harmed, hovershoots⟩
    obtain ⟨event, hevent⟩ := harmed.mem_stream
    exact hwithin _ hevent d.id.kind hovershoots
  · obtain ⟨hpasses, hfails⟩ := Store.schedule_of_open hopen (e.run t stream).1
    rw [run_id] at hpasses hfails
    refine ⟨fun hnone => ?_, fun hovershot => hfails fun hsome => hencodes.1 hsome hovershot⟩
    obtain ⟨record, hrecord⟩ := hencodes.2 hnone
    exact ⟨record, hrecord, hpasses record hrecord⟩

/-! ## Offers with a far deadline -/

/-- A buyer's engine under some settings. -/
def offering (deadlines : DeadlineSettings) : Engine :=
  { registry := .standard, verifier := { accepts := fun _ _ _ => false }, deadlines }

/-- A buyer's trade that was created on a date. -/
def offered (date : Instant) : Trade :=
  .initial date "trade_1" ⟨.buyerAsTaker, .reputationFiat⟩ Trade.soundTerms ⟨"maker"⟩
    (Standard.Reputation.table .buyerAsTaker)

/-- The buyer takes the offer. -/
def taking : Event := .command ⟨"take", .takeOffer, [], []⟩

theorem create_offered (deadlines : DeadlineSettings) (date : Instant) :
    (offering deadlines).create date "trade_1" ⟨.buyerAsTaker, .reputationFiat⟩ Trade.soundTerms
      ⟨"maker"⟩ = .ok (offered date) :=
  Trade.create_soundTerms rfl rfl

theorem values_taking (deadlines : DeadlineSettings) (date : Instant) :
    ((offering deadlines).run (offered date) [(date, taking)]).1.deadlines.values =
      [⟨⟨.takeOfferResponse, 1⟩, date.after (deadlines.duration .takeOfferResponse)⟩] := rfl

theorem isStorable_taking : ∀ arrival ∈ [(Instant.epoch, taking)], arrival.1.IsStorable := by
  intro arrival harrival
  rw [List.mem_singleton.1 harrival]
  decide

/-- Whenever the time for an answer overshoots, taking the offer makes a trade that cannot be
stored. -/
theorem overshot_taking {deadlines : DeadlineSettings} {date : Instant}
    (h : date.Overshoots (deadlines.duration .takeOfferResponse)) :
    (offering deadlines).Overshot (offered date) [(date, taking)] := by
  let d : Deadline := ⟨⟨.takeOfferResponse, 1⟩, date.after (deadlines.duration .takeOfferResponse)⟩
  have harmed :
      d ∈ ((offering deadlines).run (offered date) [(date, taking)]).1.deadlines.values := by
    rw [values_taking]
    exact List.mem_singleton_self d
  obtain ⟨date', hdate'⟩ := exists_armedOn_of_create (create_offered deadlines date) harmed
  obtain ⟨event, hevent⟩ := hdate'.mem_stream
  cases List.mem_singleton.1 hevent
  exact ⟨d, harmed, date, hdate', h⟩

/-- The answer to an offer may take longer than the calendar lasts: the deadline falls back to the
date of the offer, and the trade is stored. -/
theorem endless_offer_is_stored :
    ∃ (deadlines : DeadlineSettings) (t t' : Trade) (record : Bytes),
      deadlines.takeOfferResponse = 10000000000000 ∧
      (offering deadlines).create .epoch "trade_1" ⟨.buyerAsTaker, .reputationFiat⟩
        Trade.soundTerms ⟨"maker"⟩ = .ok t ∧
      ((offering deadlines).run t [(.epoch, taking)]).1 = t' ∧
      t'.deadlines.values = [⟨⟨.takeOfferResponse, 1⟩, .epoch⟩] ∧
      t'.toSnapshot.encode = .ok record ∧
      (({} : Store).schedule t').1 =
        ({ issued := 1 } : Store).enqueue ⟨0, "trade_1", 1⟩ record := by
  let deadlines : DeadlineSettings := { takeOfferResponse := 10000000000000 }
  have hcreate := create_offered deadlines .epoch
  obtain ⟨-, -, hwithin, hstore⟩ := storable_unless_overshot hcreate (by decide) isStorable_taking
  have hnone : ¬(offering deadlines).Overshot (offered .epoch) [(.epoch, taking)] := by
    refine hwithin fun arrival harrival kind => ?_
    rw [List.mem_singleton.1 harrival]
    cases kind <;> decide
  obtain ⟨record, hrecord, hschedule⟩ := (hstore {} rfl).1 hnone
  have hexpires : Instant.epoch.after (deadlines.duration .takeOfferResponse) = .epoch :=
    Instant.after_of_not_reaches (by rw [Instant.reaches_iff]; decide)
  have harmed := values_taking deadlines .epoch
  rw [hexpires] at harmed
  exact ⟨deadlines, offered .epoch, _, record, rfl, hcreate, rfl, harmed, hrecord, hschedule⟩

/-- A configuration that leaves the maker of an offer some three centuries for the answer. -/
def patient : Toml.Value := .table .header [
  ("deadlines", .table .header [("take_offer_response_secs", .integer 10000000000)])]

/-- A buyer's trade after the offer was taken under such settings. -/
def patientOffer : Trade :=
  ((offering { takeOfferResponse := 10000000000 }).run (offered .epoch) [(.epoch, taking)]).1

theorem not_exists_encode_patientOffer :
    ¬∃ record, patientOffer.toSnapshot.encode = .ok record := by
  intro h
  exact (exists_encode_run_iff (create_offered _ .epoch) (by decide) isStorable_taking).1 h
    (overshot_taking (by decide))

/-- Under settings that are accepted, an offer is taken and cannot be stored: the request fails
before the backend is asked. -/
theorem patient_offer_cannot_be_stored :
    ∃ (settings : Settings) (t : Trade) (c : Commit), Settings.ofValue patient = some settings ∧
      (offering settings.deadlines).create .epoch "trade_1" ⟨.buyerAsTaker, .reputationFiat⟩
        Trade.soundTerms ⟨"maker"⟩ = .ok t ∧
      (offering settings.deadlines).run t [(.epoch, taking)] = (patientOffer, [.committed c]) ∧
      ¬(∃ record, patientOffer.toSnapshot.encode = .ok record) ∧
      (({} : Store).schedule patientOffer).1.answers = [⟨⟨0, "trade_1", 1⟩, .error ⟨"trade_1", 1,
        "failed to encode snapshot: " ++
          "failed to encode timestamp. timestamp_nanos_opt returned None"⟩⟩] ∧
      (({} : Store).schedule patientOffer).1.order = [] := by
  have hschedule := (Store.schedule_of_open (s := {}) rfl patientOffer).2
    not_exists_encode_patientOffer
  refine ⟨{ deadlines := { takeOfferResponse := 10000000000 } }, offered .epoch, _, by decide,
    create_offered _ .epoch, rfl, not_exists_encode_patientOffer, ?_, ?_⟩
  · rw [hschedule]
    rfl
  · rw [hschedule]
    rfl

end Engine

end PeerTrade
