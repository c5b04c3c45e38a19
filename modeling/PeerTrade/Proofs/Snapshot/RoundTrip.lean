import PeerTrade.Instant.Calendar
import PeerTrade.Proofs.Cbor.Yields
import PeerTrade.Proofs.Snapshot

/-!
# Writing and reading are inverse

A snapshot has a stored form exactly if its instants can be stored, and is then read back as it was,
whatever stands behind the record, unless an instant lay within a leap second. In the other direction,
whatever bytes are accepted as a snapshot, however they were laid out, the snapshot can be written
again and is read back as it is.
-/

namespace PeerTrade

open Cbor Checks

/-! ## What is yielded in the place of terms, peers and deadlines -/

theorem Amount.yields_decode : Yields decode fun _ => True := by
  refine yields_choice fun n read hform => ?_
  split at hform <;> cases hform
  · exact yields_form₁ yields_uint64 fun _ _ => trivial
  · exact yields_form₁ yields_uint64 fun _ _ => trivial
  · exact yields_form₂ yields_uint64 yields_uint64 fun _ _ _ _ => trivial
  · exact yields_form₂ yields_uint64 yields_uint64 fun _ _ _ _ => trivial

theorem Price.yields_decode : Yields decode fun _ => True := by
  refine yields_choice fun n read hform => ?_
  split at hform <;> cases hform
  · exact yields_emptyForm trivial
  · exact yields_form₁ yields_uint64 fun _ _ => trivial
  · exact yields_form₁ yields_int32 fun _ _ => trivial

theorem Rail.yields_decode : Yields decode fun r => ∀ s ∈ r.texts, Fits s := by
  refine yields_choice fun n read hform => ?_
  split at hform <;> cases hform
  iterate 6 exact yields_emptyForm (by simp [texts])
  exact yields_form₁ yields_text fun name hname => by simpa [texts] using hname

namespace Method

/-- The texts among the fields that have been read. -/
structure Fields.Fitting (s : Fields) : Prop where
  rail : ∀ r ∈ s.rail, ∀ x ∈ r.texts, Fits x
  currency : ∀ x ∈ s.currency, Fits x
  country : ∀ x ∈ s.country, Fits x

theorem Fields.yields_read (i : Nat) {s : Fields} (hs : s.Fitting) :
    Yields (read i s) Fitting := by
  unfold read
  split
  · exact Rail.yields_decode.bind fun r hr => yields_pure { hs with rail := by simpa using hr }
  · exact yields_text.bind fun x hx => yields_pure { hs with currency := by simpa using hx }
  · exact (yields_optional yields_text).bind fun o ho => yields_pure { hs with country := ho }
  · exact yields_unknownField hs

theorem yields_decode : Yields decode fun m => ∀ s ∈ m.texts, Fits s := by
  have hstart : Fields.Fitting {} := ⟨by simp, by simp, by simp⟩
  refine (yields_record (fun i s hs => Fields.yields_read i hs) hstart).bind fun s hs => ?_
  refine (yields_require hs.rail).bind fun rail hrail => ?_
  refine (yields_require hs.currency).bind fun currency hcurrency => yields_pure ?_
  simp only [texts, List.mem_append, List.mem_cons, Option.mem_toList]
  rintro x (hx | rfl | hx)
  · exact hrail x hx
  · exact hcurrency
  · exact hs.country x hx

end Method

namespace Terms

theorem yields_readPart (i : Nat) {t : Terms} (ht : ∀ s ∈ t.texts, Fits s) :
    Yields (readPart i t) fun t => ∀ s ∈ t.texts, Fits s := by
  simp only [texts, List.mem_append, List.mem_flatMap, Option.mem_toList] at ht ⊢
  unfold readPart
  split
  · refine (yields_optional yields_text).bind fun o ho => yields_pure ?_
    rintro x ((hx | hx) | hx)
    · exact ho x hx
    · exact ht x (.inl (.inr hx))
    · exact ht x (.inr hx)
  · refine (yields_optional yields_text).bind fun o ho => yields_pure ?_
    rintro x ((hx | hx) | hx)
    · exact ht x (.inl (.inl hx))
    · exact ho x hx
    · exact ht x (.inr hx)
  · exact (yields_optional Amount.yields_decode).bind fun _ _ => yields_pure ht
  · exact (yields_optional Price.yields_decode).bind fun _ _ => yields_pure ht
  · refine (yields_optional Method.yields_decode).bind fun o ho => yields_pure ?_
    rintro x (hx | ⟨m, hm, hx⟩)
    · exact ht x (.inl hx)
    · exact ho m hm x hx
  · exact yields_unknownField ht

theorem yields_decode : Yields decode fun t => ∀ s ∈ t.texts, Fits s :=
  yields_record (fun i _ ht => yields_readPart i ht) (by simp [texts])

end Terms

theorem Peer.yields_decode : Yields decode fun p => Fits p.handle :=
  yields_form₁ yields_text fun _ h => h

namespace Instant

/-- A record holds the instant as it is. -/
def IsExact (t : Instant) : Prop := t.IsStorable ∧ t.leap = false

theorem isExact_ofInt64 (n : Int64) : (ofInt64 n).IsExact := by
  have hrecorded : (ofInt64 n).recorded = ofInt64 n := by
    simp [recorded, ofInt64]
  rw [← hrecorded]
  exact ⟨isStorable_recorded _, leap_recorded _⟩

theorem yields_decode : Yields decode IsExact :=
  yields_int64.map fun n _ => isExact_ofInt64 n

end Instant

theorem DeadlineId.yields_decode : Yields decode fun _ => True :=
  yields_form₂ yields_member yields_uint64 fun _ _ _ _ => trivial

theorem Deadline.yields_decode : Yields decode fun d => d.expiresAt.IsExact :=
  yields_form₂ DeadlineId.yields_decode Instant.yields_decode fun _ _ _ h => h

/-! ## What is yielded in the place of a snapshot -/

namespace Snapshot

/-- Fields that a record holds as they are, as far as they have been read. -/
structure Fields.Exact (s : Fields) : Prop where
  tradeId : ∀ x ∈ s.tradeId, Fits x
  terms : ∀ t ∈ s.terms, ∀ x ∈ t.texts, Fits x
  counterparty : ∀ p ∈ s.counterparty, Fits p.handle
  createdAt : ∀ t ∈ s.createdAt, t.IsExact
  updatedAt : ∀ t ∈ s.updatedAt, t.IsExact
  consumed : ∀ l ∈ s.consumed, l.length < 2 ^ 64 ∧ ∀ x ∈ l, Fits x
  deadlines : ∀ l ∈ s.deadlines, l.length < 2 ^ 64 ∧ ∀ d ∈ l, d.expiresAt.IsExact
  fingerprint : ∀ x ∈ s.fingerprint, Fits x

namespace Fields

theorem yields_readValue (number : Int) {s : Fields} (hs : s.Exact) :
    Yields (readValue number s) Exact := by
  unfold readValue
  split
  · exact yields_uint32.bind fun _ _ => yields_pure { hs with }
  · exact yields_text.bind fun _ h => yields_pure { hs with tradeId := by simpa using h }
  · exact yields_member.bind fun _ _ => yields_pure { hs with }
  · exact yields_member.bind fun _ _ => yields_pure { hs with }
  · exact yields_member.bind fun _ _ => yields_pure { hs with }
  · exact yields_uint64.bind fun _ _ => yields_pure { hs with }
  · exact Terms.yields_decode.bind fun _ h => yields_pure { hs with terms := by simpa using h }
  · exact Peer.yields_decode.bind fun _ h =>
      yields_pure { hs with counterparty := by simpa using h }
  · exact Instant.yields_decode.bind fun _ h =>
      yields_pure { hs with createdAt := by simpa using h }
  · exact Instant.yields_decode.bind fun _ h =>
      yields_pure { hs with updatedAt := by simpa using h }
  · exact yields_bool.bind fun _ _ => yields_pure { hs with }
  · exact yields_uint64.bind fun _ _ => yields_pure { hs with }
  · exact (yields_list yields_text).bind fun _ h =>
      yields_pure { hs with consumed := by simpa using h }
  · exact (yields_list Deadline.yields_decode).bind fun _ h =>
      yields_pure { hs with deadlines := by simpa using h }
  · exact yields_text.bind fun _ h => yields_pure { hs with fingerprint := by simpa using h }
  · exact yields_unknownField hs

theorem yields_readEntry {s : Fields} (hs : s.Exact) : Yields (readEntry s) Exact :=
  (yields_signedInt 64).bind fun number _ => yields_readValue number hs

theorem yields_readEntries (n : Nat) {s : Fields} (hs : s.Exact) :
    Yields (readEntries n s) Exact := by
  induction n generalizing s with
  | zero => exact yields_pure hs
  | succ n ih => exact (yields_readEntry hs).bind fun s hs => ih hs

theorem yields_readEntriesToStop (fuel : Nat) {s : Fields} (hs : s.Exact) :
    Yields (readEntriesToStop fuel s) Exact := by
  induction fuel generalizing s with
  | zero => exact fun _ _ => trivial
  | succ fuel ih =>
    refine yields_peek.bind fun b _ => ?_
    refine .ite (fun _ => ?_) fun _ => ?_
    · exact yields_byte.bind fun _ _ => yields_pure hs
    · exact (yields_readEntry hs).bind fun s hs => ih hs

theorem yields_read : Yields read Exact := by
  have hstart : Exact {} := by constructor <;> simp
  refine (yields_sizeHead 5).bind fun size _ => ?_
  cases size with
  | some n => exact yields_readEntries n hstart
  | none => exact fun input hinput => yields_readEntriesToStop _ hstart input hinput

theorem yields_complete {s : Fields} (hs : s.Exact) :
    Yields s.complete fun s => s.Storable ∧ s.Plain := by
  have hany {α : Type} {o : Option α} : Yields (require o) fun _ => True :=
    yields_require fun _ _ => trivial
  refine hany.bind fun version _ => ?_
  refine (yields_require hs.tradeId).bind fun tradeId htradeId => ?_
  refine hany.bind fun role _ => hany.bind fun settlement _ => hany.bind fun state _ => ?_
  refine hany.bind fun sequence _ => ?_
  refine (yields_require hs.terms).bind fun terms hterms => ?_
  refine (yields_require hs.counterparty).bind fun counterparty hcounterparty => ?_
  refine (yields_require hs.createdAt).bind fun createdAt hcreatedAt => ?_
  refine (yields_require hs.updatedAt).bind fun updatedAt hupdatedAt => ?_
  refine hany.bind fun finalized _ => hany.bind fun lastPeerSequence _ => ?_
  refine (yields_require hs.consumed).bind fun consumed hconsumed => ?_
  refine (yields_require hs.deadlines).bind fun deadlines hdeadlines => ?_
  refine (yields_require hs.fingerprint).bind fun fingerprint hfingerprint => yields_pure ?_
  have hplain : ∀ d ∈ deadlines, d.expiresAt.leap = false := fun d hd => (hdeadlines.2 d hd).2
  refine ⟨?_, hcreatedAt.2, hupdatedAt.2, hplain⟩
  exact
    { createdAt := hcreatedAt.1
      updatedAt := hupdatedAt.1
      deadlines := fun d hd => (hdeadlines.2 d hd).1
      texts := by
        simp only [texts, List.mem_cons, List.mem_append]
        rintro x (rfl | rfl | rfl | hx | hx)
        · exact htradeId
        · exact hcounterparty
        · exact hfingerprint
        · exact hterms x hx
        · exact hconsumed.2 x hx
      lengths := ⟨hconsumed.1, hdeadlines.1⟩ }

end Fields

theorem yields_reader : Yields reader fun s => s.Storable ∧ s.Plain :=
  Fields.yields_read.bind fun _ hs => Fields.yields_complete hs

/-! ## Round trips -/

/-- What can be said of every snapshot in the memory of a machine of sixty-four bits: the lengths of
its texts and lists fit into a word. -/
structure FitsMemory (s : Snapshot) : Prop where
  texts : ∀ x ∈ s.texts, Fits x
  consumed : s.consumed.length < 2 ^ 64
  deadlines : s.deadlines.length < 2 ^ 64

theorem exists_encode_instant_iff {t : Instant} :
    (∃ b, t.encode = .ok b) ↔ t.IsStorable := by
  simp [Instant.encode]

theorem exists_encodeDeadlines_iff {deadlines : List Deadline} :
    (∃ b, encodeDeadlines deadlines = .ok b) ↔ ∀ d ∈ deadlines, d.expiresAt.IsStorable := by
  refine ⟨fun h => ?_, fun h => ⟨_, encodeDeadlines_eq_ok h⟩⟩
  induction deadlines with
  | nil => simp
  | cons d rest ih =>
    obtain ⟨b, hb⟩ := h
    simp only [encodeDeadlines, Deadline.encode, bind_eq_ok_iff, pure_eq_ok_iff] at hb
    obtain ⟨first, ⟨expiresAt, hexpires, -⟩, others, hothers, -⟩ := hb
    exact List.forall_mem_cons.2
      ⟨exists_encode_instant_iff.1 ⟨_, hexpires⟩, ih ⟨_, hothers⟩⟩

/-- A snapshot has a stored form exactly if all its instants have one. -/
theorem exists_encode_iff {s : Snapshot} :
    (∃ record, s.encode = .ok record) ↔ s.createdAt.IsStorable ∧ s.updatedAt.IsStorable ∧
      ∀ d ∈ s.deadlines, d.expiresAt.IsStorable := by
  constructor
  · rintro ⟨record, h⟩
    rw [encode, entries] at h
    simp only [map_eq_ok_iff, bind_eq_ok_iff, pure_eq_ok_iff] at h
    obtain ⟨_, ⟨_, hcreated, _, hupdated, _, hdeadlines, -⟩, -⟩ := h
    exact ⟨exists_encode_instant_iff.1 ⟨_, hcreated⟩, exists_encode_instant_iff.1 ⟨_, hupdated⟩,
      exists_encodeDeadlines_iff.1 ⟨_, hdeadlines⟩⟩
  · rintro ⟨hcreated, hupdated, hdeadlines⟩
    refine ⟨ofEntries s.stored, ?_⟩
    rw [encode, entries_eq_ok hcreated hupdated hdeadlines]
    rfl

theorem FitsMemory.storable {s : Snapshot} {record : Bytes} (hfits : s.FitsMemory)
    (h : s.encode = .ok record) : s.Storable := by
  obtain ⟨hcreated, hupdated, hdeadlines⟩ := exists_encode_iff.1 ⟨record, h⟩
  exact ⟨hcreated, hupdated, hdeadlines, hfits.texts, hfits.consumed, hfits.deadlines⟩

theorem storable_of_decode {bytes : Bytes} {s : Snapshot} (hbytes : bytes.length < 2 ^ 64)
    (h : decode bytes = .ok s) : s.Storable ∧ s.Plain ∧ s.version ≤ currentVersion := by
  have hyields := yields_reader bytes hbytes
  unfold decode at h
  cases hread : reader bytes with
  | error fault =>
    rw [hread] at h
    cases h
  | ok p =>
    obtain ⟨s', rest⟩ := p
    rw [hread] at h hyields
    rw [ite_error_eq_ok_iff, gt_iff_lt, UInt32.not_lt] at h
    obtain ⟨hversion, hs⟩ := h
    cases hs
    exact ⟨hyields.1.1, hyields.1.2, hversion⟩

/-- Writing succeeds exactly for instants in range. What was written is read back whatever stands
behind it, and it is what it was exactly if no instant lay within a leap second. What was read from any
bytes can be written and read back. -/
theorem encode_decode_round_trip :
    (∀ s : Snapshot, (∃ record, s.encode = .ok record) ↔
      s.createdAt.IsStorable ∧ s.updatedAt.IsStorable ∧
        ∀ d ∈ s.deadlines, d.expiresAt.IsStorable) ∧
    (∀ (s : Snapshot) (record rest : Bytes), s.FitsMemory → s.version ≤ currentVersion →
      s.encode = .ok record →
        decode (record ++ rest) = .ok s.recorded ∧ (s.recorded = s ↔ s.Plain)) ∧
    (∀ (bytes : Bytes) (s : Snapshot), bytes.length < 2 ^ 64 → decode bytes = .ok s →
      ∃ record, s.encode = .ok record ∧ ∀ rest, decode (record ++ rest) = .ok s) := by
  refine ⟨fun s => exists_encode_iff, fun s record rest hfits hversion h => ?_,
    fun bytes s hbytes h => ?_⟩
  · have hs := hfits.storable h
    rw [encode_eq_ok hs] at h
    cases h
    exact ⟨decode_append hs hversion rest, hs.recorded_eq_self_iff⟩
  · obtain ⟨hs, hplain, hversion⟩ := storable_of_decode hbytes h
    have hdecode := decode_append hs hversion
    rw [hs.recorded_eq_self_iff.2 hplain] at hdecode
    exact ⟨_, encode_eq_ok hs, hdecode⟩

/-- A snapshot at the ends of what can be stored. -/
def farSnapshot : Snapshot where
  version := 1
  tradeId := "t"
  role := .buyerAsTaker
  settlement := .reputationFiat
  state := .init
  sequence := 0xffffffffffffffff
  terms :=
    { price := some (.float (-2147483648)), method := some ⟨.custom "é", "EUR", none⟩ }
  counterparty := ⟨""⟩
  createdAt := ⟨-2 ^ 63, false, by decide, by decide⟩
  updatedAt := ⟨2 ^ 63 - 1, false, by decide, by decide⟩
  finalized := true
  lastPeerSequence := 0
  consumed := ["c"]
  deadlines := [⟨⟨.payout, 256⟩, .epoch⟩]
  fingerprint := ""

/-- A record of the same snapshot that was not written in the shortest way: its map and its lists
run up to a stop, a head is wider than needed, and there is a field that is not known. -/
def wideRecord : Bytes := [
  0xbf,
  0x00, 0x18, 0x01,
  0x01, 0x61, 0x74,
  0x02, 0x82, 0x01, 0x80,
  0x03, 0x82, 0x00, 0x80,
  0x04, 0x82, 0x00, 0x80,
  0x05, 0x1b, 0xff, 0xff, 0xff, 0xff, 0xff, 0xff, 0xff, 0xff,
  0x06, 0x9f, 0xf6, 0xf6, 0xf6, 0x82, 0x02, 0x81, 0x3a, 0x7f, 0xff, 0xff, 0xff,
    0x83, 0x82, 0x06, 0x81, 0x62, 0xc3, 0xa9, 0x63, 0x45, 0x55, 0x52, 0xf6, 0xff,
  0x07, 0x81, 0x60,
  0x08, 0x3b, 0x7f, 0xff, 0xff, 0xff, 0xff, 0xff, 0xff, 0xff,
  0x09, 0x1b, 0x7f, 0xff, 0xff, 0xff, 0xff, 0xff, 0xff, 0xff,
  0x0a, 0xf5,
  0x0b, 0x00,
  0x0c, 0x9f, 0x61, 0x63, 0xff,
  0x0d, 0x81, 0x82, 0x82, 0x82, 0x04, 0x80, 0x19, 0x01, 0x00, 0x00,
  0x0e, 0x60,
  0x18, 0x63, 0x82, 0x01, 0x02,
  0xff]

theorem farSnapshot_round_trips :
    ∃ record, farSnapshot.encode = .ok record ∧
      decode (record ++ [0xff, 0x00]) = .ok farSnapshot ∧
      decode wideRecord = .ok farSnapshot ∧
      ∃ record', farSnapshot.encode = .ok record' ∧
        ∀ rest, decode (record' ++ rest) = .ok farSnapshot := by
  obtain ⟨hencode, hdecode, hagain⟩ := encode_decode_round_trip
  obtain ⟨record, hrecord⟩ := (hencode farSnapshot).2 (by decide)
  have hfits : farSnapshot.FitsMemory := ⟨by decide, by decide, by decide⟩
  have hwide : decode wideRecord = .ok farSnapshot := by decide +kernel
  obtain ⟨hread, hsame⟩ := hdecode farSnapshot record [0xff, 0x00] hfits (by decide) hrecord
  rw [hsame.2 ⟨rfl, rfl, by decide⟩] at hread
  exact ⟨record, hrecord, hread, hwide, hagain wideRecord farSnapshot (by decide) hwide⟩

/-- Half a second into the leap second at the end of a minute. -/
def inLeapSecond : Instant := ⟨60500000000, true, by decide, by decide⟩

/-- A deadline that expires in a leap second is written, and read as one that expires half a second
into the next minute. -/
theorem leap_second_is_not_recorded :
    let s : Snapshot := { farSnapshot with deadlines := [⟨⟨.payout, 256⟩, inLeapSecond⟩] }
    ∃ record s', s.version ≤ currentVersion ∧ s.encode = .ok record ∧ decode record = .ok s' ∧
      s' ≠ s ∧ s.deadlines.map (·.expiresAt.text) = ["1970-01-01 00:00:60.500 UTC"] ∧
      s'.deadlines.map (·.expiresAt.text) = ["1970-01-01 00:01:00.500 UTC"] := by
  intro s
  obtain ⟨record, hrecord⟩ := exists_encode_iff (s := s).2 (by decide)
  have hs := FitsMemory.storable (s := s) ⟨by decide, by decide, by decide⟩ hrecord
  have hread := decode_append hs (by decide) []
  rw [List.append_nil] at hread
  exact ⟨_, _, by decide, encode_eq_ok hs, hread, by decide, by decide, by decide⟩

end Snapshot

end PeerTrade
