import PeerTrade.Proofs.Checks
import PeerTrade.Proofs.Wire.Deadline
import PeerTrade.Snapshot

/-!
# Reading back snapshots

A snapshot whose instants can be stored has a stored form, and is taken back from it as it was
(`Snapshot.exists_encode_eq_ok`), but for what a record does not keep: whether an instant lay within a
leap second (`Snapshot.recorded`). Which bytes stand behind the record makes no difference.
-/

namespace PeerTrade

open Cbor Checks

namespace Snapshot

/-- The texts in a snapshot. -/
def texts (s : Snapshot) : List String :=
  s.tradeId :: s.counterparty.handle :: s.fingerprint :: (s.terms.texts ++ s.consumed)

/-- A snapshot that a record can hold. -/
structure Storable (s : Snapshot) : Prop where
  createdAt : s.createdAt.IsStorable
  updatedAt : s.updatedAt.IsStorable
  deadlines : ∀ d ∈ s.deadlines, d.expiresAt.IsStorable
  texts : ∀ x ∈ s.texts, Fits x
  /-- The numbers of commands and of deadlines fit into the memory of a machine. -/
  lengths : s.consumed.length < 2 ^ 64 ∧ s.deadlines.length < 2 ^ 64

/-! ## Writing -/

theorem encodeDeadlines_eq_ok {deadlines : List Deadline}
    (h : ∀ d ∈ deadlines, d.expiresAt.IsStorable) :
    encodeDeadlines deadlines = .ok (deadlines.flatMap Deadline.stored) := by
  induction deadlines with
  | nil => rfl
  | cons d rest ih =>
    have hd := Deadline.encode_eq_ok (h d List.mem_cons_self)
    have hrest := ih fun d' hd' => h d' (List.mem_cons_of_mem _ hd')
    rw [encodeDeadlines, hd, hrest]
    rfl

/-- The entries of a snapshot that can be stored. -/
def stored (s : Snapshot) : List (Nat × Bytes) := [
  (0, ofNat s.version.toNat),
  (1, ofText s.tradeId),
  (2, ofMember s.role),
  (3, ofMember s.settlement),
  (4, ofMember s.state),
  (5, ofNat s.sequence.toNat),
  (6, s.terms.encode),
  (7, s.counterparty.encode),
  (8, ofInt s.createdAt.nanos),
  (9, ofInt s.updatedAt.nanos),
  (10, ofBool s.finalized),
  (11, ofNat s.lastPeerSequence.toNat),
  (12, ofList ofText s.consumed),
  (13, ofList Deadline.stored s.deadlines),
  (14, ofText s.fingerprint)]

theorem entries_eq_ok {s : Snapshot} (hcreated : s.createdAt.IsStorable)
    (hupdated : s.updatedAt.IsStorable) (hdeadlines : ∀ d ∈ s.deadlines, d.expiresAt.IsStorable) :
    s.entries = .ok s.stored := by
  rw [entries, Instant.encode_eq_ok hcreated, Instant.encode_eq_ok hupdated,
    encodeDeadlines_eq_ok hdeadlines]
  rfl

theorem encode_eq_ok {s : Snapshot} (hs : s.Storable) : s.encode = .ok (ofEntries s.stored) := by
  rw [encode, entries_eq_ok hs.createdAt hs.updatedAt hs.deadlines]
  rfl

/-! ## Reading -/

/-- The snapshot that is read in the place of a stored one. -/
def recorded (s : Snapshot) : Snapshot :=
  { s with
    createdAt := s.createdAt.recorded
    updatedAt := s.updatedAt.recorded
    deadlines := s.deadlines.map Deadline.recorded }

/-- No instant of a snapshot lies within a leap second. -/
structure Plain (s : Snapshot) : Prop where
  createdAt : s.createdAt.leap = false
  updatedAt : s.updatedAt.leap = false
  deadlines : ∀ d ∈ s.deadlines, d.expiresAt.leap = false

theorem plain_recorded (s : Snapshot) : s.recorded.Plain where
  createdAt := s.createdAt.leap_recorded
  updatedAt := s.updatedAt.leap_recorded
  deadlines d hd := by
    obtain ⟨d, -, rfl⟩ := List.mem_map.1 hd
    exact d.expiresAt.leap_recorded

theorem recorded_recorded (s : Snapshot) : s.recorded.recorded = s.recorded := by
  have hlist : (s.deadlines.map Deadline.recorded).map Deadline.recorded =
      s.deadlines.map Deadline.recorded := by
    rw [List.map_map]
    exact List.map_congr_left fun d _ => d.recorded_recorded
  rw [recorded, recorded, Instant.recorded_recorded, Instant.recorded_recorded, hlist]

/-- A snapshot comes back as it was exactly if none of its instants lies within a leap second. -/
theorem Storable.recorded_eq_self_iff {s : Snapshot} (hs : s.Storable) :
    s.recorded = s ↔ s.Plain := by
  constructor
  · intro h
    rw [← h]
    exact s.plain_recorded
  · intro h
    have hlist : s.deadlines.map Deadline.recorded = s.deadlines := by
      refine (List.map_congr_left fun d hd => ?_).trans (List.map_id' _)
      exact (Deadline.recorded_eq_self_iff (hs.deadlines d hd)).2 (h.deadlines d hd)
    rw [recorded, (Instant.recorded_eq_self_iff hs.createdAt).2 h.createdAt,
      (Instant.recorded_eq_self_iff hs.updatedAt).2 h.updatedAt, hlist]

namespace Fields

/-- Reading entries leads from one state to another. -/
inductive ReadsEntries : Fields → List (Nat × Bytes) → Fields → Prop where
  | nil (s : Fields) : ReadsEntries s [] s
  | cons {s s' s'' : Fields} {number : Nat} {b : Bytes} {entries : List (Nat × Bytes)} :
      number < 2 ^ 63 → Reads (readValue number s) b s' → ReadsEntries s' entries s'' →
      ReadsEntries s ((number, b) :: entries) s''

theorem ReadsEntries.reads_readEntries {s s' : Fields} {entries : List (Nat × Bytes)}
    (h : ReadsEntries s entries s') :
    Reads (readEntries entries.length s) (entries.flatMap fun e => ofNat e.1 ++ e.2) s' := by
  induction h with
  | nil s => exact reads_pure s
  | cons hnumber hread hrest ih =>
    refine Reads.bind ?_ ih
    exact (reads_signedInt_ofNat 64 (by omega) hnumber).bind hread

theorem ReadsEntries.reads_read {s : Fields} {entries : List (Nat × Bytes)}
    (hentries : entries.length < 2 ^ 64) (h : ReadsEntries {} entries s) :
    Reads read (ofEntries entries) s :=
  (reads_sizeHead (by decide) hentries).bind h.reads_readEntries

/-- The fields of a snapshot with some numbers. -/
def of (s : Snapshot) (numbers : List Nat) : Fields where
  version := if 0 ∈ numbers then some s.version else none
  tradeId := if 1 ∈ numbers then some s.tradeId else none
  role := if 2 ∈ numbers then some s.role else none
  settlement := if 3 ∈ numbers then some s.settlement else none
  state := if 4 ∈ numbers then some s.state else none
  sequence := if 5 ∈ numbers then some s.sequence else none
  terms := if 6 ∈ numbers then some s.terms else none
  counterparty := if 7 ∈ numbers then some s.counterparty else none
  createdAt := if 8 ∈ numbers then some s.createdAt else none
  updatedAt := if 9 ∈ numbers then some s.updatedAt else none
  finalized := if 10 ∈ numbers then some s.finalized else none
  lastPeerSequence := if 11 ∈ numbers then some s.lastPeerSequence else none
  consumed := if 12 ∈ numbers then some s.consumed else none
  deadlines := if 13 ∈ numbers then some s.deadlines else none
  fingerprint := if 14 ∈ numbers then some s.fingerprint else none

/-- Numbers that no field has make no difference. -/
theorem of_congr {s : Snapshot} {numbers numbers' : List Nat}
    (h : ∀ i < 15, i ∈ numbers ↔ i ∈ numbers') : of s numbers = of s numbers' := by
  simp [of, h]

theorem reads_complete {s : Snapshot} {numbers : List Nat} (h : ∀ i < 15, i ∈ numbers) :
    Reads (of s numbers).complete [] s := by
  have hall : of s numbers = of s (List.range 15) := of_congr fun i hi => by simp [h i hi, hi]
  rw [hall]
  exact fun _ => rfl

/-- The value of a field is read into the fields that are known already. -/
theorem reads_readValue {s : Snapshot} (hs : s.Storable) {e : Nat × Bytes} (he : e ∈ s.stored)
    (numbers : List Nat) :
    Reads (readValue e.1 (of s.recorded numbers)) e.2 (of s.recorded (e.1 :: numbers)) := by
  have hid : Fits s.tradeId := hs.texts _ (by simp [texts])
  have hhandle : Fits s.counterparty.handle := hs.texts _ (by simp [texts])
  have hfingerprint : Fits s.fingerprint := hs.texts _ (by simp [texts])
  have hterms : ∀ x ∈ s.terms.texts, Fits x := fun x hx => hs.texts x (by simp [texts, hx])
  have hconsumed : ∀ x ∈ s.consumed, Reads text (ofText x) x := fun x hx =>
    reads_text (hs.texts x (by simp [texts, hx]))
  have hdeadlines : ∀ d ∈ s.deadlines, Reads Deadline.decode d.stored d.recorded := fun d hd =>
    Deadline.reads_decode (hs.deadlines d hd)
  have hnote {α : Type} {read : Reader α} {f : α → Fields} {b : Bytes} {a : α} {s' : Fields}
      (hread : Reads read b a) (hf : f a = s') : Reads (read >>= fun a => pure (f a)) b s' :=
    hread.bind_nil (hf ▸ reads_pure _)
  simp only [stored, List.mem_cons, List.not_mem_nil, or_false] at he
  -- one case for each field
  rcases he with rfl | rfl | rfl | rfl | rfl | rfl | rfl | rfl | rfl | rfl | rfl | rfl | rfl | rfl |
    rfl
  · exact hnote (reads_uint32 s.version) (by simp [of, recorded])
  · exact hnote (reads_text hid) (by simp [of, recorded])
  · exact hnote (reads_member (by decide) s.role) (by simp [of, recorded])
  · exact hnote (reads_member (by decide) s.settlement) (by simp [of, recorded])
  · exact hnote (reads_member (by decide) s.state) (by simp [of, recorded])
  · exact hnote (reads_uint64 s.sequence) (by simp [of, recorded])
  · exact hnote (Terms.reads_decode hterms) (by simp [of, recorded])
  · exact hnote (Peer.reads_decode hhandle) (by simp [of, recorded])
  · exact hnote (Instant.reads_decode hs.createdAt) (by simp [of, recorded])
  · exact hnote (Instant.reads_decode hs.updatedAt) (by simp [of, recorded])
  · exact hnote (reads_bool s.finalized) (by simp [of, recorded])
  · exact hnote (reads_uint64 s.lastPeerSequence) (by simp [of, recorded])
  · exact hnote (reads_list hs.lengths.1 hconsumed) (by simp [of, recorded])
  · exact hnote (reads_list hs.lengths.2 hdeadlines) (by simp [of, recorded])
  · exact hnote (reads_text hfingerprint) (by simp [of, recorded])

/-- Entries that are read one by one are read in any order. -/
theorem readsEntries_of {s : Snapshot} {entries : List (Nat × Bytes)}
    (hnumbers : ∀ e ∈ entries, e.1 < 2 ^ 63)
    (hread : ∀ e ∈ entries, ∀ numbers,
      Reads (readValue e.1 (of s numbers)) e.2 (of s (e.1 :: numbers))) (numbers : List Nat) :
    ReadsEntries (of s numbers) entries (of s (entries.map Prod.fst ++ numbers)) := by
  induction entries generalizing numbers with
  | nil => exact .nil _
  | cons e entries ih =>
    rw [List.forall_mem_cons] at hnumbers hread
    have hrest := ih hnumbers.2 hread.2 (e.1 :: numbers)
    have hsame : of s (entries.map Prod.fst ++ e.1 :: numbers) =
        of s ((e :: entries).map Prod.fst ++ numbers) :=
      of_congr fun i _ => by simp [or_left_comm]
    exact .cons hnumbers.1 (hread.1 numbers) (hsame ▸ hrest)

end Fields

theorem map_fst_stored (s : Snapshot) : s.stored.map Prod.fst = List.range 15 := rfl

theorem reads_reader {s : Snapshot} (hs : s.Storable) :
    Reads reader (ofEntries s.stored) s.recorded := by
  have hnumbers : ∀ e ∈ s.stored, e.1 < 2 ^ 63 := by simp [stored]
  have hentries := Fields.readsEntries_of hnumbers (fun e he => Fields.reads_readValue hs he) []
  have hcomplete :
      Reads (Fields.of s.recorded (s.stored.map Prod.fst ++ [])).complete [] s.recorded :=
    Fields.reads_complete fun i hi => by simpa [map_fst_stored] using hi
  exact (hentries.reads_read (by simp [stored])).bind_nil hcomplete

/-- A snapshot is taken back from its record whatever stands behind it. -/
theorem decode_append {s : Snapshot} (hs : s.Storable) (hversion : s.version ≤ currentVersion)
    (rest : Bytes) : decode (ofEntries s.stored ++ rest) = .ok s.recorded := by
  have hknown : ¬s.recorded.version > currentVersion := by
    rw [gt_iff_lt, UInt32.not_lt]
    exact hversion
  rw [decode, reads_reader hs rest]
  exact if_neg hknown

/-- A snapshot that can be stored is taken back from its record as it was, but for leap seconds. -/
theorem exists_encode_eq_ok {s : Snapshot} (hs : s.Storable)
    (hversion : s.version ≤ currentVersion) :
    ∃ record, s.encode = .ok record ∧ decode record = .ok s.recorded := by
  have hdecode := decode_append hs hversion []
  rw [List.append_nil] at hdecode
  exact ⟨_, encode_eq_ok hs, hdecode⟩

end Snapshot

end PeerTrade
