import Mathlib.Data.List.Perm.Subperm
import Mathlib.Tactic.IntervalCases
import PeerTrade.Proofs.Cbor.Skip
import PeerTrade.Proofs.Snapshot.RoundTrip

/-!
# Records of other versions

A record may list its fields in any order, and a later version may have added fields of its own:
entries under further numbers, with whatever well-formed items as values, are passed over, and the
snapshot is read as from a record of its own (`decode_foreign`). None of its own fields may be
missing, and a record of a newer version is refused by its number however it is laid out. Passing
over an entry is not quite blind: a text in it still has to be text, so that a well-formed item with a
text that is not is refused together with the record (`invalid_text_is_not_passed`).
-/

namespace PeerTrade.Snapshot

open Cbor

variable {s : Snapshot} {entries known extras : List (Nat × Bytes)}

/-- An entry that none of the fields of a snapshot has. -/
structure IsForeign (e : Nat × Bytes) : Prop where
  low : 15 ≤ e.1
  high : e.1 < 2 ^ 63
  item : Item IsText e.2

/-! ## Reading -/

namespace Fields

theorem readValue_foreign {e : Nat × Bytes} (he : IsForeign e) (f : Fields) :
    readValue e.1 f = unknownField f := by
  obtain ⟨i, b⟩ := e
  have hlow : 15 ≤ i := he.low
  obtain ⟨i, rfl⟩ := Nat.exists_eq_add_of_le' hlow
  rfl

theorem reads_foreign {e : Nat × Bytes} (he : IsForeign e) (s : Snapshot) (numbers : List Nat) :
    Reads (readValue e.1 (of s numbers)) e.2 (of s (e.1 :: numbers)) := by
  have hlow := he.low
  have hsame : of s (e.1 :: numbers) = of s numbers := of_congr fun i hi => by
    have hne : i ≠ e.1 := by omega
    simp [hne]
  rw [readValue_foreign he, hsame]
  exact (reads_skip he.item).bind_nil (reads_pure _)

/-- A map is read entry by entry, whatever their order and whatever else stands between them. -/
theorem reads_read_of (hs : s.Storable) (hlength : entries.length < 2 ^ 64)
    (h : ∀ e ∈ entries, e ∈ s.stored ∨ IsForeign e) :
    Reads read (ofEntries entries) (of s.recorded (entries.map Prod.fst)) := by
  have hnumbers : ∀ e ∈ entries, e.1 < 2 ^ 63 := fun e he => by
    rcases h e he with hstored | hforeign
    · have hnumber : e.1 ∈ s.stored.map Prod.fst := List.mem_map_of_mem hstored
      rw [map_fst_stored, List.mem_range] at hnumber
      omega
    · exact hforeign.high
  have hread : ∀ e ∈ entries, ∀ numbers,
      Reads (readValue e.1 (of s.recorded numbers)) e.2 (of s.recorded (e.1 :: numbers)) :=
    fun e he numbers =>
      (h e he).elim (fun hstored => reads_readValue hs hstored numbers)
        fun hforeign => reads_foreign hforeign s.recorded numbers
  have hentries := readsEntries_of hnumbers hread []
  rw [List.append_nil] at hentries
  exact hentries.reads_read hlength

theorem require_bind_missing {α β : Type} {o : Option α} {f : α → Reader β} {rest : Bytes}
    (h : ∀ a, o = some a → f a rest = .error .missingValue) :
    (require o >>= f) rest = .error .missingValue := by
  cases o with
  | none => rfl
  | some a => exact h a rfl

/-- Without one of its fields there is no snapshot. -/
theorem complete_of_missing {numbers : List Nat} (h : ∃ i < 15, i ∉ numbers) (rest : Bytes) :
    (of s numbers).complete rest = .error .missingValue := by
  have hmem {α : Type} {i : Nat} {a b : α} (h : (if i ∈ numbers then some a else none) = some b) :
      i ∈ numbers := (Option.ite_none_right_eq_some.1 h).1
  -- what has been read so far is known at each field
  refine require_bind_missing fun _ h0 => require_bind_missing fun _ h1 => ?_
  refine require_bind_missing fun _ h2 => require_bind_missing fun _ h3 => ?_
  refine require_bind_missing fun _ h4 => require_bind_missing fun _ h5 => ?_
  refine require_bind_missing fun _ h6 => require_bind_missing fun _ h7 => ?_
  refine require_bind_missing fun _ h8 => require_bind_missing fun _ h9 => ?_
  refine require_bind_missing fun _ h10 => require_bind_missing fun _ h11 => ?_
  refine require_bind_missing fun _ h12 => require_bind_missing fun _ h13 => ?_
  refine require_bind_missing fun _ h14 => ?_
  obtain ⟨i, hi, hmissing⟩ := h
  refine absurd ?_ hmissing
  interval_cases i
  exacts [hmem h0, hmem h1, hmem h2, hmem h3, hmem h4, hmem h5, hmem h6, hmem h7, hmem h8,
    hmem h9, hmem h10, hmem h11, hmem h12, hmem h13, hmem h14]

end Fields

/-! ## Decoding -/

theorem decode_of_all (hs : s.Storable) (hlength : entries.length < 2 ^ 64)
    (h : ∀ e ∈ entries, e ∈ s.stored ∨ IsForeign e) (hall : ∀ i < 15, i ∈ entries.map Prod.fst)
    (rest : Bytes) : decode (ofEntries entries ++ rest) =
      if s.version > currentVersion then .error (.unsupportedVersion s.version)
      else .ok s.recorded := by
  have hread := (Fields.reads_read_of hs hlength h).bind_nil (Fields.reads_complete hall) rest
  rw [decode, reader, hread]
  rfl

theorem decode_of_missing (hs : s.Storable) (hlength : entries.length < 2 ^ 64)
    (h : ∀ e ∈ entries, e ∈ s.stored ∨ IsForeign e)
    (hmissing : ∃ i < 15, i ∉ entries.map Prod.fst) (rest : Bytes) :
    decode (ofEntries entries ++ rest) = .error (.malformed .missingValue) := by
  have hread := Fields.reads_read_of hs hlength h rest
  have hboth : reader (ofEntries entries ++ rest) = .error .missingValue := by
    show (Fields.read (ofEntries entries ++ rest) >>= fun p => p.1.complete p.2) = _
    rw [hread]
    exact Fields.complete_of_missing hmissing rest
  rw [decode, hboth]

/-- Leaving out a field leaves out its number. -/
theorem exists_missing {kept : List (Nat × Bytes)} (hsub : kept.Sublist s.stored)
    (hne : kept ≠ s.stored) : ∃ i < 15, i ∉ kept.map Prod.fst := by
  by_contra hall
  have hsubset : List.range 15 ⊆ kept.map Prod.fst := fun i hi => by
    by_contra hmissing
    exact hall ⟨i, List.mem_range.1 hi, hmissing⟩
  have hlength := (List.subperm_of_subset List.nodup_range hsubset).length_le
  rw [List.length_range, List.length_map] at hlength
  exact hne (hsub.eq_of_length_le hlength)

/-- The entries with another version in the place of their own. -/
def setVersion (v : UInt32) (entries : List (Nat × Bytes)) : List (Nat × Bytes) :=
  entries.map fun e => if e.1 = 0 then (0, ofNat v.toNat) else e

theorem map_fst_setVersion (v : UInt32) (entries : List (Nat × Bytes)) :
    (setVersion v entries).map Prod.fst = entries.map Prod.fst := by
  rw [setVersion, List.map_map]
  refine List.map_congr_left fun e _ => ?_
  by_cases hzero : e.1 = 0 <;> simp [hzero]

theorem stored_or_foreign_setVersion (h : ∀ e ∈ entries, e ∈ s.stored ∨ IsForeign e)
    (v : UInt32) :
    ∀ e ∈ setVersion v entries, e ∈ ({ s with version := v } : Snapshot).stored ∨ IsForeign e := by
  have hstored : ({ s with version := v } : Snapshot).stored = setVersion v s.stored := rfl
  intro e' he'
  obtain ⟨e, he, rfl⟩ := List.mem_map.1 he'
  rcases h e he with hown | hforeign
  · rw [hstored]
    exact .inl (List.mem_map_of_mem hown)
  · have hlow := hforeign.low
    rw [if_neg (by omega)]
    exact .inr hforeign

theorem storable_of_entries (hknown : s.entries = .ok known) (hfits : s.FitsMemory) :
    s.Storable ∧ known = s.stored := by
  have hencode : s.encode = .ok (ofEntries known) := by
    rw [encode, hknown]
    rfl
  have hs := hfits.storable hencode
  rw [entries_eq_ok hs.createdAt hs.updatedAt hs.deadlines] at hknown
  cases hknown
  exact ⟨hs, rfl⟩

/-- A record with the fields in any order and with further entries between them is read as the
snapshot that it was written for, but for leap seconds; without one of the fields it is refused; and
with a version beyond the current one it is refused by its number. -/
theorem decode_foreign (hknown : s.entries = .ok known) (hfits : s.FitsMemory)
    (hversion : s.version ≤ currentVersion) (hextras : ∀ e ∈ extras, IsForeign e)
    (hlength : (known ++ extras).length < 2 ^ 64) :
    (∀ entries, entries.Perm (known ++ extras) →
      ∀ rest, decode (ofEntries entries ++ rest) = .ok s.recorded ∧ (s.recorded = s ↔ s.Plain)) ∧
    (∀ kept entries, kept.Sublist known → kept ≠ known → entries.Perm (kept ++ extras) →
      ∀ rest, decode (ofEntries entries ++ rest) = .error (.malformed .missingValue)) ∧
    ∀ v > currentVersion, ∀ entries, entries.Perm (known ++ extras) →
      ∀ rest, decode (ofEntries (setVersion v entries) ++ rest) =
        .error (.unsupportedVersion v) := by
  obtain ⟨hs, rfl⟩ := storable_of_entries hknown hfits
  have hmem {known' entries' : List (Nat × Bytes)} (hsub : ∀ e ∈ known', e ∈ s.stored)
      (hperm : entries'.Perm (known' ++ extras)) : ∀ e ∈ entries', e ∈ s.stored ∨ IsForeign e :=
    fun e he => (List.mem_append.1 (hperm.mem_iff.1 he)).imp (hsub e) (hextras e)
  have hall {entries' : List (Nat × Bytes)} (hperm : entries'.Perm (s.stored ++ extras)) :
      ∀ i < 15, i ∈ entries'.map Prod.fst := fun i hi => by
    rw [(hperm.map Prod.fst).mem_iff, List.map_append, map_fst_stored]
    exact List.mem_append_left _ (List.mem_range.2 hi)
  refine ⟨fun entries hperm rest => ?_, fun kept entries hsub hne hperm rest => ?_,
    fun v hv entries hperm rest => ?_⟩
  · have hdecode := decode_of_all hs (hperm.length_eq ▸ hlength)
      (hmem (fun _ h => h) hperm) (hall hperm) rest
    rw [if_neg (by simpa using hversion)] at hdecode
    exact ⟨hdecode, hs.recorded_eq_self_iff⟩
  · have hmissing : ∃ i < 15, i ∉ entries.map Prod.fst := by
      obtain ⟨i, hi, hkept⟩ := exists_missing hsub hne
      refine ⟨i, hi, fun hin => ?_⟩
      rw [(hperm.map Prod.fst).mem_iff, List.map_append, List.mem_append] at hin
      refine hin.elim hkept fun hextra => ?_
      obtain ⟨e, he, rfl⟩ := List.mem_map.1 hextra
      exact absurd (hextras e he).low (by omega)
    refine decode_of_missing hs ?_ (hmem hsub.subset hperm) hmissing rest
    have hfewer := hsub.length_le
    rw [hperm.length_eq, List.length_append]
    rw [List.length_append] at hlength
    omega
  · have hs' : ({ s with version := v } : Snapshot).Storable :=
      ⟨hs.createdAt, hs.updatedAt, hs.deadlines, hs.texts, hs.lengths⟩
    have hlength' : (setVersion v entries).length < 2 ^ 64 := by
      rwa [setVersion, List.length_map, hperm.length_eq]
    have hdecode := decode_of_all hs' hlength'
      (stored_or_foreign_setVersion (hmem (fun _ h => h) hperm) v)
      (by rw [map_fst_setVersion]; exact hall hperm) rest
    rwa [if_pos hv] at hdecode

/-- Entries as a later version may add them: a list up to a stop that holds a pair, of a number and
a map up to a stop from a text to a text in parts, and a number behind a tag; and a missing value.
-/
def laterEntries : List (Nat × Bytes) := [
  (15, [0x9f,
    0x82, 0x01, 0xbf, 0x61, 0x61, 0x7f, 0x62, 0xc3, 0xa9, 0x60, 0xff, 0xff,
    0xc1, 0x19, 0x01, 0x00,
    0xff]),
  (2 ^ 31 - 1, [0xf6])]

theorem isForeign_laterEntries : ∀ e ∈ laterEntries, IsForeign e := by
  have hnumber : Item IsText [0x01] := .number (.inl rfl) (@Head.short 0 1 (by decide))
  have hkey : Item IsText [0x61, 0x61] :=
    .string (.inr rfl) ⟨[0x61], [0x61], .short (by decide), fun _ => by decide +kernel, rfl⟩
  have hfirst : Part IsText 3 [0x62, 0xc3, 0xa9] :=
    ⟨[0x62], [0xc3, 0xa9], .short (by decide), fun _ => by decide +kernel, rfl⟩
  have hsecond : Part IsText 3 [0x60] :=
    ⟨[0x60], [], .short (by decide), fun _ => by decide +kernel, rfl⟩
  have hvalue : Item IsText [0x7f, 0x62, 0xc3, 0xa9, 0x60, 0xff] :=
    @Item.parts _ 3 [[0x62, 0xc3, 0xa9], [0x60]] (.inr rfl) (by simp [hfirst, hsecond])
  have hmap : Item IsText [0xbf, 0x61, 0x61, 0x7f, 0x62, 0xc3, 0xa9, 0x60, 0xff, 0xff] :=
    @Item.mapToStop _ 1 [[0x61, 0x61], [0x7f, 0x62, 0xc3, 0xa9, 0x60, 0xff]] rfl
      (by simp [hkey, hvalue])
  have hpair :
      Item IsText [0x82, 0x01, 0xbf, 0x61, 0x61, 0x7f, 0x62, 0xc3, 0xa9, 0x60, 0xff, 0xff] :=
    @Item.list _ [[0x01], [0xbf, 0x61, 0x61, 0x7f, 0x62, 0xc3, 0xa9, 0x60, 0xff, 0xff]] [0x82]
      (.short (by decide)) (by simp [hnumber, hmap])
  have htagged : Item IsText [0xc1, 0x19, 0x01, 0x00] :=
    @Item.tag _ 1 [0xc1] [0x19, 0x01, 0x00] (.short (by decide))
      (.number (.inl rfl) (@Head.two 0 256 (by decide)))
  have hlist := @Item.listToStop IsText
    [[0x82, 0x01, 0xbf, 0x61, 0x61, 0x7f, 0x62, 0xc3, 0xa9, 0x60, 0xff, 0xff],
      [0xc1, 0x19, 0x01, 0x00]]
    (by simp [hpair, htagged])
  have hmissing : Item IsText [0xf6] := .simple (@Head.short 7 22 (by decide))
  rw [laterEntries, List.forall_mem_cons, List.forall_mem_singleton]
  exact ⟨⟨by decide, by decide, hlist⟩, ⟨by decide, by decide, hmissing⟩⟩

theorem farSnapshot_among_later_entries :
    decode (ofEntries (farSnapshot.stored ++ laterEntries).reverse) = .ok farSnapshot ∧
    decode (ofEntries (laterEntries ++ farSnapshot.stored.tail)) =
      .error (.malformed .missingValue) ∧
    decode (ofEntries (setVersion 2 (farSnapshot.stored ++ laterEntries))) =
      .error (.unsupportedVersion 2) := by
  have hknown : farSnapshot.entries = .ok farSnapshot.stored :=
    entries_eq_ok (by decide) (by decide) (by decide)
  have hfits : farSnapshot.FitsMemory := ⟨by decide, by decide, by decide⟩
  obtain ⟨hread, hmissing, hnewer⟩ :=
    decode_foreign hknown hfits (by decide) isForeign_laterEntries (by decide)
  refine ⟨?_, ?_, ?_⟩
  · obtain ⟨hdecode, hsame⟩ := hread _ (List.reverse_perm _) []
    rwa [List.append_nil, hsame.2 ⟨rfl, rfl, by decide⟩] at hdecode
  · have hdecode := hmissing farSnapshot.stored.tail _ (List.tail_sublist _) (by simp [stored])
      List.perm_append_comm []
    rwa [List.append_nil] at hdecode
  · have hdecode := hnewer 2 (by decide) _ (List.Perm.refl _) []
    rwa [List.append_nil] at hdecode

/-- A further entry with a text that is not text is well-formed, but not passed over. And a snapshot
that was last moved in a leap second has entries, from which another snapshot is read. -/
theorem invalid_text_is_not_passed :
    (Item (fun _ => True) [0x61, 0xff] ∧
      decode (ofEntries (farSnapshot.stored ++ [(15, [0x61, 0xff])])) =
        .error (.malformed .utf8)) ∧
    ∃ s : Snapshot, s = { farSnapshot with updatedAt := inLeapSecond } ∧
      ∃ known s', s.entries = .ok known ∧ decode (ofEntries known) = .ok s' ∧ s' ≠ s := by
  have hpart : Part (fun _ => True) 3 [0x61, 0xff] :=
    ⟨[0x61], [0xff], .short (by decide), fun _ => trivial, rfl⟩
  refine ⟨⟨.string (.inr rfl) hpart, by decide +kernel⟩, _, rfl, ?_⟩
  have hentries := entries_eq_ok (s := { farSnapshot with updatedAt := inLeapSecond }) (by decide)
    (by decide) (by decide)
  have hs := (storable_of_entries hentries ⟨by decide, by decide, by decide⟩).1
  have hread := decode_append hs (by decide) []
  rw [List.append_nil] at hread
  exact ⟨_, _, hentries, hread, by decide⟩

end PeerTrade.Snapshot
