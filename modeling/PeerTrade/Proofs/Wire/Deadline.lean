import PeerTrade.Proofs.Cbor.Record
import PeerTrade.Proofs.Wire.Terms
import PeerTrade.Wire.Deadline

/-!
# Reading back peers, instants and deadlines

An instant is stored by its count of nanoseconds. What is read in its place has the same count, and is
the instant itself unless that lay within a leap second (`Instant.recorded_eq_self_iff`); and so for a
deadline.
-/

namespace PeerTrade

open Cbor

theorem Peer.reads_decode {p : Peer} (hhandle : Fits p.handle) : Reads decode p.encode p :=
  reads_form₁ mk (reads_text hhandle)

namespace Instant

theorem encode_eq_ok {t : Instant} (ht : t.IsStorable) : t.encode = .ok (ofInt t.nanos) :=
  if_pos ht

/-- The instant that is read in the place of a stored one. -/
def recorded (t : Instant) : Instant := ofInt64 (Int64.ofInt t.nanos)

theorem leap_recorded (t : Instant) : t.recorded.leap = false := rfl

/-- Within the range a signed number of sixty-four bits loses nothing of the count. -/
theorem nanos_recorded {t : Instant} (ht : t.IsStorable) : t.recorded.nanos = t.nanos := by
  obtain ⟨hlow, hhigh⟩ := ht
  have hnonneg : 0 ≤ if t.leap then t.nanos % 1000000000 else 0 := by
    split
    · exact Int.emod_nonneg _ (by decide)
    · exact Int.le_refl 0
  exact Int64.toInt_ofInt_of_le (by omega) (Int.lt_add_one_of_le hhigh)

theorem isStorable_recorded (t : Instant) : t.recorded.IsStorable := by
  have hlow := (Int64.ofInt t.nanos).le_toInt
  have hhigh := (Int64.ofInt t.nanos).toInt_lt
  refine ⟨?_, Int.le_of_lt_add_one hhigh⟩
  rw [leap_recorded, if_neg Bool.false_ne_true, Int.sub_zero]
  exact hlow

/-- A stored instant comes back as it was exactly if it does not lie within a leap second. -/
theorem recorded_eq_self_iff {t : Instant} (ht : t.IsStorable) :
    t.recorded = t ↔ t.leap = false := by
  constructor
  · intro h
    rw [← h]
    exact t.leap_recorded
  · intro hplain
    obtain ⟨nanos, leap, _, _⟩ := t
    have hnanos := nanos_recorded ht
    obtain rfl : leap = false := hplain
    exact mk.injEq .. ▸ ⟨hnanos, rfl⟩

theorem recorded_recorded (t : Instant) : t.recorded.recorded = t.recorded :=
  (recorded_eq_self_iff t.isStorable_recorded).2 t.leap_recorded

theorem reads_decode {t : Instant} (ht : t.IsStorable) :
    Reads decode (ofInt t.nanos) t.recorded := by
  have hread := (reads_int64 (Int64.ofInt t.nanos)).map ofInt64
  rwa [show (Int64.ofInt t.nanos).toInt = t.nanos from nanos_recorded ht] at hread

end Instant

theorem DeadlineId.reads_decode (d : DeadlineId) : Reads decode d.encode d :=
  reads_form₂ mk (reads_member (by decide) d.kind) (reads_uint64 d.armedAt)

namespace Deadline

/-- The stored form of a deadline whose instant can be stored. -/
def stored (d : Deadline) : Bytes := ofRecord [d.id.encode, ofInt d.expiresAt.nanos]

theorem encode_eq_ok {d : Deadline} (hd : d.expiresAt.IsStorable) : d.encode = .ok d.stored := by
  rw [encode, Instant.encode_eq_ok hd]
  rfl

/-- The deadline that is read in the place of a stored one. -/
def recorded (d : Deadline) : Deadline := { d with expiresAt := d.expiresAt.recorded }

theorem recorded_eq_self_iff {d : Deadline} (hd : d.expiresAt.IsStorable) :
    d.recorded = d ↔ d.expiresAt.leap = false := by
  rw [← Instant.recorded_eq_self_iff hd]
  exact ⟨congrArg expiresAt, fun h => by rw [recorded, h]⟩

theorem recorded_recorded (d : Deadline) : d.recorded.recorded = d.recorded := by
  rw [recorded, recorded, Instant.recorded_recorded]

theorem reads_decode {d : Deadline} (hd : d.expiresAt.IsStorable) :
    Reads decode d.stored d.recorded :=
  reads_form₂ mk d.id.reads_decode (Instant.reads_decode hd)

end Deadline

end PeerTrade
