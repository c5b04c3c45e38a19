/-!
# Instants and durations

An instant is a count of nanoseconds since the start of 1970, within the years that the calendar
reaches, and it may lie within a leap second. Deadlines are set by shifting an instant forward
(`Instant.after`); a shift that the calendar or the clock's own range cannot hold leaves the instant
where it is. Stored records keep the count as a signed number of sixty-four bits, which covers only
part of the range (`Instant.IsStorable`), and do not keep whether it was taken in a leap second.
-/

namespace PeerTrade

/-! ## Durations -/

/-- A length of time in nanoseconds. -/
structure Duration where
  nanos : Nat
  deriving DecidableEq, Inhabited, Repr

namespace Duration

/-- A whole number of seconds. -/
def ofSecs (secs : UInt64) : Duration := ⟨secs.toNat * 1000000000⟩

/-- Durations are ordered by their length. -/
instance : LE Duration := ⟨fun a b => a.nanos ≤ b.nanos⟩

/-- The longest shift that a clock can carry out: as many milliseconds as fit into a signed
number of sixty-four bits. -/
def longest : Duration := ⟨9223372036854775807 * 1000000⟩

end Duration

/-! ## Instants -/

/-- A point in time. Within a leap second, and there may be one behind every second, the count of
nanoseconds runs on into the second that follows, and is then the same for two instants. -/
structure Instant where
  /-- Nanoseconds since the start of 1970, without the leap seconds that are over. -/
  nanos : Int
  /-- Whether the instant lies within a leap second. -/
  leap : Bool := false
  /-- No instant lies in front of the first day of the calendar. -/
  first_le : -8334601228800000000000 ≤ nanos - if leap then 1000000000 else 0
  /-- No instant lies behind the last day of the calendar. -/
  le_last : (nanos - if leap then 1000000000 else 0) ≤ 8210266876799999999999
  deriving DecidableEq

namespace Instant

/-- The start of 1970. -/
def epoch : Instant := ⟨0, false, by decide, by decide⟩

instance : Inhabited Instant := ⟨epoch⟩

/-- The second to which an instant belongs; a leap second belongs to the one in front of it. -/
def second (t : Instant) : Int := t.nanos / 1000000000 - if t.leap then 1 else 0

/-- Instants are ordered by time. -/
instance : LE Instant :=
  ⟨fun a b => a.second < b.second ∨ a.second = b.second ∧ a.nanos ≤ b.nanos⟩

instance (a b : Instant) : Decidable (a ≤ b) :=
  inferInstanceAs (Decidable (a.second < b.second ∨ a.second = b.second ∧ a.nanos ≤ b.nanos))

/-- The instant with a given count of nanoseconds, if the calendar reaches it. -/
def ofNanos? (n : Int) (leap : Bool := false) : Option Instant :=
  if h : -8334601228800000000000 ≤ (n - if leap then 1000000000 else 0) ∧
      (n - if leap then 1000000000 else 0) ≤ 8210266876799999999999 then
    some ⟨n, leap, h.1, h.2⟩
  else none

/-- The instant that a stored number stands for. -/
def ofInt64 (n : Int64) : Instant :=
  ⟨n.toInt, false, by have := n.le_toInt; simp; omega, by have := n.toInt_lt; simp; omega⟩

/-! ## Shifts -/

/-- Whether the leap second in which an instant lies goes on for some time. -/
def lingers (t : Instant) (delay : Duration) : Bool :=
  t.leap && t.nanos % 1000000000 + delay.nanos < 1000000000

/-- The count of nanoseconds some time later. A leap second does not count once it is over. -/
def nanosAfter (t : Instant) (delay : Duration) : Int :=
  t.nanos + delay.nanos - if t.leap && !t.lingers delay then 1000000000 else 0

/-- This instant shifted forward, if the calendar reaches so far. -/
def shift? (t : Instant) (delay : Duration) : Option Instant :=
  ofNanos? (t.nanosAfter delay) (t.lingers delay)

/-- This instant shifted forward; an instant that cannot be shifted so far stays as it is. -/
def after (t : Instant) (delay : Duration) : Instant :=
  if delay.nanos ≤ Duration.longest.nanos then (t.shift? delay).getD t else t

/-- The second of the day. -/
def secondOfDay (t : Instant) : Int := t.second % 86400

/-- The nanoseconds from an instant until this one. A leap second in which one of them lies counts as
one that is over if the other has the greater second of its day. -/
def since (t u : Instant) : Int :=
  t.nanos - u.nanos +
    if u.leap && u.secondOfDay < t.secondOfDay then 1000000000
    else if t.leap && t.secondOfDay < u.secondOfDay then -1000000000
    else 0

/-- The time from `now` until this instant; nothing once it has passed. -/
def remaining (t now : Instant) : Duration := ⟨(t.since now).toNat⟩

/-! ## Stored instants -/

/-- Whether a stored record can hold the instant: its count, and within a leap second also that of
the full second. -/
def IsStorable (t : Instant) : Prop :=
  -9223372036854775808 ≤ (t.nanos - if t.leap then t.nanos % 1000000000 else 0) ∧
    t.nanos ≤ 9223372036854775807

instance (t : Instant) : Decidable t.IsStorable := by
  unfold IsStorable
  exact inferInstance

/-! ## Facts -/

variable {t u : Instant} {delay : Duration}

theorem ofNanos?_nanos (t : Instant) : ofNanos? t.nanos t.leap = some t :=
  dif_pos ⟨t.first_le, t.le_last⟩

theorem ofNanos?_eq_some_iff {n : Int} {leap : Bool} :
    ofNanos? n leap = some t ↔ t.nanos = n ∧ t.leap = leap := by
  constructor
  · intro h
    obtain ⟨_, h⟩ := Option.dite_none_right_eq_some.1 h
    cases h
    exact ⟨rfl, rfl⟩
  · rintro ⟨rfl, rfl⟩
    exact ofNanos?_nanos t

/-- A shift that clock and calendar can carry out leads to where it is meant to lead. -/
theorem after_eq_of_shift? (hdelay : delay.nanos ≤ Duration.longest.nanos)
    (h : t.shift? delay = some u) : t.after delay = u := by
  rw [after, if_pos hdelay, h, Option.getD_some]

end Instant

end PeerTrade
