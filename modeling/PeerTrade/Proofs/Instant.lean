import PeerTrade.Instant.Basic

/-!
# Shifts of the clock

A shift is carried out exactly as far as the calendar reaches (`Instant.Reaches`), and as far as that a
longer one leads to a later instant (`Instant.after_mono`). A clock is never within a leap second when
it is read, and no shift leads into one from there; between such instants everything goes by the count
of nanoseconds. A shift from within a leap second ends in it, or does not count it.
-/

namespace PeerTrade

/-- How long the calendar is, with a leap second at its end. -/
def Duration.calendar : Duration :=
  ⟨8334601228800000000000 + 8210266876799999999999 + 1000000000⟩

namespace Instant

variable {t u now : Instant} {delay delay' : Duration}

/-! ## The count after a delay -/

theorem lingers_of_plain (ht : t.leap = false) (delay : Duration) : t.lingers delay = false := by
  rw [lingers, ht, Bool.false_and]

theorem nanosAfter_of_plain (ht : t.leap = false) (delay : Duration) :
    t.nanosAfter delay = t.nanos + delay.nanos := by
  rw [nanosAfter, ht, Bool.false_and, if_neg Bool.false_ne_true, Int.sub_zero]

/-- The count after a delay within a leap second, and behind it. -/
theorem nanosAfter_of_leap (ht : t.leap = true) (delay : Duration) :
    (t.lingers delay = true ∧ t.nanos % 1000000000 + delay.nanos < 1000000000 ∧
        t.nanosAfter delay = t.nanos + delay.nanos) ∨
      (t.lingers delay = false ∧ 1000000000 ≤ t.nanos % 1000000000 + delay.nanos ∧
        t.nanosAfter delay = t.nanos + delay.nanos - 1000000000) := by
  by_cases hlingers : t.nanos % 1000000000 + delay.nanos < 1000000000
  · exact .inl ⟨by simp [lingers, ht, hlingers], hlingers, by simp [nanosAfter, lingers, ht, hlingers]⟩
  · exact .inr ⟨by simp [lingers, ht, hlingers], Int.not_lt.1 hlingers,
      by simp [nanosAfter, lingers, ht, hlingers]⟩

/-! ## How far the calendar reaches -/

/-- The calendar reaches the instant that lies a delay behind this one. -/
def Reaches (t : Instant) (delay : Duration) : Prop :=
  ∃ u : Instant, u.nanos = t.nanosAfter delay ∧ u.leap = t.lingers delay

/-- The last day of the calendar is the limit. A leap second at its end is over in any case. -/
theorem reaches_iff : t.Reaches delay ↔
    t.lingers delay = true ∨ t.nanosAfter delay ≤ 8210266876799999999999 := by
  have hfirst := t.first_le
  have hlast := t.le_last
  constructor
  · rintro ⟨u, hnanos, hleap⟩
    cases hlingers : t.lingers delay with
    | true => exact .inl rfl
    | false =>
      have hlimit := u.le_last
      rw [hleap, hlingers, hnanos] at hlimit
      exact .inr (by simpa using hlimit)
  · intro h
    have hbounds : -8334601228800000000000 ≤
        (t.nanosAfter delay - if t.lingers delay then 1000000000 else 0) ∧
        (t.nanosAfter delay - if t.lingers delay then 1000000000 else 0) ≤
          8210266876799999999999 := by
      cases ht : t.leap with
      | false =>
        rw [lingers_of_plain ht, nanosAfter_of_plain ht] at h ⊢
        simp only [ht, Bool.false_eq_true, if_false, false_or] at hfirst h ⊢
        omega
      | true =>
        simp only [ht, if_true] at hfirst hlast
        rcases nanosAfter_of_leap ht delay with ⟨hlingers, hwithin, heq⟩ | ⟨hlingers, hbehind, heq⟩
        · simp only [hlingers, heq, if_true]
          omega
        · simp only [hlingers, heq, Bool.false_eq_true, if_false, false_or] at h ⊢
          omega
    exact ⟨⟨t.nanosAfter delay, t.lingers delay, hbounds.1, hbounds.2⟩, rfl, rfl⟩

theorem reaches_iff_of_plain (ht : t.leap = false) :
    t.Reaches delay ↔ t.nanos + delay.nanos ≤ 8210266876799999999999 := by
  rw [reaches_iff, lingers_of_plain ht, nanosAfter_of_plain ht]
  simp

theorem shift?_eq_some_iff :
    t.shift? delay = some u ↔ u.nanos = t.nanosAfter delay ∧ u.leap = t.lingers delay :=
  ofNanos?_eq_some_iff

/-- No clock refuses a shift that stays within the calendar. -/
theorem Reaches.le_longest (h : t.Reaches delay) : delay.nanos ≤ Duration.longest.nanos := by
  show delay.nanos ≤ 9223372036854775807 * 1000000
  have hfirst := t.first_le
  cases ht : t.leap with
  | false =>
    rw [reaches_iff_of_plain ht] at h
    simp only [ht, Bool.false_eq_true, if_false] at hfirst
    omega
  | true =>
    rw [reaches_iff] at h
    simp only [ht, if_true] at hfirst
    rcases nanosAfter_of_leap ht delay with ⟨-, hwithin, -⟩ | ⟨hlingers, -, heq⟩
    · omega
    · simp only [hlingers, heq, Bool.false_eq_true, false_or] at h
      omega

/-- A shift within the calendar is carried out. -/
theorem Reaches.shift?_eq (h : t.Reaches delay) : t.shift? delay = some (t.after delay) := by
  have hdelay := h.le_longest
  obtain ⟨u, hu⟩ := h
  have hshift := shift?_eq_some_iff.2 hu
  rw [after_eq_of_shift? hdelay hshift, hshift]

theorem nanos_after (h : t.Reaches delay) : (t.after delay).nanos = t.nanosAfter delay :=
  (shift?_eq_some_iff.1 h.shift?_eq).1

theorem after_of_not_reaches (h : ¬t.Reaches delay) : t.after delay = t := by
  cases hshift : t.shift? delay with
  | none =>
    rw [after, hshift]
    exact ite_self t
  | some u => exact absurd ⟨u, shift?_eq_some_iff.1 hshift⟩ h

/-- No shift leads into a leap second. -/
theorem leap_after (ht : t.leap = false) (delay : Duration) : (t.after delay).leap = false := by
  by_cases h : t.Reaches delay
  · rw [(shift?_eq_some_iff.1 h.shift?_eq).2, lingers_of_plain ht]
  · rw [after_of_not_reaches h, ht]

@[simp] theorem after_zero (t : Instant) : t.after ⟨0⟩ = t := by
  have hlingers : t.lingers ⟨0⟩ = t.leap := by
    simp [lingers, Int.emod_lt_of_pos]
  have hnanos : t.nanosAfter ⟨0⟩ = t.nanos := by
    simp [nanosAfter, hlingers]
  exact after_eq_of_shift? (Nat.zero_le _) (shift?_eq_some_iff.2 ⟨hnanos.symm, hlingers.symm⟩)

/-! ## Longer delays -/

theorem Reaches.mono (h : t.Reaches delay') (hle : delay ≤ delay') : t.Reaches delay := by
  have hle : delay.nanos ≤ delay'.nanos := hle
  cases ht : t.leap with
  | false =>
    rw [reaches_iff_of_plain ht] at h ⊢
    omega
  | true =>
    rw [reaches_iff] at h ⊢
    have hlast := t.le_last
    simp only [ht, if_true] at hlast
    rcases nanosAfter_of_leap ht delay with ⟨hlingers, -, -⟩ | ⟨hlingers, hbehind, heq⟩
    · exact .inl hlingers
    · rcases nanosAfter_of_leap ht delay' with ⟨-, hwithin, -⟩ | ⟨hlingers', -, heq'⟩
      · omega
      · simp only [hlingers', heq', Bool.false_eq_true, false_or] at h
        exact .inr (by omega)

/-- A longer delay leads to a later instant, if the calendar reaches it. -/
theorem after_mono (h : t.Reaches delay') (hle : delay ≤ delay') :
    t.after delay ≤ t.after delay' := by
  obtain ⟨hnanos, hleap⟩ := shift?_eq_some_iff.1 (h.mono hle).shift?_eq
  obtain ⟨hnanos', hleap'⟩ := shift?_eq_some_iff.1 h.shift?_eq
  have hle : delay.nanos ≤ delay'.nanos := hle
  show (t.after delay).second < _ ∨ (t.after delay).second = _ ∧ _
  rw [second, second, hnanos, hnanos', hleap, hleap']
  cases ht : t.leap with
  | false =>
    simp only [lingers_of_plain ht, nanosAfter_of_plain ht, Bool.false_eq_true, if_false]
    omega
  | true =>
    -- the leap second is over after the longer delay if it is after the shorter one
    rcases nanosAfter_of_leap ht delay with ⟨hlingers, hwithin, heq⟩ | ⟨hlingers, hbehind, heq⟩ <;>
      rcases nanosAfter_of_leap ht delay' with
        ⟨hlingers', hwithin', heq'⟩ | ⟨hlingers', hbehind', heq'⟩ <;>
      simp only [hlingers, hlingers', heq, heq', Bool.false_eq_true, if_false, if_true] <;>
      omega

/-! ## What is left until an instant -/

/-- Outside of leap seconds what is left is the difference of the counts. -/
theorem nanos_remaining (ht : t.leap = false) (hnow : now.leap = false) :
    (t.remaining now).nanos = (t.nanos - now.nanos).toNat := by
  simp [remaining, since, ht, hnow]

theorem le_iff_of_plain (ht : t.leap = false) (hu : u.leap = false) : t ≤ u ↔ t.nanos ≤ u.nanos := by
  show t.second < u.second ∨ t.second = u.second ∧ t.nanos ≤ u.nanos ↔ _
  simp only [second, ht, hu, Bool.false_eq_true, if_false]
  omega

theorem remaining_mono (ht : t.leap = false) (hu : u.leap = false) (hnow : now.leap = false)
    (h : t ≤ u) : t.remaining now ≤ u.remaining now := by
  have h : t.nanos ≤ u.nanos := (le_iff_of_plain ht hu).1 h
  show (t.remaining now).nanos ≤ (u.remaining now).nanos
  rw [nanos_remaining ht hnow, nanos_remaining hu hnow]
  omega

/-- No more is ever left than the whole calendar, with a leap second at its end. -/
theorem nanos_remaining_le (t now : Instant) : (t.remaining now).nanos ≤ Duration.calendar.nanos := by
  show (t.since now).toNat ≤ 8334601228800000000000 + 8210266876799999999999 + 1000000000
  have hlast : t.nanos ≤ 8210266876799999999999 + 1000000000 := by
    have h := t.le_last
    split at h <;> omega
  have hfirst := now.first_le
  -- a leap second is added only for one in which the first of the two lies
  have hsince : t.since now ≤ t.nanos - now.nanos + if now.leap then 1000000000 else 0 := by
    rw [since]
    split
    next hover => exact Int.le_of_eq (by rw [if_pos (Bool.and_eq_true_iff.1 hover).1])
    · have hadded : (0 : Int) ≤ if now.leap then 1000000000 else 0 := by split <;> omega
      split <;> omega
  omega

end Instant

end PeerTrade
