import PeerTrade.Instant.Basic

/-!
# Instants as text

An instant is shown by its date and its time of day in coordinated universal time. Dates follow
the Gregorian rule of leap years in both directions; a year outside `0..9999` carries a sign. The
fraction of a second is shown in as few groups of three digits as hold it, and left out if it is
zero.
-/

namespace PeerTrade

/-! ## Dates -/

/-- A date of the Gregorian calendar. -/
structure Date where
  year : Int
  month : Nat
  day : Nat
  deriving DecidableEq, Repr

/-- The date that lies a number of days after the start of 1970. Years are counted from March, so
that the leap day is the last day of its year, in eras of four hundred years of equal length. -/
def Date.ofDays (days : Int) : Date :=
  let sinceMarch := days + 719468
  let era := Int.fdiv sinceMarch 146097
  let dayOfEra := (Int.fmod sinceMarch 146097).toNat
  let yearOfEra := (dayOfEra - dayOfEra / 1460 + dayOfEra / 36524 - dayOfEra / 146096) / 365
  let dayOfYear := dayOfEra - (365 * yearOfEra + yearOfEra / 4 - yearOfEra / 100)
  let monthFromMarch := (5 * dayOfYear + 2) / 153
  let month := if monthFromMarch < 10 then monthFromMarch + 3 else monthFromMarch - 9
  { year := yearOfEra + era * 400 + (if month ≤ 2 then 1 else 0)
    month
    day := dayOfYear - (153 * monthFromMarch + 2) / 5 + 1 }

/-! ## Text -/

namespace Instant

/-- A number in decimal digits, with zeros in front up to a width. -/
def padded (width n : Nat) : String :=
  let digits := Nat.toDigits 10 n
  String.ofList (List.replicate (width - digits.length) '0' ++ digits)

/-- A year: four digits, and outside of `0..9999` also a sign. -/
def yearText (year : Int) : String :=
  if 0 ≤ year ∧ year ≤ 9999 then padded 4 year.toNat
  else (if year < 0 then "-" else "+") ++ padded 4 year.natAbs

/-- The fraction of a second in milliseconds, microseconds or nanoseconds. -/
def fractionText (nanos : Nat) : String :=
  if nanos = 0 then ""
  else if nanos % 1000000 = 0 then "." ++ padded 3 (nanos / 1000000)
  else if nanos % 1000 = 0 then "." ++ padded 6 (nanos / 1000)
  else "." ++ padded 9 nanos

/-- Date and time of day. A leap second has the number behind the one of its second. -/
def text (t : Instant) : String :=
  let date := Date.ofDays (t.second / 86400)
  let second := t.secondOfDay.toNat
  yearText date.year ++ "-" ++ padded 2 date.month ++ "-" ++ padded 2 date.day ++ " " ++
    padded 2 (second / 3600) ++ ":" ++ padded 2 (second / 60 % 60) ++ ":" ++
    padded 2 (second % 60 + if t.leap then 1 else 0) ++
    fractionText (t.nanos % 1000000000).toNat ++ " UTC"

end Instant

end PeerTrade
