import PeerTrade.Toml.Quotation
import PeerTrade.Toml.Value

/-!
# Numbers and moments of the notation

Whole numbers are written in base ten, sixteen, eight or two, with single underscores between
digits; they fit into a signed number of sixty-four bits. Numbers with a fraction or an exponent,
dates and times of day are only recognised: nothing in a configuration is read from them.
-/

namespace PeerTrade.Toml

open Scan

/-! ## Whole numbers -/

/-- Reads digits with single underscores between them, and leaves the underscores out. -/
def digits (p : Char → Bool) : (fuel : Nat) → Scan (List Char)
  | 0 => refuse
  | fuel + 1 => do
    let cs ← run₁ p
    match ← get with
    | '_' :: rest =>
      set rest
      return cs ++ (← digits p fuel)
    | _ => pure cs

/-- A number that fits into sixty-four bits with a sign. -/
def bounded (i : Int) : Scan Value :=
  if -9223372036854775808 ≤ i ∧ i ≤ 9223372036854775807 then pure (.integer i) else refuse

/-- A digit of base eight. -/
def isOctalDigit (c : Char) : Bool := '0' ≤ c && c ≤ '7'

/-- A digit of base two. -/
def isBinaryDigit (c : Char) : Bool := c = '0' || c = '1'

/-- Reads the digits of a whole number in base ten: a zero stands alone. -/
def decimal : Scan (List Char) := do
  let fuel := (← get).length + 1
  match ← get with
  | '0' :: rest =>
    set rest
    pure ['0']
  | _ => digits Char.isDigit fuel

/-- Reads a sign; no sign counts as plus. -/
def sign : Scan Bool := do
  if ← tryExactly "-" then pure true
  else do
    let _ ← tryExactly "+"
    pure false

/-- Reads a whole number. -/
def integer : Scan Value := do
  let fuel := (← get).length + 1
  if ← tryExactly "0x" then return ← bounded (ofDigits 16 (← digits isHexDigit fuel))
  if ← tryExactly "0o" then return ← bounded (ofDigits 8 (← digits isOctalDigit fuel))
  if ← tryExactly "0b" then return ← bounded (ofDigits 2 (← digits isBinaryDigit fuel))
  let negative ← sign
  let n : Int := ofDigits 10 (← decimal)
  bounded (if negative then -n else n)

/-! ## Other numbers -/

/-- Reads an exponent: a sign, and digits that may begin with zeros. -/
def exponent : Scan Int := do
  let fuel := (← get).length + 1
  let negative ← sign
  let n : Int := ofDigits 10 (← digits Char.isDigit fuel)
  pure (if negative then -n else n)

/-- Whether a decimal number is too large for a binary one of sixty-four bits: it is at least as
large as the middle between the largest of them and the next power of two. -/
def exceedsDouble (mantissa : Nat) (exponent : Int) : Bool :=
  let bound := 1 <<< 1024 - 1 <<< 970
  match exponent with
  | .ofNat e => mantissa ≠ 0 && (e > 400 || mantissa * Nat.pow 10 e ≥ bound)
  | .negSucc e => mantissa ≥ bound && mantissa ≥ bound * Nat.pow 10 (min (e + 1) mantissa.log2)

/-- Reads a number with a fraction, an exponent or both, or one of the words for infinity and for
no number. A number that is too large is refused, unless it is negative. -/
def float : Scan Value := do
  let start ← get
  let negative ← sign
  if (← tryExactly "inf") || (← tryExactly "nan") then return .float ""
  let whole ← decimal
  let fuel := start.length + 1
  let fraction ← (do
    if ← tryExactly "." then some <$> digits Char.isDigit fuel else pure none : Scan _)
  let exp ← (do
    if (← tryExactly "e") || (← tryExactly "E") then some <$> exponent else pure none : Scan _)
  if fraction.isNone && exp.isNone then refuse
  let places := fraction.getD []
  if !negative &&
      exceedsDouble (ofDigits 10 (whole ++ places)) (exp.getD 0 - (places.length : Int)) then
    refuse
  let rest ← get
  return .float (String.ofList (start.take (start.length - rest.length)))

/-! ## Moments -/

/-- Reads a number of two digits within bounds. -/
def twoDigits (low high : Nat) : Scan Nat := do
  let n := ofDigits 10 (← count Char.isDigit 2)
  if low ≤ n ∧ n ≤ high then pure n else refuse

/-- The number of days of a month. -/
def daysOfMonth (year month : Nat) : Nat :=
  if month = 2 then
    if year % 4 = 0 ∧ (year % 100 ≠ 0 ∨ year % 400 = 0) then 29 else 28
  else if month = 4 ∨ month = 6 ∨ month = 9 ∨ month = 11 then 30
  else 31

/-- Reads a date. -/
def date : Scan Unit := do
  let year := ofDigits 10 (← count Char.isDigit 4)
  exactly "-"
  let month ← twoDigits 1 12
  exactly "-"
  let _ ← twoDigits 1 (daysOfMonth year month)

/-- Reads a time of day. -/
def time : Scan Unit := do
  let _ ← twoDigits 0 23
  exactly ":"
  let _ ← twoDigits 0 59
  exactly ":"
  let _ ← twoDigits 0 60
  if ← tryExactly "." then
    let _ ← run₁ Char.isDigit

/-- Reads the distance from universal time, if there is one. -/
def offset : Scan Unit := do
  if (← tryExactly "Z") || (← tryExactly "z") then return
  if (← tryExactly "+") || (← tryExactly "-") then
    let _ ← twoDigits 0 23
    exactly ":"
    let _ ← twoDigits 0 59

/-- Whether a text begins with a date, as far as one digit shows it. -/
def looksLikeDate (cs : List Char) : Bool :=
  (cs.take 4).length = 4 && (cs.take 4).all Char.isDigit && cs[4]? = some '-'

/-- Whether a text begins with a time of day. -/
def looksLikeTime (cs : List Char) : Bool :=
  (cs.take 2).length = 2 && (cs.take 2).all Char.isDigit && cs[2]? = some ':'

/-- Reads a date, a time of day, or both with a letter or a space between them. -/
def moment : Scan Value := do
  let start ← get
  if looksLikeDate start then
    date
    match ← get with
    | c :: rest =>
      if (c = 'T' || c = 't' || c = ' ') && looksLikeTime rest then
        set rest
        time
        offset
    | [] => pure ()
  else time
  let rest ← get
  return .moment (String.ofList (start.take (start.length - rest.length)))

/-- Reads a number or a moment. -/
def numeral : Scan Value := fun cs =>
  if looksLikeDate cs || looksLikeTime cs then moment cs
  else
    match float cs with
    | some result => some result
    | none => integer cs

end PeerTrade.Toml
