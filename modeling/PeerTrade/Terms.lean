import PeerTrade.Text.Quoted

/-!
# Terms of a trade

The terms say what is exchanged for what: two currencies, an amount, a price and a payment
method. A draft may leave any part open; `Terms.verify` accepts exactly the terms in which every
part is set and sound, and otherwise names the first part that is not.
-/

namespace PeerTrade

/-! ## Errors -/

/-- Why terms are not accepted. -/
inductive TermsError where
  | missingAmount
  | zeroAmount
  | invalidRange (min max : UInt64)
  | missingPrice
  | zeroPrice
  | floatOutOfRange (points : Int32)
  | missingPaymentMethod
  | missingCurrency (side : String)
  | malformedCurrency (code : String)
  deriving DecidableEq, Repr

namespace TermsError

/-- The name of the kind of error. -/
def name : TermsError → String
  | missingAmount => "MissingAmount"
  | zeroAmount => "ZeroAmount"
  | invalidRange .. => "InvalidRange"
  | missingPrice => "MissingPrice"
  | zeroPrice => "ZeroPrice"
  | floatOutOfRange _ => "FloatOutOfRange"
  | missingPaymentMethod => "MissingPaymentMethod"
  | missingCurrency _ => "MissingCurrency"
  | malformedCurrency _ => "MalformedCurrency"

/-- The error in words. -/
def message : TermsError → String
  | missingAmount => "amount is not set"
  | zeroAmount => "amount must be greater than zero"
  | invalidRange min max => s!"amount range {min}..={max} is invalid"
  | missingPrice => "price is not set"
  | zeroPrice => "fixed price must be greater than zero"
  | floatOutOfRange points => s!"float price offset {points.toInt} bps is outside +/-10000"
  | missingPaymentMethod => "payment method is not set"
  | missingCurrency side => side ++ " currency is not set"
  | malformedCurrency code => "currency code " ++ Text.quoted code ++ " is malformed"

end TermsError

/-! ## Amounts and prices -/

/-- How much changes hands, in the smallest unit of the side it is fixed on. -/
inductive Amount where
  | baseFixed (amount : UInt64)
  | quoteFixed (amount : UInt64)
  | baseRange (min max : UInt64)
  | quoteRange (min max : UInt64)
  deriving DecidableEq, Repr

/-- A fixed amount is not zero, and a range is neither empty nor starts at zero. -/
def Amount.verify : Amount → Except TermsError Unit
  | baseFixed amount | quoteFixed amount =>
    if amount = 0 then .error .zeroAmount else .ok ()
  | baseRange min max | quoteRange min max =>
    if min = 0 ∨ min > max then .error (.invalidRange min max) else .ok ()

/-- How the price is found. -/
inductive Price where
  /-- The market's price. -/
  | market
  /-- Smallest units of the quote side for one unit of the base side. -/
  | fixed (price : UInt64)
  /-- The market's price, shifted by hundredths of a percent. -/
  | float (points : Int32)
  deriving DecidableEq, Repr

/-- A fixed price is not zero, and a shift is at most the whole price. -/
def Price.verify : Price → Except TermsError Unit
  | market => .ok ()
  | fixed price => if price = 0 then .error .zeroPrice else .ok ()
  | float points =>
    if -10000 ≤ points.toInt ∧ points.toInt ≤ 10000 then .ok ()
    else .error (.floatOutOfRange points)

/-! ## Payment methods -/

/-- The network that carries a payment. -/
inductive Rail where
  | sepa
  | sepaInstant
  | wise
  | zelle
  | revolut
  | nationalBank
  | custom (name : String)
  deriving DecidableEq, Repr

/-- A payment method; it is compared and stored, never interpreted. -/
structure Method where
  rail : Rail
  currency : String
  country : Option String
  deriving DecidableEq, Repr

/-! ## Terms -/

/-- The terms of a trade, each part set or still open. -/
structure Terms where
  base : Option String := none
  quote : Option String := none
  amount : Option Amount := none
  price : Option Price := none
  method : Option Method := none
  deriving DecidableEq, Inhabited, Repr

namespace Terms

/-- A capital letter or digit of the Latin alphabet. -/
def isCodeChar (c : Char) : Bool := c.isUpper || c.isDigit

/-- A currency code has two to eight bytes, all of them capital letters and digits. -/
def isCurrencyCode (code : String) : Bool :=
  2 ≤ code.utf8ByteSize && code.utf8ByteSize ≤ 8 && code.toList.all isCodeChar

/-- Checks the currency code of one side. -/
def verifyCurrency (side : String) : Option String → Except TermsError Unit
  | none => .error (.missingCurrency side)
  | some code => if isCurrencyCode code then .ok () else .error (.malformedCurrency code)

/-- Checks a part that has to be set. -/
def verifyPart {α : Type} (missing : TermsError) (check : α → Except TermsError Unit) :
    Option α → Except TermsError Unit
  | none => .error missing
  | some part => check part

/-- Checks every part, in the order base, quote, amount, price, payment method. -/
def verify (t : Terms) : Except TermsError Unit := do
  verifyCurrency "base" t.base
  verifyCurrency "quote" t.quote
  verifyPart .missingAmount Amount.verify t.amount
  verifyPart .missingPrice Price.verify t.price
  verifyPart .missingPaymentMethod (fun _ => .ok ()) t.method

end Terms

end PeerTrade
