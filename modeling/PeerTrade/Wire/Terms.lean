import PeerTrade.Cbor.Record
import PeerTrade.Sha256
import PeerTrade.Terms

/-!
# Terms in their stored form

The stored form of terms serves two purposes: it is part of every stored trade, and its digest is
the fingerprint by which a taker commits to the terms.
-/

namespace PeerTrade

open Cbor

/-! ## Parts -/

namespace Amount

/-- The stored form of an amount. -/
def encode : Amount → Bytes
  | baseFixed amount => ofForm 0 [ofNat amount.toNat]
  | quoteFixed amount => ofForm 1 [ofNat amount.toNat]
  | baseRange min max => ofForm 2 [ofNat min.toNat, ofNat max.toNat]
  | quoteRange min max => ofForm 3 [ofNat min.toNat, ofNat max.toNat]

/-- Reads an amount. -/
def decode : Reader Amount :=
  choice fun
    | 0 => some (form₁ uint64 baseFixed)
    | 1 => some (form₁ uint64 quoteFixed)
    | 2 => some (form₂ uint64 uint64 baseRange)
    | 3 => some (form₂ uint64 uint64 quoteRange)
    | _ => none

end Amount

namespace Price

/-- The stored form of a price. -/
def encode : Price → Bytes
  | market => ofForm 0 []
  | fixed price => ofForm 1 [ofNat price.toNat]
  | float points => ofForm 2 [ofInt points.toInt]

/-- Reads a price. -/
def decode : Reader Price :=
  choice fun
    | 0 => some (emptyForm market)
    | 1 => some (form₁ uint64 fixed)
    | 2 => some (form₁ int32 float)
    | _ => none

end Price

namespace Rail

/-- The stored form of a rail. -/
def encode : Rail → Bytes
  | sepa => ofForm 0 []
  | sepaInstant => ofForm 1 []
  | wise => ofForm 2 []
  | zelle => ofForm 3 []
  | revolut => ofForm 4 []
  | nationalBank => ofForm 5 []
  | custom name => ofForm 6 [ofText name]

/-- Reads a rail. -/
def decode : Reader Rail :=
  choice fun
    | 0 => some (emptyForm sepa)
    | 1 => some (emptyForm sepaInstant)
    | 2 => some (emptyForm wise)
    | 3 => some (emptyForm zelle)
    | 4 => some (emptyForm revolut)
    | 5 => some (emptyForm nationalBank)
    | 6 => some (form₁ text custom)
    | _ => none

end Rail

namespace Method

/-- The stored form of a payment method. -/
def encode (m : Method) : Bytes :=
  ofFields [some m.rail.encode, some (ofText m.currency), m.country.map ofText]

/-- The fields of a payment method that have been read. -/
structure Fields where
  rail : Option Rail := none
  currency : Option String := none
  country : Option String := none

/-- Reads one field. -/
def Fields.read : Nat → Fields → Reader Fields
  | 0, s => do pure { s with rail := some (← Rail.decode) }
  | 1, s => do pure { s with currency := some (← text) }
  | 2, s => do pure { s with country := ← optional text }
  | _, s => unknownField s

/-- Reads a payment method. -/
def decode : Reader Method := do
  let s ← record Fields.read {}
  let rail ← require s.rail
  let currency ← require s.currency
  pure { rail, currency, country := s.country }

end Method

/-! ## Terms -/

namespace Terms

/-- The stored form of terms. -/
def encode (t : Terms) : Bytes :=
  ofFields [t.base.map ofText, t.quote.map ofText, t.amount.map Amount.encode,
    t.price.map Price.encode, t.method.map Method.encode]

/-- Reads one part. -/
def readPart : Nat → Terms → Reader Terms
  | 0, t => do pure { t with base := ← optional text }
  | 1, t => do pure { t with quote := ← optional text }
  | 2, t => do pure { t with amount := ← optional Amount.decode }
  | 3, t => do pure { t with price := ← optional Price.decode }
  | 4, t => do pure { t with method := ← optional Method.decode }
  | _, t => unknownField t

/-- Reads terms; parts that are left out stay open. -/
def decode : Reader Terms := record readPart {}

/-- The digest of the stored form, by which a taker commits to the terms. -/
def fingerprint (t : Terms) : String := Sha256.hexDigest t.encode

end Terms

end PeerTrade
