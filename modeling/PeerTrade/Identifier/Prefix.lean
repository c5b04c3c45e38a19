/-!
# Prefixes of identifiers

An identifier begins with a prefix that says what it names. A prefix has one to eighty-three
characters, all of them visible and of the ASCII range, and does not mix letters of both cases;
it counts in lower case.
-/

namespace PeerTrade

/-- Why a text is no prefix. -/
inductive PrefixError where
  | empty
  | tooLong
  | nonAscii
  | invisible
  | mixedCase
  deriving DecidableEq, Repr

/-- The name of the kind of error. -/
def PrefixError.name : PrefixError → String
  | empty => "Empty"
  | tooLong => "TooLong"
  | nonAscii => "NonAsciiChar"
  | invisible => "InvalidAsciiByte"
  | mixedCase => "MixedCase"

/-- A prefix in lower case. -/
structure Label where
  text : String
  deriving DecidableEq, Repr

namespace Label

/-- Checks the characters one after the other, knowing which cases occurred before. -/
def check (lower upper : Bool) : List Char → Except PrefixError Unit
  | [] => .ok ()
  | c :: rest =>
    if 0x80 ≤ c.toNat then .error .nonAscii
    else if c.toNat < 0x21 ∨ 0x7e < c.toNat then .error .invisible
    else
      let lower := lower || c.isLower
      let upper := upper || c.isUpper
      if lower && upper then .error .mixedCase else check lower upper rest

/-- Reads a prefix. -/
def parse (s : String) : Except PrefixError Label :=
  if s.isEmpty then .error .empty
  else if 83 < s.utf8ByteSize then .error .tooLong
  else do
    check false false s.toList
    pure ⟨s.map Char.toLower⟩

end Label

end PeerTrade
