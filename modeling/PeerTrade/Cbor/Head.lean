import PeerTrade.Bytes

/-!
# Heads of encoded items

A stored item is binary in the manner of RFC 8949: its first byte holds the item's class in three
bits and a short argument in five, and longer arguments follow in one, two, four or eight bytes.
This module writes heads in their shortest form, and reads heads of any width. Reading is done by
a `Reader`, which takes what it needs from the front of the input, or says by a `Fault` why it
cannot.
-/

namespace PeerTrade.Cbor

/-! ## Readers -/

/-- Why an item could not be read. -/
inductive Fault where
  /-- The input ends within an item. -/
  | endOfInput
  /-- An item of another class was expected. -/
  | typeMismatch
  /-- A choice names a member that does not exist; the input goes on with `rest`. -/
  | unknownVariant (rest : Bytes)
  /-- A record lacks a field. -/
  | missingValue
  /-- A text is not well formed. -/
  | utf8
  /-- A number is too large for its field. -/
  | overflow
  /-- A choice is not written as a pair. -/
  | message
  deriving DecidableEq, Repr

/-- The name of the kind of fault. -/
def Fault.name : Fault → String
  | endOfInput => "EndOfInput"
  | typeMismatch => "TypeMismatch"
  | unknownVariant _ => "UnknownVariant"
  | missingValue => "MissingValue"
  | utf8 => "Utf8"
  | overflow => "Overflow"
  | message => "Message"

/-- Reads a value from the front of the input and leaves the rest. -/
abbrev Reader := StateT Bytes (Except Fault)

/-- Takes the next byte. -/
def byte : Reader UInt8
  | [] => .error .endOfInput
  | b :: rest => .ok (b, rest)

/-- Takes a number of bytes. -/
def take (n : Nat) : Reader Bytes := fun input =>
  if n ≤ input.length then .ok (input.take n, input.drop n) else .error .endOfInput

/-- Whether a first byte announces a negative number with its argument in the bytes that follow.
The width of such a number is told by the first of them. -/
def isWideNegative (b : UInt8) : Bool := 0x38 ≤ b && b ≤ 0x3b

/-- Looks at the first byte of the next item without taking it. -/
def peek : Reader UInt8
  | [] => .error .endOfInput
  | b :: rest =>
    if isWideNegative b && rest.isEmpty then .error .endOfInput else .ok (b, b :: rest)

/-- Refuses an item whose first byte has just been taken. A negative number is told apart by a
byte behind its first argument byte, so that the input may turn out to be too short first. -/
def mismatch {α : Type} (b : UInt8) : Reader α := fun rest =>
  if isWideNegative b && rest.length < 2 then .error .endOfInput else .error .typeMismatch

/-! ## Heads -/

/-- The class of an item, from its first byte. -/
def major (b : UInt8) : Nat := b.toNat / 32

/-- The short argument in a first byte. -/
def info (b : UInt8) : Nat := b.toNat % 32

/-- The shortest head of a class with an argument below two to the sixty-fourth. -/
def head (cls n : Nat) : Bytes :=
  if n < 24 then [UInt8.ofNat (cls * 32 + n)]
  else if n < UInt8.size then UInt8.ofNat (cls * 32 + 24) :: Bytes.ofNat 1 n
  else if n < UInt16.size then UInt8.ofNat (cls * 32 + 25) :: Bytes.ofNat 2 n
  else if n < UInt32.size then UInt8.ofNat (cls * 32 + 26) :: Bytes.ofNat 4 n
  else UInt8.ofNat (cls * 32 + 27) :: Bytes.ofNat 8 n

/-- Reads the argument that a short argument announces. -/
def argument (info : Nat) : Reader Nat :=
  if info < 24 then pure info
  else if info = 24 then Bytes.toNat <$> take 1
  else if info = 25 then Bytes.toNat <$> take 2
  else if info = 26 then Bytes.toNat <$> take 4
  else if info = 27 then Bytes.toNat <$> take 8
  else throw .typeMismatch

end PeerTrade.Cbor
