import PeerTrade.Bytes
import PeerTrade.Identifier.Prefix

/-!
# Identifiers

Trades, peers and commands are named by sixteen bytes that begin with the time of their making
and go on with a counter, so that later ones sort behind earlier ones and no two are alike.
Trades and peers show the bytes in the alphabet of Bech32m behind their prefix, followed by a
checksum of six characters; commands show them in hexadecimal groups.
-/

namespace PeerTrade

/-! ## The sixteen bytes -/

/-- What tells one identifier from another. -/
structure Seed where
  /-- Milliseconds since the start of 1970. -/
  millis : Nat
  /-- Distinguishes identifiers of the same millisecond. -/
  counter : Nat
  deriving DecidableEq, Repr

namespace Seed

/-- The sixteen bytes: forty-eight bits of time, the version seven in four bits, and the counter
in two parts around the two bits of the variant. -/
def bytes (s : Seed) : Bytes :=
  Bytes.ofNat 6 s.millis ++ Bytes.ofNat 2 (7 <<< 12 + s.counter >>> 62 % 1 <<< 12) ++
    Bytes.ofNat 8 (2 <<< 62 + s.counter % 1 <<< 62)

/-- The bytes in hexadecimal, in groups of eight, four, four, four and twelve digits. -/
def grouped (s : Seed) : String :=
  let digits := Bytes.hexChars s.bytes
  String.intercalate "-" <| [(0, 8), (8, 4), (12, 4), (16, 4), (20, 12)].map fun (start, length) =>
    String.ofList ((digits.drop start).take length)

end Seed

/-! ## Checked texts -/

namespace Checked

/-- The thirty-two characters that stand for groups of five bits. -/
def alphabet : List Char := "qpzry9x8gf2tvdw0s3jn54khce6mua7l".toList

/-- Splits a number into groups of five bits, the highest first. -/
def groups : (count : Nat) → (n : Nat) → List Nat
  | 0, _ => []
  | count + 1, n => n >>> (5 * count) % 32 :: groups count n

/-- The groups of a byte string; zeros fill up the last one. -/
def groupsOf (b : Bytes) : List Nat :=
  let bits := b.length * 8
  let count := (bits + 4) / 5
  groups count (b.toNat <<< (count * 5 - bits))

/-- The five numbers that the checksum mixes in. -/
def generators : List Nat := [0x3b6a57b2, 0x26508e6d, 0x1ea119fa, 0x3d4233dd, 0x2a1462b3]

/-- One step of the checksum: multiplication by the variable, reduced. -/
def mix (sum group : Nat) : Nat :=
  let top := sum >>> 25
  let shifted := (sum % 1 <<< 25) * 32 ^^^ group
  generators.zipIdx.foldl (fun acc (g, i) => if top.testBit i then acc ^^^ g else acc) shifted

/-- The groups that a prefix contributes to the checksum. -/
def labelGroups (label : Label) : List Nat :=
  let codes := label.text.toList.map Char.toNat
  codes.map (· / 32) ++ 0 :: codes.map (· % 32)

/-- The six groups of the checksum. -/
def checksum (label : Label) (data : List Nat) : List Nat :=
  groups 6 ((labelGroups label ++ data ++ List.replicate 6 0).foldl mix 1 ^^^ 0x2bc830a3)

/-- The text of a byte string behind a prefix. -/
def text (label : Label) (b : Bytes) : String :=
  let data := groupsOf b
  label.text ++ "1" ++
    String.ofList ((data ++ checksum label data).map fun g => alphabet.getD g 'q')

end Checked

/-! ## Identifiers -/

/-- The identifier of a trade or peer. -/
structure Identifier where
  label : Label
  bytes : Bytes
  deriving DecidableEq, Repr

namespace Identifier

/-- A new identifier with a prefix. -/
def fresh (label : Label) (seed : Seed) : Identifier := ⟨label, seed.bytes⟩

/-- A new identifier of a trade. -/
def trade (seed : Seed) : Identifier := fresh ⟨"trade_"⟩ seed

/-- A new identifier of a peer. -/
def peer (seed : Seed) : Identifier := fresh ⟨"peer_"⟩ seed

/-- The identifier as text. -/
def text (i : Identifier) : String := Checked.text i.label i.bytes

/-- The scheme by which the bytes were made. -/
def version (i : Identifier) : Nat := (i.bytes.getD 6 0).toNat / 16

end Identifier

end PeerTrade
