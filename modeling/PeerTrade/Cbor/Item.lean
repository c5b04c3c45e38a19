import PeerTrade.Cbor.Head

/-!
# Numbers, texts and lists

The simple items: whole numbers in the width of their field, truth values, texts, options and
lists, each with the function that writes it and the reader that takes it back. A reader accepts
an argument of any width, and lists with their number of members in front as well as lists that
run up to a stop byte; what is written is always the shortest form.
-/

namespace PeerTrade.Cbor

/-! ## Numbers -/

/-- A number that is not negative. -/
def ofNat (n : Nat) : Bytes := head 0 n

/-- A whole number. -/
def ofInt (i : Int) : Bytes := if 0 ≤ i then head 0 i.toNat else head 1 (-1 - i).toNat

/-- Reads a number from zero up to a bound. -/
def natUpTo (bound : Nat) : Reader Nat := do
  let b ← byte
  if b ≤ 0x1b then
    let n ← argument (info b)
    if n ≤ bound then pure n else throw .overflow
  else mismatch b

/-- Reads a whole number that a signed field of some bits can hold. -/
def signedInt (bits : Nat) : Reader Int := do
  let b ← byte
  if b ≤ 0x1b || 0x20 ≤ b && b ≤ 0x3b then
    let n ← argument (info b)
    if n < 1 <<< (bits - 1) then pure (if b ≤ 0x1b then (n : Int) else -1 - n) else throw .overflow
  else mismatch b

/-- Reads a number of sixty-four bits. -/
def uint64 : Reader UInt64 := UInt64.ofNat <$> natUpTo (UInt64.size - 1)

/-- Reads a number of thirty-two bits. -/
def uint32 : Reader UInt32 := UInt32.ofNat <$> natUpTo (UInt32.size - 1)

/-- Reads a signed number of sixty-four bits. -/
def int64 : Reader Int64 := Int64.ofInt <$> signedInt 64

/-- Reads a signed number of thirty-two bits. -/
def int32 : Reader Int32 := Int32.ofInt <$> signedInt 32

/-! ## Truth values and options -/

/-- A truth value. -/
def ofBool (b : Bool) : Bytes := if b then [0xf5] else [0xf4]

/-- Reads a truth value. -/
def bool : Reader Bool := do
  let b ← byte
  if b = 0xf4 then pure false else if b = 0xf5 then pure true else mismatch b

/-- The item that stands for a missing value. -/
def null : Bytes := [0xf6]

/-- Reads an item that may stand for a missing value. -/
def option {α : Type} (read : Reader α) : Reader (Option α) := do
  if (← peek) = 0xf6 then
    let _ ← byte
    pure none
  else some <$> read

/-! ## Texts -/

/-- A text: the length of its UTF-8 form, and the form itself. -/
def ofText (s : String) : Bytes := head 3 (Bytes.ofText s).length ++ Bytes.ofText s

/-- Reads the bytes of an item of a class whose length stands in its head. -/
def sized (cls : Nat) : Reader Bytes := do
  let b ← byte
  if major b = cls && info b ≠ 31 then
    let n ← argument (info b)
    take n
  else mismatch b

/-- Reads a text. -/
def text : Reader String := do
  match Bytes.toText? (← sized 3) with
  | some s => pure s
  | none => throw .utf8

/-! ## Lists -/

/-- The head of a list with a number of members. -/
def listHead (n : Nat) : Bytes := head 4 n

/-- The head of a map with a number of entries. -/
def mapHead (n : Nat) : Bytes := head 5 n

/-- Reads the head of a list or map: the number of members, or none if they run up to a stop. -/
def sizeHead (cls : Nat) : Reader (Option Nat) := do
  let b ← byte
  if major b = cls then
    if info b = 31 then pure none else some <$> argument (info b)
  else mismatch b

/-- The byte that ends a list whose number of members is not announced. -/
def stop : UInt8 := 0xff

/-- A list of items of one kind. -/
def ofList {α : Type} (write : α → Bytes) (items : List α) : Bytes :=
  listHead items.length ++ items.flatMap write

/-- Reads an announced number of items. -/
def items {α : Type} (read : Reader α) : Nat → Reader (List α)
  | 0 => pure []
  | n + 1 => do
    let a ← read
    let rest ← items read n
    pure (a :: rest)

/-- Reads items up to the stop byte. Each takes at least one byte, so that the fuel of one more
than the length of the input never runs out. -/
def itemsToStop {α : Type} (read : Reader α) : (fuel : Nat) → Reader (List α)
  | 0 => throw .endOfInput
  | fuel + 1 => fun input =>
    match input with
    | [] => .error .endOfInput
    | b :: rest =>
      if b = stop then .ok ([], rest)
      else (do
        let a ← read
        let rest ← itemsToStop read fuel
        pure (a :: rest) : Reader (List α)) input

/-- Reads a list of items of one kind. -/
def list {α : Type} (read : Reader α) : Reader (List α) := do
  match ← sizeHead 4 with
  | some n => items read n
  | none => fun input => itemsToStop read (input.length + 1) input

end PeerTrade.Cbor
