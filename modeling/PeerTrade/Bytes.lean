/-!
# Byte strings

Payloads, signatures and stored records are lists of bytes. Texts are turned into bytes and back
by their UTF-8 form, numbers by their big-endian form, and byte strings are shown in lowercase
hexadecimal, two digits a byte. Each of the three has its reading direction beside it, with the
law that reading undoes writing.
-/

namespace PeerTrade

/-- A byte string. -/
abbrev Bytes := List UInt8

namespace Bytes

/-! ## Texts -/

/-- The UTF-8 form of a text. -/
def ofText (s : String) : Bytes := s.toByteArray.data.toList

/-- The text that has this UTF-8 form, if there is one. -/
def toText? (b : Bytes) : Option String := String.fromUTF8? ⟨b.toArray⟩

@[simp] theorem toText?_ofText (s : String) : toText? (ofText s) = some s := by
  have h : (⟨s.toByteArray.data.toList.toArray⟩ : ByteArray) = s.toByteArray := by simp
  simp only [toText?, ofText, h, String.fromUTF8?, dif_pos s.isValidUTF8]
  rfl

/-- Texts with the same UTF-8 form are equal. -/
theorem ofText_inj {s t : String} (h : ofText s = ofText t) : s = t :=
  Option.some.inj (by rw [← toText?_ofText s, h, toText?_ofText])

theorem length_ofText (s : String) : (ofText s).length = s.utf8ByteSize := by
  rw [ofText, Array.length_toList]
  rfl

/-! ## Numbers -/

/-- The last `width` bytes of the big-endian form of a number. -/
def ofNat : (width : Nat) → (n : Nat) → Bytes
  | 0, _ => []
  | width + 1, n => UInt8.ofNat (n >>> (8 * width)) :: ofNat width n

/-- The number with these big-endian digits in base 256. -/
def toNat (b : Bytes) : Nat := b.foldl (fun n d => n * 256 + d.toNat) 0

@[simp] theorem length_ofNat (width n : Nat) : (ofNat width n).length = width := by
  induction width with
  | zero => rfl
  | succ width ih => simp [ofNat, ih]

/-! ## Hexadecimal -/

/-- The hexadecimal digit of a value below sixteen. -/
def hexDigit (n : Nat) : Char :=
  if n < 10 then Char.ofNat (48 + n) else Char.ofNat (87 + n)

/-- The value of a hexadecimal digit in either case. -/
def hexValue? (c : Char) : Option Nat :=
  if '0' ≤ c ∧ c ≤ '9' then some (c.toNat - 48)
  else if 'a' ≤ c ∧ c ≤ 'f' then some (c.toNat - 87)
  else if 'A' ≤ c ∧ c ≤ 'F' then some (c.toNat - 55)
  else none

theorem hexValue?_hexDigit {n : Nat} (h : n < 16) : hexValue? (hexDigit n) = some n := by
  have hall : ∀ m ∈ List.range 16, hexValue? (hexDigit m) = some m := by decide
  exact hall n (List.mem_range.2 h)

/-- The digits of a byte string, the high digit of each byte first. -/
def hexChars : Bytes → List Char
  | [] => []
  | b :: rest => hexDigit (b.toNat / 16) :: hexDigit (b.toNat % 16) :: hexChars rest

/-- Reads pairs of digits; refuses other characters and a lone last digit. -/
def ofHexChars? : List Char → Option Bytes
  | [] => some []
  | [_] => none
  | h :: l :: rest =>
    match hexValue? h, hexValue? l, ofHexChars? rest with
    | some high, some low, some bytes => some (UInt8.ofNat (high * 16 + low) :: bytes)
    | _, _, _ => none

/-- The lowercase hexadecimal text of a byte string. -/
def hex (b : Bytes) : String := String.ofList (hexChars b)

/-- The byte string with a given hexadecimal text. -/
def ofHex? (s : String) : Option Bytes := ofHexChars? s.toList

theorem ofHexChars?_hexChars (b : Bytes) : ofHexChars? (hexChars b) = some b := by
  induction b with
  | nil => rfl
  | cons d rest ih =>
    have hd : d.toNat < 256 := d.toNat_lt
    have hhigh : d.toNat / 16 < 16 := by omega
    have hlow : d.toNat % 16 < 16 := by omega
    have hsum : d.toNat / 16 * 16 + d.toNat % 16 = d.toNat := by omega
    simp [hexChars, ofHexChars?, hexValue?_hexDigit hhigh, hexValue?_hexDigit hlow, ih, hsum]

@[simp] theorem ofHex?_hex (b : Bytes) : ofHex? (hex b) = some b := by
  simp [ofHex?, hex, ofHexChars?_hexChars]

/-- Byte strings with the same hexadecimal text are equal. -/
theorem hex_inj {a b : Bytes} (h : hex a = hex b) : a = b :=
  Option.some.inj (by rw [← ofHex?_hex a, h, ofHex?_hex])

end Bytes

end PeerTrade
