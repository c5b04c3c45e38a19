import PeerTrade.Text.Printable

/-!
# Quoted texts

Where a message shows a text that may hold anything, the text stands between double quotes. A
double quote, a backslash, and the four controls that have a letter of their own are written with
a backslash; every other character that is not printable is written by its code point in
hexadecimal.
-/

namespace PeerTrade.Text

/-- A number in lowercase hexadecimal, without leading zeros. -/
def hexadecimal (n : Nat) : String := String.ofList (Nat.toDigits 16 n)

/-- A character as it stands within double quotes. -/
def escape (c : Char) : String :=
  match c with
  | '\x00' => "\\0"
  | '\t' => "\\t"
  | '\n' => "\\n"
  | '\r' => "\\r"
  | '"' => "\\\""
  | '\\' => "\\\\"
  | c => if isPrintable c then c.toString else "\\u\x7b" ++ hexadecimal c.toNat ++ "\x7d"

/-- A text between double quotes. -/
def quoted (s : String) : String := "\"" ++ String.join (s.toList.map escape) ++ "\""

/-- Texts one after the other, with a comma and a blank between two, in brackets. -/
def bracketed (items : List String) : String := "[" ++ String.intercalate ", " items ++ "]"

end PeerTrade.Text
