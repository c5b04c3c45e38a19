import PeerTrade.Toml.Scan

/-!
# Quoted texts of the notation

A text stands between double or single quotes, in one of either or in three. Between double
quotes a backslash begins an escape; between single quotes every character stands for itself. In
three quotes a text may run over several lines: a line end right behind the opening quotes does
not count, and a backslash at the end of a line joins it to the next.
-/

namespace PeerTrade.Toml

open Scan

/-- A character that stands for itself in a text of one line. -/
def isPlain (c : Char) : Bool := c = '\t' || 0x20 ≤ c.toNat && c.toNat ≠ 0x7f

/-- The character with a code point, unless there is none. -/
def codePoint (n : Nat) : Scan Char := if n.isValidChar then pure (Char.ofNat n) else refuse

/-- The value of a hexadecimal digit. -/
def digitValue (c : Char) : Nat :=
  if c.isDigit then c.toNat - 48
  else if c.isLower then c.toNat - 87
  else c.toNat - 55

/-- A hexadecimal digit in either case. -/
def isHexDigit (c : Char) : Bool := c.isDigit || ('a' ≤ c && c ≤ 'f') || ('A' ≤ c && c ≤ 'F')

/-- The number with some digits. -/
def ofDigits (base : Nat) (cs : List Char) : Nat :=
  cs.foldl (fun n c => n * base + digitValue c) 0

/-- Reads what stands behind a backslash. -/
def escaped : Scan Char := do
  match ← char with
  | 'b' => pure '\x08'
  | 't' => pure '\t'
  | 'n' => pure '\n'
  | 'f' => pure '\x0c'
  | 'r' => pure '\r'
  | '"' => pure '"'
  | '\\' => pure '\\'
  | 'u' => do codePoint (ofDigits 16 (← count isHexDigit 4))
  | 'U' => do codePoint (ofDigits 16 (← count isHexDigit 8))
  | _ => refuse

/-- Reads a text of one line up to the closing double quote. -/
def basicText : (fuel : Nat) → Scan (List Char)
  | 0 => refuse
  | fuel + 1 => do
    match ← char with
    | '"' => pure []
    | '\\' => do
      let c ← escaped
      return c :: (← basicText fuel)
    | c => if isPlain c then return c :: (← basicText fuel) else refuse

/-- Reads a text of one line up to the closing single quote. -/
def literalText : (fuel : Nat) → Scan (List Char)
  | 0 => refuse
  | fuel + 1 => do
    match ← char with
    | '\'' => pure []
    | c => if isPlain c then return c :: (← literalText fuel) else refuse

/-- Passes over the blanks and line ends behind a backslash at the end of a line. -/
def joinLines : (fuel : Nat) → Scan Unit
  | 0 => pure ()
  | fuel + 1 => do
    blanks
    if ← tryLineEnd then joinLines fuel else pure ()

/-- Reads a text of several lines up to three closing quotes. Up to two quotes in front of those
belong to the text. -/
def longText (quote : Char) (escapes : Bool) : (fuel : Nat) → Scan (List Char)
  | 0 => refuse
  | fuel + 1 => do
    if ← tryLineEnd then return '\n' :: (← longText quote escapes fuel)
    match ← char with
    | '\\' =>
      if escapes then
        let cs ← get
        if (← (do blanks; tryLineEnd : Scan Bool)) then
          joinLines fuel
          longText quote escapes fuel
        else
          set cs
          let c ← escaped
          return c :: (← longText quote escapes fuel)
      else return '\\' :: (← longText quote escapes fuel)
    | c =>
      if c = quote then
        let more ← run (· = quote)
        let quotes := more.length + 1
        if quotes < 3 then
          return List.replicate quotes quote ++ (← longText quote escapes fuel)
        else if quotes ≤ 5 then pure (List.replicate (quotes - 3) quote)
        else refuse
      else if isPlain c then return c :: (← longText quote escapes fuel)
      else refuse

/-- Reads a text between quotes of any kind. -/
def anyText : Scan String := do
  let fuel := (← get).length + 1
  if ← tryExactly "\"\"\"" then
    let _ ← tryLineEnd
    return String.ofList (← longText '"' true fuel)
  if ← tryExactly "'''" then
    let _ ← tryLineEnd
    return String.ofList (← longText '\'' false fuel)
  if ← tryExactly "\"" then return String.ofList (← basicText fuel)
  exactly "'"
  return String.ofList (← literalText fuel)

/-- Reads a text of one line between quotes. -/
def lineText : Scan String := do
  let fuel := (← get).length + 1
  if ← tryExactly "\"" then return String.ofList (← basicText fuel)
  exactly "'"
  return String.ofList (← literalText fuel)

end PeerTrade.Toml
