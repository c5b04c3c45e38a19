import PeerTrade.Toml.Number

/-!
# Reading a configuration text

A text is a sequence of lines: blank lines, comments, headers that open a table, and lines that
define a value in the open table. `Toml.read` gives the root table of a text that follows the
notation throughout.
-/

namespace PeerTrade.Toml

open Scan

/-! ## Keys -/

/-- A character of a key without quotes. -/
def isKeyChar (c : Char) : Bool := c.isAlphanum || c = '_' || c = '-'

/-- Reads one part of a key. -/
def keyPart : Scan String := do
  match ← peek with
  | some '"' | some '\'' => lineText
  | _ => return String.ofList (← run₁ isKeyChar)

/-- Reads the parts of a key, with dots between them and blanks around. -/
def keyParts : (fuel : Nat) → Scan (List String)
  | 0 => refuse
  | fuel + 1 => do
    blanks
    let part ← keyPart
    blanks
    if ← tryExactly "." then return part :: (← keyParts fuel) else return [part]

/-- How many parts a key may have, and how many arrays and tables in braces may stand around a
value. -/
def depthLimit : Nat := 79

/-- Reads a key, which has no more parts than the limit: the path to a table, and the last part. -/
def key : Scan (List String × String) := do
  let parts ← keyParts depthLimit
  match parts.getLast? with
  | some last => pure (parts.dropLast, last)
  | none => refuse

/-! ## Values -/

/-- Reads one of the words for a truth value. -/
def truthValue : Scan Value := do
  if ← tryExactly "true" then return .truth true
  exactly "false"
  return .truth false

/-- Reads a value that holds no others. -/
def scalar : Scan Value := do
  match ← peek with
  | some '"' | some '\'' => .text <$> anyText
  | some 't' | some 'f' => truthValue
  | _ => numeral

mutual

/-- Reads a value. `depth` counts how many more arrays and tables may be opened one inside the
other, empty ones included. -/
def value (depth : Nat) : Scan Value := do
  match ← peek, depth with
  | some '[', depth + 1 =>
    let _ ← char
    let fuel := (← get).length + 1
    return .array (← arrayItems depth fuel)
  | some '\x7b', depth + 1 =>
    let _ ← char
    blanks
    if ← tryExactly "\x7d" then return .table .inline []
    let fuel := (← get).length + 1
    return .table .inline (← inlineEntries depth fuel [])
  | _, _ => scalar
termination_by (depth, 0)

/-- Reads the items of an array up to its closing bracket. -/
def arrayItems (depth : Nat) : (fuel : Nat) → Scan (List Value)
  | 0 => refuse
  | fuel + 1 => do
    blankLines (fuel + 1)
    if ← tryExactly "]" then return []
    let item ← value depth
    blankLines (fuel + 1)
    if ← tryExactly "," then return item :: (← arrayItems depth fuel)
    exactly "]"
    return [item]
termination_by fuel => (depth, fuel)

/-- Reads the entries of a table in braces, which stands on one line, up to its closing brace. -/
def inlineEntries (depth : Nat) : (fuel : Nat) → Entries → Scan Entries
  | 0, _ => refuse
  | fuel + 1, es => do
    let (path, last) ← key
    exactly "="
    blanks
    let v ← value depth
    match es.assign path last v with
    | none => refuse
    | some es =>
      blanks
      if ← tryExactly "," then inlineEntries depth fuel es
      else
        exactly "\x7d"
        return es
termination_by fuel => (depth, fuel)

end

/-! ## Lines -/

/-- Reads a header and opens its table. -/
def header (d : Document) : Scan Document := do
  exactly "["
  let repeated ← tryExactly "["
  let (path, last) ← key
  exactly "]"
  if repeated then exactly "]"
  restOfLine
  let path := path ++ [last]
  match if repeated then d.beginElement path else d.beginTable path with
  | some d => pure d
  | none => refuse

/-- Reads a definition. -/
def definition (d : Document) : Scan Document := do
  let (path, last) ← key
  exactly "="
  blanks
  let v ← value depthLimit
  restOfLine
  match d.assign path last v with
  | some d => pure d
  | none => refuse

/-- Reads lines up to the end. Each takes at least one character. -/
def lines : (fuel : Nat) → Document → Scan Document
  | 0, _ => refuse
  | fuel + 1, d => do
    blanks
    match ← peek with
    | none => pure d
    | some '#' =>
      restOfLine
      lines fuel d
    | some '[' => lines fuel (← header d)
    | some '\n' | some '\r' =>
      if ← tryLineEnd then lines fuel d else refuse
    | _ => lines fuel (← definition d)

/-- The root table of a text. A mark of the byte order at the beginning does not count. -/
def read (s : String) : Option Value := do
  let cs := s.toList
  let cs := if cs.head? = some '\ufeff' then cs.tail else cs
  let (d, _) ← lines (cs.length + 1) {} cs
  let root ← d.close
  pure (.table .header root)

end PeerTrade.Toml
