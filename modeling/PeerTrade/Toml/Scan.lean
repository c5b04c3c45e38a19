/-!
# Scanning a configuration text

The smallest parts of the notation: blanks, line ends, comments, and runs of characters of a
class. A `Scan` takes what it reads from the front of the text and fails without a reason, since
the notation is either met or not.
-/

namespace PeerTrade.Toml

/-- Reads a value from the front of a text and leaves the rest. -/
abbrev Scan := StateT (List Char) Option

namespace Scan

/-- Fails. -/
def refuse {α : Type} : Scan α := fun _ => none

/-- The next character, which stays; none at the end. -/
def peek : Scan (Option Char) := fun cs => some (cs.head?, cs)

/-- Takes the next character. -/
def char : Scan Char
  | [] => none
  | c :: cs => some (c, cs)

/-- Takes some characters that must come next. -/
def exactly (s : String) : Scan Unit := fun cs =>
  if s.toList.isPrefixOf cs then some ((), cs.drop s.length) else none

/-- Takes some characters if they come next. -/
def tryExactly (s : String) : Scan Bool := fun cs =>
  if s.toList.isPrefixOf cs then some (true, cs.drop s.length) else some (false, cs)

/-- Takes the longest run of characters of a class. -/
def run (p : Char → Bool) : Scan (List Char) := fun cs => some (cs.takeWhile p, cs.dropWhile p)

/-- Takes the longest run of characters of a class, which must not be empty. -/
def run₁ (p : Char → Bool) : Scan (List Char) := do
  let cs ← run p
  if cs.isEmpty then refuse else pure cs

/-- Takes a number of characters of a class. -/
def count (p : Char → Bool) (n : Nat) : Scan (List Char) := fun cs =>
  let taken := cs.take n
  if taken.length = n ∧ taken.all p then some (taken, cs.drop n) else none

/-! ## Blanks, lines and comments -/

/-- A space or a tabulator. -/
def isBlank (c : Char) : Bool := c = ' ' || c = '\t'

/-- Passes over blanks. -/
def blanks : Scan Unit := do
  let _ ← run isBlank

/-- A character that may stand in a comment. -/
def isCommentChar (c : Char) : Bool := c = '\t' || 0x20 ≤ c.toNat && c.toNat ≠ 0x7f

/-- Takes a line end if one comes next. -/
def tryLineEnd : Scan Bool
  | '\n' :: cs => some (true, cs)
  | '\r' :: '\n' :: cs => some (true, cs)
  | cs => some (false, cs)

/-- Passes over a comment if one comes next. -/
def comment : Scan Unit := do
  if ← tryExactly "#" then
    let _ ← run isCommentChar

/-- Passes over the rest of a line, which holds nothing but blanks and a comment. -/
def restOfLine : Scan Unit := do
  blanks
  comment
  if ← tryLineEnd then pure ()
  else if (← peek).isNone then pure ()
  else refuse

/-- Passes over blanks, comments and line ends. -/
def blankLines : (fuel : Nat) → Scan Unit
  | 0 => pure ()
  | fuel + 1 => do
    blanks
    let before ← get
    comment
    let _ ← tryLineEnd
    let after ← get
    if before.length = after.length then pure () else blankLines fuel

end Scan

end PeerTrade.Toml
