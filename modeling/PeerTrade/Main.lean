import PeerTrade.Report
import PeerTrade.Store.Archive

/-!
# The program

`trade-node [FILE]` reads its configuration from a file, opens the store that is named there, and
reports on every trade in it. A configuration that is missing or unusable is replaced by the
default one. The store is an archive; one that does not exist is empty.
-/

namespace PeerTrade

/-- The contents of a text file, if it can be read. -/
def readText? (path : String) : IO (Option String) :=
  try some <$> IO.FS.readFile path catch _ => pure none

/-- Reports on the store; the answer is the exit code. -/
def inspect (args : List String) : IO UInt32 := do
  let file := args.headD "trade-node.toml"
  let settings := (← readText? file).bind Settings.read
  let archive ← readText? (settings.getD {}).storePath
  match Archive.toBackend? (archive.getD "") with
  | none =>
    IO.eprintln "the store is not an archive"
    return 1
  | some backend =>
    match backend.load with
    | .error e =>
      IO.eprintln e.message
      return 1
    | .ok records =>
      for line in Report.lines file settings .standard records do
        IO.println line.text
      return 0

end PeerTrade

/-- The program. -/
def main (args : List String) : IO UInt32 := PeerTrade.inspect args
