import PeerTrade.Store.Backend

/-!
# Archives

An archive is a text that holds the records of a store: one line for each of them, with its id and
the record itself in hexadecimal, and a blank between the two.
-/

namespace PeerTrade.Archive

/-- The line that holds a record. -/
def line (id : String) (record : Bytes) : String :=
  (Bytes.ofText id).hex ++ " " ++ record.hex ++ "\n"

/-- The archive of a backend. -/
def ofBackend (b : Backend) : String :=
  String.join (b.records.entries.map fun (id, record) => line id record)

/-- Reads what stands in a line, without its end. -/
def readLine (chars : List Char) : Option (String × Bytes) := do
  let id ← Bytes.ofHexChars? (chars.takeWhile (· != ' '))
  let record ← Bytes.ofHexChars? ((chars.dropWhile (· != ' ')).drop 1)
  pure (← Bytes.toText? id, record)

/-- Cuts a text into lines; the last one need not have an end. -/
def lines : List Char → List (List Char)
  | [] => []
  | '\n' :: rest => [] :: lines rest
  | c :: rest =>
    match lines rest with
    | [] => [[c]]
    | first :: others => (c :: first) :: others

/-- A backend with the records of an archive. -/
def toBackend? (text : String) : Option Backend := do
  let records ← ((lines text.toList).filter (!·.isEmpty)).mapM readLine
  pure { records := .ofList records }

end PeerTrade.Archive
