import PeerTrade.Store.Error

/-!
# Backends

A backend keeps one record per trade id and lists them in ascending order of the ids. To rehearse
failures it can be told to hold writes back until they are admitted one by one, to refuse writes
or reads with a text, and to break down.
-/

namespace PeerTrade

/-- Durable records, and how the backend currently behaves. -/
structure Backend where
  records : Dict String Bytes := {}
  /-- Whether a write that starts waits to be admitted. -/
  holds : Bool := false
  /-- How many writes are admitted in advance. -/
  admitted : Nat := 0
  /-- Whether a write breaks down. -/
  breaks : Bool := false
  /-- The text with which writes are refused, if they are. -/
  refusesWrites : Option String := none
  /-- The text with which reads are refused, if they are. -/
  refusesReads : Option String := none

/-- What became of a write. -/
inductive WriteResult where
  | written
  | refused (cause : StoreError)
  | broken
  deriving DecidableEq, Repr

namespace Backend

/-- Writes a record, as the backend currently behaves. -/
def write (b : Backend) (id : String) (record : Bytes) : Backend × WriteResult :=
  if b.breaks then (b, .broken)
  else match b.refusesWrites with
    | some text => (b, .refused (.backend text))
    | none => ({ b with records := b.records.insert id record }, .written)

/-- Puts a record in place without going through a write. -/
def seed (b : Backend) (id : String) (record : Bytes) : Backend :=
  { b with records := b.records.insert id record }

/-- All records, ascending by id. -/
def readAll (b : Backend) : Except StoreError (List (String × Bytes)) :=
  match b.refusesReads with
  | some text => .error (.backend text)
  | none => .ok b.records.entries

/-- What is stored under an id. -/
inductive Record where
  | snapshot (s : Snapshot)
  | unreadable (id : String) (cause : DecodeError)

/-- Decodes every record. -/
def load (b : Backend) : Except StoreError (List Record) := do
  let records ← b.readAll
  pure <| records.map fun (id, record) =>
    match Snapshot.decode record with
    | .ok s => .snapshot s
    | .error cause => .unreadable id cause

/-- The snapshots that can be read; a record that cannot is passed over. -/
def loadAll (b : Backend) : Except StoreError (List Snapshot) := do
  let records ← b.load
  pure <| records.filterMap fun
    | .snapshot s => some s
    | .unreadable .. => none

end Backend

end PeerTrade
