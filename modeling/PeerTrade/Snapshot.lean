import PeerTrade.Dict
import PeerTrade.Role
import PeerTrade.State
import PeerTrade.Wire.Deadline
import PeerTrade.Wire.Terms

/-!
# Snapshots

A snapshot is everything about a trade that has to outlive a restart. It is stored as a map from
field numbers to values, so that a later version can add fields and still read older records. A
record of a newer version is refused as a whole instead of being read in part.
-/

namespace PeerTrade

open Cbor

/-- A trade as it is stored. -/
structure Snapshot where
  version : UInt32
  tradeId : String
  role : Role
  settlement : Settlement
  state : State
  sequence : UInt64
  terms : Terms
  counterparty : Peer
  createdAt : Instant
  updatedAt : Instant
  finalized : Bool
  lastPeerSequence : UInt64
  consumed : List String
  deadlines : List Deadline
  fingerprint : String
  deriving DecidableEq

/-- Why a record is not accepted as a snapshot. -/
inductive DecodeError where
  | malformed (fault : Fault)
  | unsupportedVersion (found : UInt32)
  deriving DecidableEq, Repr

namespace Snapshot

/-- The version that is written, and the newest one that is read. -/
def currentVersion : UInt32 := 1

/-- The stored forms of a list of deadlines, one after the other. -/
def encodeDeadlines : List Deadline → Except EncodeError Bytes
  | [] => .ok []
  | d :: rest => do
    let first ← d.encode
    let rest ← encodeDeadlines rest
    pure (first ++ rest)

/-- The fields with their numbers, each in its stored form. -/
def entries (s : Snapshot) : Except EncodeError (List (Nat × Bytes)) := do
  let createdAt ← s.createdAt.encode
  let updatedAt ← s.updatedAt.encode
  let deadlines ← encodeDeadlines s.deadlines
  pure [
    (0, ofNat s.version.toNat),
    (1, ofText s.tradeId),
    (2, ofMember s.role),
    (3, ofMember s.settlement),
    (4, ofMember s.state),
    (5, ofNat s.sequence.toNat),
    (6, s.terms.encode),
    (7, s.counterparty.encode),
    (8, createdAt),
    (9, updatedAt),
    (10, ofBool s.finalized),
    (11, ofNat s.lastPeerSequence.toNat),
    (12, ofList ofText s.consumed),
    (13, listHead s.deadlines.length ++ deadlines),
    (14, ofText s.fingerprint)]

/-- A map with given entries. -/
def ofEntries (entries : List (Nat × Bytes)) : Bytes :=
  mapHead entries.length ++ entries.flatMap fun e => ofNat e.1 ++ e.2

/-- The stored form of a snapshot. -/
def encode (s : Snapshot) : Except EncodeError Bytes := ofEntries <$> s.entries

/-! ## Reading -/

/-- The fields of a snapshot that have been read. -/
structure Fields where
  version : Option UInt32 := none
  tradeId : Option String := none
  role : Option Role := none
  settlement : Option Settlement := none
  state : Option State := none
  sequence : Option UInt64 := none
  terms : Option Terms := none
  counterparty : Option Peer := none
  createdAt : Option Instant := none
  updatedAt : Option Instant := none
  finalized : Option Bool := none
  lastPeerSequence : Option UInt64 := none
  consumed : Option (List String) := none
  deadlines : Option (List Deadline) := none
  fingerprint : Option String := none

namespace Fields

/-- Reads the value of the field with a number. -/
def readValue : Int → Fields → Reader Fields
  | 0, s => do pure { s with version := some (← uint32) }
  | 1, s => do pure { s with tradeId := some (← text) }
  | 2, s => do pure { s with role := some (← member) }
  | 3, s => do pure { s with settlement := some (← member) }
  | 4, s => do pure { s with state := some (← member) }
  | 5, s => do pure { s with sequence := some (← uint64) }
  | 6, s => do pure { s with terms := some (← Terms.decode) }
  | 7, s => do pure { s with counterparty := some (← Peer.decode) }
  | 8, s => do pure { s with createdAt := some (← Instant.decode) }
  | 9, s => do pure { s with updatedAt := some (← Instant.decode) }
  | 10, s => do pure { s with finalized := some (← bool) }
  | 11, s => do pure { s with lastPeerSequence := some (← uint64) }
  | 12, s => do pure { s with consumed := some (← list text) }
  | 13, s => do pure { s with deadlines := some (← list Deadline.decode) }
  | 14, s => do pure { s with fingerprint := some (← text) }
  | _, s => unknownField s

/-- Reads one entry of the map: the number of a field and its value. A field that is written
twice counts as written last. -/
def readEntry (s : Fields) : Reader Fields := do
  let number ← signedInt 64
  readValue number s

/-- Reads an announced number of entries. -/
def readEntries : Nat → Fields → Reader Fields
  | 0, s => pure s
  | n + 1, s => do
    let s ← readEntry s
    readEntries n s

/-- Reads entries up to the stop byte. Each takes at least one byte. -/
def readEntriesToStop : (fuel : Nat) → Fields → Reader Fields
  | 0, _ => throw .endOfInput
  | fuel + 1, s => do
    if (← peek) = stop then
      let _ ← byte
      pure s
    else
      let s ← readEntry s
      readEntriesToStop fuel s

/-- Reads a map of fields. -/
def read : Reader Fields := do
  match ← sizeHead 5 with
  | some n => readEntries n {}
  | none => fun input => readEntriesToStop (input.length + 1) {} input

/-- The snapshot, if every field has been read. -/
def complete (s : Fields) : Reader Snapshot := do
  let version ← require s.version
  let tradeId ← require s.tradeId
  let role ← require s.role
  let settlement ← require s.settlement
  let state ← require s.state
  let sequence ← require s.sequence
  let terms ← require s.terms
  let counterparty ← require s.counterparty
  let createdAt ← require s.createdAt
  let updatedAt ← require s.updatedAt
  let finalized ← require s.finalized
  let lastPeerSequence ← require s.lastPeerSequence
  let consumed ← require s.consumed
  let deadlines ← require s.deadlines
  let fingerprint ← require s.fingerprint
  pure
    { version := version, tradeId := tradeId, role := role, settlement := settlement
      state := state, sequence := sequence, terms := terms, counterparty := counterparty
      createdAt := createdAt, updatedAt := updatedAt, finalized := finalized
      lastPeerSequence := lastPeerSequence, consumed := consumed, deadlines := deadlines
      fingerprint := fingerprint }

end Fields

/-- Reads a snapshot of any version. -/
def reader : Reader Snapshot := do
  let s ← Fields.read
  s.complete

/-- Reads a snapshot from the front of a record, and refuses newer versions. -/
def decode (record : Bytes) : Except DecodeError Snapshot :=
  match reader record with
  | .error fault => .error (.malformed fault)
  | .ok (s, _) =>
    if s.version > currentVersion then .error (.unsupportedVersion s.version) else .ok s

end Snapshot

end PeerTrade
