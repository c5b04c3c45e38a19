import PeerTrade.Snapshot

/-!
# Errors of the store

A record cannot be written because the snapshot has no stored form or because the backend
refuses it; it cannot be read back because it is malformed or too new, or because the backend
gives nothing.
-/

namespace PeerTrade

/-- Why the store could not write or read. -/
inductive StoreError where
  | encode (cause : EncodeError)
  | decode (cause : DecodeError)
  | backend (text : String)
  deriving DecidableEq, Repr

namespace StoreError

/-- The name of the kind of error. -/
def name : StoreError → String
  | encode _ => "Encode"
  | decode (.malformed _) => "Decode"
  | decode (.unsupportedVersion _) => "UnsupportedVersion"
  | backend _ => "Backend"

/-- The error in words. -/
def message : StoreError → String
  | encode cause => "failed to encode snapshot: " ++ cause.message
  | decode (.malformed _) => "failed to decode snapshot"
  | decode (.unsupportedVersion found) =>
    s!"snapshot version {found} is newer than supported {Snapshot.currentVersion}"
  | backend text => "backend failure: " ++ text

end StoreError

/-- A write that did not reach the backend, as everyone whose snapshot it covered is told. -/
structure PersistFailure where
  tradeId : String
  sequence : UInt64
  cause : String
  deriving DecidableEq, Repr

/-- The failure in words. -/
def PersistFailure.message (f : PersistFailure) : String :=
  s!"persisting trade {f.tradeId} at sequence {f.sequence} failed: {f.cause}"

end PeerTrade
