import PeerTrade.Event.Kind
import PeerTrade.Instant.Basic

/-!
# Deadlines

A deadline is armed by a commit and named after it: a deadline of the same kind that is armed
again gets another name, so that an expiry of the older one never matches it.
-/

namespace PeerTrade

/-- A deadline's name: its kind, and the sequence of the commit that armed it. -/
structure DeadlineId where
  kind : DeadlineKind
  armedAt : UInt64
  deriving DecidableEq, Inhabited, Repr

/-- An armed deadline; the instant at which it expires outlives a restart. -/
structure Deadline where
  id : DeadlineId
  expiresAt : Instant
  deriving DecidableEq

end PeerTrade
