import PeerTrade.Store.Backend
import PeerTrade.Trade.Basic

/-!
# The coalescing store

Whoever wants a trade to be stored hands its snapshot to the store and gets a ticket. At most one
snapshot per trade is pending; a newer one takes the place of an older one, and both tickets are
answered by the one write that finally happens. A request that is older than one made before is
superseded: it joins the pending write, or is answered at once if there is none. A single writer
takes the pending snapshots in the order in which their trades became pending. The store never
writes again on its own after a failure.

The functions here are what those who use the store do; the steps of the writer are in
`PeerTrade.Store.Writer`. A request lets go of the tables (`handIn`) before it wakes the writer
(`notify`), and a call of `close` has three parts (`shut`, `notify`, `claim`), between which others may
use the store.
-/

namespace PeerTrade

/-- A request to store a trade. -/
structure Ticket where
  number : Nat
  tradeId : String
  sequence : UInt64
  deriving DecidableEq, Repr

/-- What a request came to. -/
abbrev PersistResult := Except PersistFailure Unit

/-- The answer to a request. -/
structure Answer where
  ticket : Ticket
  result : PersistResult

/-- The snapshot of a trade that waits to be written. -/
structure Pending where
  record : Bytes
  sequence : UInt64
  /-- The requests that the write will answer. -/
  waiters : List Ticket

/-- A write that the backend has finished. -/
structure Attempt where
  tradeId : String
  sequence : UInt64
  succeeded : Bool
  deriving DecidableEq, Repr

/-- Where the writer stands. -/
inductive Writer where
  /-- It is about to look for the next snapshot. -/
  | ready
  /-- It waits to be woken. -/
  | parked
  /-- It writes a snapshot; `held` while the backend has not admitted the write. -/
  | writing (tradeId : String) (pending : Pending) (held : Bool)
  /-- It ended after the store was closed. -/
  | stopped
  /-- It ended in the middle of a write. -/
  | dead

/-- Whether the writer has ended. -/
def Writer.ended : Writer → Bool
  | stopped | dead => true
  | ready | parked | writing .. => false

/-- The store between two steps. -/
structure Store where
  pending : Dict String Pending := {}
  /-- The trades with a pending snapshot, in the order in which they became pending. -/
  order : List String := []
  /-- The greatest sequence that was ever handed in, by trade. -/
  highest : Dict String UInt64 := {}
  /-- Whether a snapshot is being written. -/
  writing : Bool := false
  closed : Bool := false
  /-- The calls of `flush` that wait. -/
  flushing : List Nat := []
  /-- A stored wake-up for the writer. -/
  wake : Bool := false
  writer : Writer := .ready
  /-- Whether a call of `close` has taken it on to wait for the writer. -/
  writerClaimed : Bool := false
  /-- How many tickets were handed out. -/
  issued : Nat := 0
  /-- How many calls of `flush` had to wait. -/
  flushes : Nat := 0
  /-- The answers, in the order in which they were given. -/
  answers : List Answer := []
  /-- The finished writes, in order. -/
  attempts : List Attempt := []
  /-- The number of writes that the backend has finished, failed ones included. -/
  physicalWrites : Nat := 0

namespace Store

/-! ## Looking -/

/-- Whether nothing is pending or being written. -/
def idle (s : Store) : Bool := s.order.isEmpty && !s.writing

/-- The answer to a ticket, if it has been given. -/
def answer? (s : Store) (t : Ticket) : Option PersistResult :=
  (s.answers.find? fun a => a.ticket.number == t.number).map (·.result)

/-! ## Handing in snapshots -/

/-- Gives the same answer to some tickets. -/
def reply (s : Store) (tickets : List Ticket) (result : Ticket → PersistResult) : Store :=
  { s with answers := s.answers ++ tickets.map fun t => ⟨t, result t⟩ }

/-- Wakes the writer, or stores the wake-up if it is not parked. -/
def notify (s : Store) : Store := { s with wake := true }

/-- Puts a snapshot in line; says whether that gives the writer something to do. -/
def putInLine (s : Store) (ticket : Ticket) (record : Bytes) : Store × Bool :=
  let stale := (s.highest.get? ticket.tradeId).any (ticket.sequence < ·)
  let s :=
    if stale then s
    else { s with highest := s.highest.insert ticket.tradeId ticket.sequence }
  match s.pending.get? ticket.tradeId with
  | some p =>
    let p := if stale then p else { p with record, sequence := ticket.sequence }
    let p := { p with waiters := p.waiters ++ [ticket] }
    ({ s with pending := s.pending.insert ticket.tradeId p }, true)
  | none =>
    if stale then (s.reply [ticket] fun _ => .ok (), false)
    else
      ({ s with
        pending := s.pending.insert ticket.tradeId ⟨record, ticket.sequence, [ticket]⟩
        order := s.order ++ [ticket.tradeId] }, true)

/-- The failure of a request. -/
def failure (ticket : Ticket) (cause : String) : PersistResult :=
  .error ⟨ticket.tradeId, ticket.sequence, cause⟩

/-- Hands in the current snapshot of a trade; says whether that gives the writer something to do.
One without stored form fails at once, and so does every request after the store was closed. -/
def handIn (s : Store) (t : Trade) : Store × Bool :=
  let ticket : Ticket := ⟨s.issued, t.id, t.sequence⟩
  let s := { s with issued := s.issued + 1 }
  match t.toSnapshot.encode with
  | .error cause =>
    (s.reply [ticket] fun w => failure w (StoreError.encode cause).message, false)
  | .ok record =>
    if s.closed then (s.reply [ticket] fun w => failure w "store is closed", false)
    else s.putInLine ticket record

/-- Hands in the current snapshot of a trade, and then wakes the writer if there is something for it
to do. -/
def schedule (s : Store) (t : Trade) : Store × Ticket :=
  let (handed, wakes) := s.handIn t
  (if wakes then handed.notify else handed, ⟨s.issued, t.id, t.sequence⟩)

/-! ## Flushing and closing -/

/-- Begins a flush: it is over at once if nothing is pending or being written, and otherwise
waits under a number. -/
def flush (s : Store) : Store × Option Nat :=
  if s.idle then (s, none)
  else ({ s with flushing := s.flushing ++ [s.flushes], flushes := s.flushes + 1 },
    some s.flushes)

/-- Whether a flush is over. -/
def isFlushed (s : Store) (request : Option Nat) : Bool :=
  request.all fun n => !s.flushing.contains n

/-- From now on requests fail, and the writer stops once nothing is pending. -/
def shut (s : Store) : Store := { s with closed := true }

/-- Takes it on to wait for the writer, unless that was done before; says whether it was not. -/
def claim (s : Store) : Store × Bool := ({ s with writerClaimed := true }, !s.writerClaimed)

/-- Begins to close: shuts the store, wakes the writer, and takes it on to wait for it to end. The
second part of the result says whether this call waits; it does not if an earlier one does. -/
def close (s : Store) : Store × Bool := s.shut.notify.claim

end Store

end PeerTrade
