import PeerTrade.Store.Writer

/-!
# The store while calls are interrupted

A call lets go of the tables before it wakes the writer, a call of `close` reaches for the handle of the
writer after that, and the writer lets go of the tables before it begins to wait. A `Moment` is what
there is if anybody can be interrupted there, and others go on. Calls that have got equally far are
alike, so that only their number matters.
-/

namespace PeerTrade.Store

/-- How far a parked writer has got. -/
inductive Parking where
  /-- It has let go of the tables, and does not wait yet. -/
  | leaving
  /-- It waits. -/
  | waiting
  /-- It has been woken, and has not gone on yet. -/
  | woken
  deriving DecidableEq

/-- What there is at some moment, whoever is interrupted. -/
structure Moment where
  store : Store := {}
  /-- How far the writer has got, if it is parked. -/
  parking : Parking := .leaving
  /-- How many requests have let go of the tables and are still to wake the writer. -/
  owed : Nat := 0
  /-- How many calls of `close` have shut the store and are still to wake the writer. -/
  shutting : Nat := 0
  /-- How many calls of `close` have woken the writer and are still to reach for its handle. -/
  reaching : Nat := 0

namespace Moment

/-- Wakes the writer if it waits, and stores a wake-up otherwise. One that is stored already serves for
both. -/
def notify (m : Moment) : Moment :=
  match m.store.writer, m.parking with
  | .parked, .waiting => { m with parking := .woken }
  | _, _ => { m with store := m.store.notify }

/-- The writer goes on, unless it waits or has ended. When it is about to wait it takes a stored wake-up
instead. -/
def turn (m : Moment) (b : Backend) : Option (Moment × Backend) :=
  match m.store.writer, m.parking with
  | .parked, .leaving =>
    if m.store.wake then
      some ({ m with store := { m.store with wake := false, writer := .ready } }, b)
    else some ({ m with parking := .waiting }, b)
  | .parked, .waiting => none
  | .parked, .woken =>
    some ({ m with store := { m.store with writer := .ready }, parking := .leaving }, b)
  | _, _ => (m.store.step b).map fun (store, b) => ({ m with store, parking := .leaving }, b)

/-- What can happen next. -/
inductive Move where
  /-- A request does with the tables what it has to do. -/
  | handIn (t : Trade)
  /-- A request goes on to wake the writer. -/
  | wake
  | flush
  /-- A call of `close` shuts the store. -/
  | shut
  /-- A call of `close` goes on to wake the writer. -/
  | rouse
  /-- A call of `close` goes on to reach for the handle of the writer. -/
  | claim
  /-- The writer goes on. -/
  | turn
  /-- The backend begins to behave differently; its records stay. -/
  | behave (b : Backend)

/-- The moment after a move, if that is possible. -/
def act (m : Moment) (b : Backend) : Move → Option (Moment × Backend)
  | .handIn t =>
    let (store, wakes) := m.store.handIn t
    some ({ m with store, owed := m.owed + wakes.toNat }, b)
  | .wake =>
    match m.owed with
    | 0 => none
    | owed + 1 => some ({ m.notify with owed }, b)
  | .flush => some ({ m with store := m.store.flush.1 }, b)
  | .shut => some ({ m with store := m.store.shut, shutting := m.shutting + 1 }, b)
  | .rouse =>
    match m.shutting with
    | 0 => none
    | shutting + 1 => some ({ m.notify with shutting, reaching := m.reaching + 1 }, b)
  | .claim =>
    match m.reaching with
    | 0 => none
    | reaching + 1 => some ({ m with store := m.store.claim.1, reaching }, b)
  | .turn => m.turn b
  | .behave b' => some (m, { b' with records := b.records })

end Moment

end PeerTrade.Store
