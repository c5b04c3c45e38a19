import PeerTrade.Store.Basic

/-!
# The writer of the store

The writer alternates between looking for the next pending snapshot and writing it. When nothing
is pending it releases those who wait for a flush, and then ends if the store is closed, or parks
until it is woken. A wake-up that comes while it does not park is kept, so that none is lost. If
the backend breaks down during a write the writer ends there and then, and those who waited for
that write are told so.
-/

namespace PeerTrade.Store

/-! ## Steps -/

/-- The writer finds nothing to write. -/
def rest (s : Store) : Store :=
  let s := { s with writing := false }
  if s.order.isEmpty then
    { s with flushing := [], writer := if s.closed then .stopped else .parked }
  else { s with writer := .parked }

/-- The writer looks for the next snapshot. -/
def takeNext (s : Store) (b : Backend) : Store :=
  match s.order with
  | [] => s.rest
  | id :: order =>
    match s.pending.get? id with
    | none => { s with order }.rest
    | some p =>
      { s with
        order, pending := s.pending.erase id, writing := true, writer := .writing id p b.holds }

/-- The writer hears from the backend about a write. -/
def finish (s : Store) (id : String) (p : Pending) : WriteResult → Store
  | .written =>
    { s.reply p.waiters fun _ => .ok () with
      attempts := s.attempts ++ [⟨id, p.sequence, true⟩]
      physicalWrites := s.physicalWrites + 1
      writer := .ready }
  | .refused cause =>
    { s.reply p.waiters fun _ => .error ⟨id, p.sequence, cause.message⟩ with
      attempts := s.attempts ++ [⟨id, p.sequence, false⟩]
      physicalWrites := s.physicalWrites + 1
      writer := .ready }
  | .broken =>
    { s.reply p.waiters fun w => failure w "store writer stopped" with writer := .dead }

/-- One step of the writer, unless it has ended or waits. -/
def step (s : Store) (b : Backend) : Option (Store × Backend) :=
  match s.writer with
  | .ready => some (s.takeNext b, b)
  | .parked => if s.wake then some ({ s with wake := false, writer := .ready }, b) else none
  | .writing id p held =>
    if held && b.admitted = 0 then none
    else
      let b := if held then { b with admitted := b.admitted - 1 } else b
      let (b, result) := b.write id p.record
      some (s.finish id p result, b)
  | .stopped | .dead => none

/-! ## Running -/

/-- Lets the writer go on until it waits or has ended, or the fuel is used up. -/
def runFor : (fuel : Nat) → Store → Backend → Store × Backend
  | 0, s, b => (s, b)
  | fuel + 1, s, b =>
    match s.step b with
    | some (s, b) => runFor fuel s b
    | none => (s, b)

/-- Lets the writer go on until it waits or has ended. Every pending trade takes two steps, and
beginning and ending take four at most. -/
def run (s : Store) (b : Backend) : Store × Backend := runFor (2 * s.order.length + 4) s b

end PeerTrade.Store
