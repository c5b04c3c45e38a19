import PeerTrade.Engine.Basic
import PeerTrade.Mailbox
import PeerTrade.Notice.Basic

/-!
# Workers

Every live trade has a worker, which owns it and reads its mailbox. An event is decided on by the
engine; what the decision entails outside of the trade is a list of chores (`Outcome.chores`),
which the worker does one by one before it reads on. The news that a snapshot could not be written
leads to chores as well (`Worker.hear`): one write that covered several requests is reported once
for each of them, and only the first report counts; the snapshot is handed in again unless a newer
one is on its way or the limit is reached.
-/

namespace PeerTrade

/-! ## Who acts at a node -/

/-- Those who take steps at a node, each at its own pace. -/
inductive Actor where
  /-- The writer of the store. -/
  | writer
  | worker (number : Nat)
  /-- Whoever waits for the answer to a ticket, in order to report a failure. -/
  | reporter (ticket : Nat)
  | timer (number : Nat)
  /-- Whoever brings the messages of another node. -/
  | carrier (node : String)
  /-- A call from outside. -/
  | caller (number : Nat)
  deriving DecidableEq, Repr

/-! ## Mail and chores -/

/-- What a worker finds in its mailbox. -/
inductive Mail where
  /-- An event; the caller, if there is one, is told the outcome. -/
  | event (event : Event) (caller : Option Nat)
  /-- A caller wants to see the trade. -/
  | inspect (caller : Nat)
  /-- A snapshot was not written, at which attempt. -/
  | persistFailed (failure : PersistFailure) (attempt : UInt32)

/-- The caller who waits for an answer to some mail. -/
def Mail.caller? : Mail → Option Nat
  | event _ caller => caller
  | inspect caller => some caller
  | persistFailed .. => none

/-- A thing that a worker has to do outside of its trade. -/
inductive Chore where
  /-- Hand in the current snapshot. -/
  | persist (attempt : UInt32)
  | post (happening : Happening)
  | startTimer (id : DeadlineId) (after : Duration)
  | stopTimer (kind : DeadlineKind)
  | send (message : Outbound)
  /-- Tell a caller the outcome of its event. -/
  | answer (caller : Nat) (outcome : Outcome)
  deriving DecidableEq, Repr

/-- What an effect asks of the worker. -/
def Effect.chore : Effect → Chore
  | send m => .send m
  | arm id after => .startTimer id after
  | clear kind => .stopTimer kind

/-- The notice that a deadline has expired, if that was the event. -/
def Event.expiry : Event → List Chore
  | timeout id => [.post (.deadlineExpired id)]
  | inbound _ | command _ => []

/-- What an outcome entails, in order. A commit is handed to the store before anything else, and
made known after its effects. -/
def Outcome.chores (event : Event) : Outcome → List Chore
  | rejected r => [.post (.rejected r)]
  | committed c =>
    .persist 0 :: event.expiry ++ c.effects.map Effect.chore ++
      .post (.stateChanged c.source c.target) ::
        if c.finalized then [.post (.finalized c.target)] else []

/-! ## Workers -/

/-- Whether a worker still works. -/
inductive Phase where
  | running
  /-- It has read everything, and nobody can send it anything more. -/
  | ended
  /-- It broke down. -/
  | broken
  deriving DecidableEq, Repr

/-- A worker between two steps. -/
structure Worker where
  trade : Trade
  mailbox : Mailbox Actor Mail
  phase : Phase := .running
  /-- What is left to be done before the next mail is read. -/
  chores : List Chore := []
  /-- The timers that were started last, by kind of deadline. -/
  timers : Dict DeadlineKind Nat := {}
  /-- Sequence and attempt of the failed write that was acted upon last. -/
  lastFailure : Option (UInt64 × UInt32) := none

namespace Worker

/-- Whether a failure has been acted upon. -/
def hasHeard (w : Worker) (f : PersistFailure) (attempt : UInt32) : Bool :=
  w.lastFailure.any fun (sequence, last) => sequence == f.sequence && attempt ≤ last

/-- The worker hears that a snapshot was not written. -/
def hear (w : Worker) (limit : UInt32) (f : PersistFailure) (attempt : UInt32) : Worker :=
  if w.hasHeard f attempt then w
  else
    let again := w.trade.sequence ≤ f.sequence && attempt < limit
    { w with
      lastFailure := some (f.sequence, attempt)
      chores := .post (.persistenceFailed f) :: if again then [.persist (attempt + 1)] else [] }

/-- The worker takes an event and the engine's decision on it. -/
def decide (w : Worker) (engine : Engine) (date : Instant) (event : Event)
    (caller : Option Nat) : Worker :=
  let (trade, outcome) := engine.handle date w.trade event
  { w with trade, chores := outcome.chores event ++ caller.toList.map (.answer · outcome) }

end Worker

end PeerTrade
