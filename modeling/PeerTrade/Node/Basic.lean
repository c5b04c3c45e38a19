import PeerTrade.Node.Error
import PeerTrade.Node.Worker
import PeerTrade.Notice.Board
import PeerTrade.Settings.Basic
import PeerTrade.Store.Writer

/-!
# Nodes

A node runs the trades of one side. It holds the store with its backend, the link to the other
side, the notice board and the workers, and moreover those who wait on behalf of a worker: a
reporter for each snapshot that was handed in, and a timer for each deadline that was armed. A
reporter or timer reaches its worker only as long as somebody keeps the mailbox open, so that it
never keeps a worker alive by itself.

The functions here are what the steps of a node are made of. Each of them notes in `Node.woken`
who may have something to do because of it.
-/

namespace PeerTrade

/-! ## Time -/

/-- The time that a timer runs in place of one whose end its clock cannot name, thirty years. -/
def Duration.farFuture : Duration := .ofSecs (30 * 365 * 86400)

/-- A reading of both clocks. -/
structure Time where
  /-- The date, by which the instants of trades are reckoned. -/
  date : Instant
  /-- The nanoseconds that have passed on the clock that timers follow. -/
  elapsed : Nat
  /-- The longest wait from now on whose end that clock can name. -/
  span : Duration := .farFuture

/-- When a timer that is set now is due. -/
def Time.due (t : Time) (after : Duration) : Nat :=
  t.elapsed + if after.nanos ≤ t.span.nanos then after.nanos else Duration.farFuture.nanos

/-! ## Those who wait on behalf of a worker -/

/-- Waits for the answer to a ticket and reports a failure to the worker. -/
structure Reporter where
  ticket : Ticket
  worker : Nat
  attempt : UInt32
  /-- Whether it waits for a place in the mailbox. -/
  sending : Bool := false

/-- Waits until a deadline expires and tells the worker. -/
structure Timer where
  id : DeadlineId
  worker : Nat
  /-- The time at which it is due. -/
  due : Nat
  /-- Whether it waits for a place in the mailbox. -/
  sending : Bool := false

/-- The answer to a call. -/
inductive Reply where
  | outcome (outcome : Outcome)
  | trade (trade : Trade)
  /-- The worker broke down before it came to an answer. -/
  | stopped

/-! ## Nodes -/

/-- A node between two steps. -/
structure Node where
  /-- The name by which other nodes know it. -/
  name : String
  engine : Engine
  settings : WorkerSettings
  backend : Backend
  store : Store := {}
  link : Link
  board : Board
  /-- The workers of the live trades, by trade. -/
  live : Dict String Nat := {}
  /-- All workers there ever were, by number. -/
  workers : Dict Nat Worker := {}
  /-- The reporters that still wait, by the number of the ticket. -/
  reporters : Dict Nat Reporter := {}
  /-- The timers that still run or wait, by number. -/
  timers : Dict Nat Timer := {}
  /-- The answers to calls, by the number of the call. -/
  replies : Dict Nat Reply := {}
  /-- How many workers were started. -/
  started : Nat := 0
  /-- How many timers were started. -/
  timed : Nat := 0
  /-- How many calls were made. -/
  called : Nat := 0
  /-- Those who may have something to do, in the order in which they got it. -/
  woken : List Actor := []

namespace Node

/-- A new node over a backend, whose store has nothing to do yet. -/
def new (name : String) (engine : Engine) (settings : WorkerSettings) (backend : Backend)
    (identity : Peer) : Node where
  name
  engine
  settings
  backend
  link := { identity }
  board := .new settings.noticeCapacity.toNat
  woken := [.writer]

/-- Notes that some may have something to do. -/
def wake (n : Node) (actors : List Actor) : Node := { n with woken := n.woken ++ actors }

/-- Changes a worker. -/
def setWorker (n : Node) (k : Nat) (w : Worker) : Node := { n with workers := n.workers.insert k w }

/-! ## Store and notices -/

/-- Hands the snapshot of a worker's trade in, and leaves a reporter to wait for the answer. -/
def persist (n : Node) (k : Nat) (t : Trade) (attempt : UInt32) : Node :=
  let (store, ticket) := n.store.schedule t
  let roused := match store.writer with
    | .parked => if store.wake then [Actor.writer] else []
    | _ => []
  { n with
    store
    reporters := n.reporters.insert ticket.number ⟨ticket, k, attempt, false⟩ }.wake
      (roused ++ [Actor.reporter ticket.number])

/-- Posts a notice on a trade. -/
def post (n : Node) (t : Trade) (happening : Happening) : Node :=
  { n with board := n.board.post ⟨t.id, t.sequence, happening⟩ }

/-- Sends a message; a failure is made known and has no other consequence. -/
def send (n : Node) (t : Trade) (m : Outbound) : Node :=
  match n.link.send m with
  | (link, .ok ()) => { n with link }.wake [.carrier n.name]
  | (link, .error e) => { n with link }.post t (.deliveryFailed e)

/-! ## Mailboxes -/

/-- Puts mail into the mailbox of a worker, or its sender in line. -/
def deliver (n : Node) (k : Nat) (sender : Actor) (mail : Mail) : Node × Delivery :=
  match n.workers.get? k with
  | none => (n, .refused)
  | some w =>
    if w.phase = .running then
      let (mailbox, delivery) := w.mailbox.offer sender mail
      let n := n.setWorker k { w with mailbox }
      (if delivery = .delivered then n.wake [.worker k] else n, delivery)
    else (n, .refused)

/-- A sender in line looks whether it has been admitted. -/
def enter (n : Node) (k : Nat) (sender : Actor) : Node × Delivery :=
  match n.workers.get? k with
  | none => (n, .refused)
  | some w =>
    if w.phase = .running then
      match w.mailbox.enter sender with
      | none => (n, .waiting)
      | some mailbox => ((n.setWorker k { w with mailbox }).wake [.worker k], .delivered)
    else (n, .refused)

/-- Puts mail into the mailbox of a worker if somebody keeps it open. -/
def deliverIfReachable (n : Node) (k : Nat) (sender : Actor) (mail : Mail) : Node × Delivery :=
  if (n.workers.get? k).any (·.mailbox.isReachable) then n.deliver k sender mail
  else (n, .refused)

/-! ## Timers -/

/-- Takes a timer away, and its message out of line. -/
def cancelTimer (n : Node) (number : Nat) : Node :=
  match n.timers.get? number with
  | none => n
  | some timer =>
    let n := { n with timers := n.timers.erase number }
    match n.workers.get? timer.worker with
    | none => n
    | some w =>
      let (mailbox, admitted) := w.mailbox.withdraw (.timer number)
      (n.setWorker timer.worker { w with mailbox }).wake admitted.toList

/-- Stops the timer that a worker runs for a kind of deadline. -/
def stopTimer (n : Node) (k : Nat) (kind : DeadlineKind) : Node :=
  match n.workers.get? k with
  | none => n
  | some w =>
    match w.timers.get? kind with
    | none => n
    | some number =>
      (n.setWorker k { w with timers := w.timers.erase kind }).cancelTimer number

/-- Starts a timer for a deadline, in place of one of the same kind. -/
def startTimer (n : Node) (now : Time) (k : Nat) (id : DeadlineId) (after : Duration) : Node :=
  let n := n.stopTimer k id.kind
  match n.workers.get? k with
  | none => n
  | some w =>
    { n.setWorker k { w with timers := w.timers.insert id.kind n.timed } with
      timers := n.timers.insert n.timed ⟨id, k, now.due after, false⟩
      timed := n.timed + 1 }.wake [.timer n.timed]

/-! ## Starting workers -/

/-- Starts a worker for a trade whose id is free, and the timers for its deadlines. The snapshot
of a trade that is not stored yet is handed in first. -/
def start (n : Node) (now : Time) (t : Trade) (isStored : Bool) : Except NodeError Node :=
  if n.live.contains t.id then .error (.tradeExists t.id)
  else
    let k := n.started
    let w : Worker := { trade := t, mailbox := .new n.settings.mailboxCapacity.toNat }
    let n := { n.setWorker k w with live := n.live.insert t.id k, started := k + 1 }
    let n := if isStored then n else n.persist k t 0
    let n := t.deadlines.values.foldl
      (fun n d => n.startTimer now k d.id (d.expiresAt.remaining now.date)) n
    .ok (n.wake [.worker k])

end Node

end PeerTrade
