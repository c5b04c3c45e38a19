import PeerTrade.Node.Basic

/-!
# Steps of a node

`Node.step` is one step of one of those who act at a node: the writer takes a snapshot or finishes
a write, a worker does one chore or reads one mail, a reporter or a timer passes its news on.
Whoever has nothing to do at the moment takes no step. Nothing is said here about who is next;
whatever the order, the steps of different actors only meet in the mailboxes, the store, the board
and the link.
-/

namespace PeerTrade.Node

/-! ## The writer -/

/-- A step of the writer; it wakes those who wait for the answers it gives. -/
def stepWriter (n : Node) : Option Node := do
  let (store, backend) ← n.store.step n.backend
  let answered := store.answers.drop n.store.answers.length
  pure ({ n with store, backend }.wake (answered.map fun (a : Answer) => .reporter a.ticket.number))

/-! ## Workers -/

/-- Answers a call. -/
def reply (n : Node) (caller : Nat) (r : Reply) : Node :=
  { n with replies := n.replies.insert caller r }

/-- Does a chore of a worker. -/
def perform (n : Node) (now : Time) (k : Nat) (t : Trade) : Chore → Node
  | .persist attempt => n.persist k t attempt
  | .post happening => n.post t happening
  | .startTimer id after => n.startTimer now k id after
  | .stopTimer kind => n.stopTimer k kind
  | .send m => n.send t m
  | .answer caller outcome => n.reply caller (.outcome outcome)

/-- A worker breaks down: what lies in its mailbox is lost, and those who wait give up. -/
def breakDown (n : Node) (k : Nat) (w : Worker) (caller : Option Nat) : Node :=
  let lost := caller.toList ++ w.mailbox.queue.filterMap Mail.caller?
  let n := n.setWorker k
    { w with
      phase := .broken
      mailbox := { w.mailbox with queue := [], waiting := [], admitted := [] } }
  (lost.foldl (fun n c => n.reply c .stopped) n).wake w.mailbox.senders

/-- A worker reads a mail. -/
def read (n : Node) (now : Time) (k : Nat) (w : Worker) : Mail → Node
  | .event e caller =>
    if n.engine.crashesOn w.trade e then n.breakDown k w caller
    else n.setWorker k (w.decide n.engine now.date e caller)
  | .inspect caller => (n.setWorker k w).reply caller (.trade w.trade)
  | .persistFailed f attempt => n.setWorker k (w.hear n.settings.persistRetryLimit f attempt)

/-- A worker ends, and its timers with it. -/
def retire (n : Node) (k : Nat) (w : Worker) : Node :=
  w.timers.values.foldl cancelTimer (n.setWorker k { w with phase := .ended })

/-- A step of a worker. -/
def stepWorker (n : Node) (now : Time) (k : Nat) : Option Node := do
  let w ← n.workers.get? k
  if w.phase ≠ .running then none
  else match w.chores with
    | chore :: chores => pure ((n.setWorker k { w with chores }).perform now k w.trade chore)
    | [] => match w.mailbox.take with
      | some (mail, mailbox, admitted) =>
        pure ((n.read now k { w with mailbox } mail).wake admitted.toList)
      | none => if w.mailbox.isReachable then none else pure (n.retire k w)

/-! ## Reporters and timers -/

/-- A step of a reporter. It is done once its ticket is answered, unless there is a failure to
report and the worker can be reached. -/
def stepReporter (n : Node) (number : Nat) : Option Node := do
  let r ← n.reporters.get? number
  let result ← n.store.answer? r.ticket
  let done := fun n : Node => { n with reporters := n.reporters.erase number }
  match result with
  | .ok () => pure (done n)
  | .error f =>
    let (n, delivery) :=
      if r.sending then n.enter r.worker (.reporter number)
      else n.deliverIfReachable r.worker (.reporter number) (.persistFailed f r.attempt)
    match delivery with
    | .waiting =>
      if r.sending then none
      else pure { n with reporters := n.reporters.insert number { r with sending := true } }
    | .delivered | .refused => pure (done n)

/-- A step of a timer. It is done once it has told the worker, if that can be reached. -/
def stepTimer (n : Node) (now : Time) (number : Nat) : Option Node := do
  let t ← n.timers.get? number
  if now.elapsed < t.due then none
  else
    let done := fun n : Node => { n with timers := n.timers.erase number }
    let (n, delivery) :=
      if t.sending then n.enter t.worker (.timer number)
      else n.deliverIfReachable t.worker (.timer number) (.event (.timeout t.id) none)
    match delivery with
    | .waiting =>
      if t.sending then none
      else pure { n with timers := n.timers.insert number { t with sending := true } }
    | .delivered | .refused => pure (done n)

/-! ## Any actor -/

/-- A step of one of those who act at the node by themselves. -/
def step (n : Node) (now : Time) : Actor → Option Node
  | .writer => n.stepWriter
  | .worker k => n.stepWorker now k
  | .reporter number => n.stepReporter number
  | .timer number => n.stepTimer now number
  | .carrier _ | .caller _ => none

end PeerTrade.Node
