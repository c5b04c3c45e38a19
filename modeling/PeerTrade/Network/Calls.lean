import PeerTrade.Network.Basic

/-!
# Calls to the nodes of a network

A call that has to wait for something, a place in a mailbox, an answer, or the end of a worker,
lets the network come to rest in the meantime; any other call leaves everybody in line where they
are.
-/

namespace PeerTrade.Network

/-! ## Mail -/

/-- Hands mail to the worker of a trade on behalf of a caller, and waits until it lies in the
mailbox. -/
def deliver (w : Network) (name id : String) (n : Node) (caller : Nat) (mail : Mail) :
    Network × Except NodeError Unit :=
  match n.worker? id with
  | .error e => (w, .error e)
  | .ok k =>
    let result := fun (w : Network) (n : Node) => fun
      | Delivery.refused => (w.setNode name n, Except.error (NodeError.workerStopped id))
      | _ => (w.setNode name n, Except.ok ())
    match n.deliver k (.caller caller) mail with
    | (n, .waiting) =>
      let w := (w.setNode name n).settle
      match w.nodes.get? name with
      | none => (w, .error (.workerStopped id))
      | some n =>
        let (n, delivery) := n.enter k (.caller caller)
        result w n delivery
    | (n, delivery) => result w n delivery

/-- Calls the worker of a trade; the mail depends on the number of the call. -/
def call (w : Network) (name id : String) (mail : Nat → Mail) :
    Network × Except NodeError Nat :=
  match w.nodes.get? name with
  | none => (w, .error (.unknownTrade id))
  | some n =>
    let caller := n.called
    let (w, result) :=
      w.deliver name id { n with called := n.called + 1 } caller (mail caller)
    (w, result.map fun () => caller)

/-- Waits for the answer to a call. -/
def await (w : Network) (name : String) (caller : Nat) : Network × Option Reply :=
  let w := w.settle
  (w, (w.nodes.get? name).bind (·.replies.get? caller))

/-- Hands an event to a trade, and does not wait for the outcome. -/
def dispatch (w : Network) (name id : String) (e : Event) : Network × Except NodeError Unit :=
  let (w, result) := w.call name id fun _ => .event e none
  (w, result.map fun _ => ())

/-- Hands an event to a trade, and waits for the outcome. -/
def submit (w : Network) (name id : String) (e : Event) : Network × Except NodeError Outcome :=
  match w.call name id fun caller => .event e (some caller) with
  | (w, .error e) => (w, .error e)
  | (w, .ok caller) =>
    match w.await name caller with
    | (w, some (.outcome o)) => (w, .ok o)
    | (w, _) => (w, .error (.workerStopped id))

/-- Asks for a trade as its worker sees it. -/
def inspect (w : Network) (name id : String) : Network × Except NodeError Trade :=
  match w.call name id .inspect with
  | (w, .error e) => (w, .error e)
  | (w, .ok caller) =>
    match w.await name caller with
    | (w, some (.trade t)) => (w, .ok t)
    | (w, _) => (w, .error (.workerStopped id))

/-! ## Nodes -/

/-- Changes a node. -/
def modify (w : Network) (name : String) (f : Node → Node) : Network :=
  match w.nodes.get? name with
  | some n => w.setNode name (f n)
  | none => w

/-- Lets go of the mailbox of a worker, and waits until the worker has ended. -/
def release (name : String) (w : Network) (k : Nat) : Network :=
  let w := w.modify name (·.release k)
  if (w.nodes.get? name).any (·.isRunning k) then w.settle else w

/-- Waits until a node's store has nothing pending. -/
def flush (w : Network) (name : String) : Network :=
  match w.nodes.get? name with
  | none => w
  | some n =>
    match n.store.flush with
    | (_, none) => w
    | (store, some _) => (w.setNode name { n with store }).settle

/-- Ends the workers of a node one after the other, and waits until its store has nothing
pending. -/
def shutDown (w : Network) (name : String) : Network :=
  match w.nodes.get? name with
  | none => w
  | some n =>
    let (n, workers) := n.forget
    (workers.foldl (release name) (w.setNode name n)).flush name

/-- Closes the store of a node, and waits until its writer has ended. -/
def closeStore (w : Network) (name : String) : Network :=
  match w.nodes.get? name with
  | none => w
  | some n =>
    let (store, waits) := n.store.close
    let w := w.setNode name ({ n with store }.wake [.writer])
    if waits && !store.writer.ended then w.settle else w

end PeerTrade.Network
