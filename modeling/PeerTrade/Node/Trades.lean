import PeerTrade.Node.Basic

/-!
# The trades of a node

A node takes trades on that are new (`Node.create`), that somebody brings along (`Node.launch`),
and that its store holds (`Node.resume`). Resuming passes over whatever is live already and says
which of the other records it could not bring back; a trade that was resumed is not stored again.
When the node shuts down it lets go of all trades at once, and each worker ends when it has read
its mailbox.
-/

namespace PeerTrade

/-- What became of the records of a store. -/
structure Resumption where
  resumed : List String := []
  /-- The records that could not be brought back, and why. -/
  skipped : List (String × SetupError) := []

namespace Node

/-! ## Beginning -/

/-- Takes on a trade that is not stored yet. -/
def launch (n : Node) (now : Time) (t : Trade) : Except NodeError Node := n.start now t false

/-- Begins a new trade. -/
def create (n : Node) (now : Time) (id : String) (combination : Combination) (terms : Terms)
    (counterparty : Peer) : Except NodeError Node := do
  let t ← (n.engine.create now.date id combination terms counterparty).mapError .setup
  n.launch now t

/-- Takes on a trade that somebody kept a snapshot of. -/
def adopt (n : Node) (now : Time) (s : Snapshot) : Except NodeError Node := do
  let t ← (n.engine.restore s).mapError .setup
  n.launch now t

/-! ## Resuming -/

/-- Brings one record back. -/
def resumeOne (now : Time) : Node × Resumption → Snapshot → Node × Resumption
  | (n, r), s =>
    match n.engine.restore s with
    | .error e => (n, { r with skipped := r.skipped ++ [(s.tradeId, e)] })
    | .ok t =>
      match n.start now t true with
      | .ok n => (n, { r with resumed := r.resumed ++ [s.tradeId] })
      | .error _ => (n, r)

/-- Brings back what the store holds. -/
def resume (n : Node) (now : Time) : Except NodeError (Node × Resumption) := do
  let snapshots ← n.backend.loadAll.mapError .store
  pure (snapshots.foldl (resumeOne now) (n, {}))

/-! ## Looking -/

/-- The ids of the live trades, ascending. -/
def trades (n : Node) : List String := n.live.keys

/-- The worker of a live trade. -/
def worker? (n : Node) (id : String) : Except NodeError Nat :=
  match n.live.get? id with
  | some k => .ok k
  | none => .error (.unknownTrade id)

/-! ## Ending -/

/-- Lets go of all trades; says which workers they had, in the order of the trades. -/
def forget (n : Node) : Node × List Nat := ({ n with live := {} }, n.live.values)

/-- Lets go of the mailbox of a worker. -/
def release (n : Node) (k : Nat) : Node :=
  match n.workers.get? k with
  | none => n
  | some w =>
    (n.setWorker k { w with mailbox := { w.mailbox with kept := false } }).wake [.worker k]

/-- Whether a worker still runs. -/
def isRunning (n : Node) (k : Nat) : Bool := (n.workers.get? k).any (·.phase == .running)

end Node

end PeerTrade
