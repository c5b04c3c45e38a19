import PeerTrade.SetupError
import PeerTrade.Store.Error

/-!
# Errors of a node

A node refuses what concerns a trade that it does not run, or whose worker has broken down, and a
second trade under an id that is taken; besides, it passes on why a trade cannot be set up and why
the store cannot be read.
-/

namespace PeerTrade

/-- Why a node did not do what it was asked to. -/
inductive NodeError where
  | unknownTrade (id : String)
  | tradeExists (id : String)
  | workerStopped (id : String)
  | setup (cause : SetupError)
  | store (cause : StoreError)
  deriving DecidableEq, Repr

namespace NodeError

/-- The name of the kind of error. -/
def name : NodeError → String
  | unknownTrade _ => "UnknownTrade"
  | tradeExists _ => "TradeExists"
  | workerStopped _ => "WorkerStopped"
  | setup cause => cause.name
  | store cause => cause.name

/-- The error in words. -/
def message : NodeError → String
  | unknownTrade id => "unknown trade " ++ id
  | tradeExists id => "trade " ++ id ++ " is already live"
  | workerStopped id => "worker for trade " ++ id ++ " has stopped"
  | setup cause => cause.message
  | store cause => cause.message

end NodeError

end PeerTrade
