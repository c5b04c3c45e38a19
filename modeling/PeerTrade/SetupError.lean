import PeerTrade.Event.Kind
import PeerTrade.Role
import PeerTrade.State
import PeerTrade.Terms

/-!
# Errors of setting up

Declaring tables, registering them, and creating or restoring trades can fail. Once a trade
exists none of these errors occurs any more.
-/

namespace PeerTrade

/-- Why a table, a registry or a trade could not be set up. -/
inductive SetupError where
  | unsupportedCombination (combination : Combination)
  | duplicateRegistration (combination : Combination)
  | conflictingTransition (state : State) (event : EventKind)
  | invalidTerms (cause : TermsError)
  | emptyTradeId
  | definitionMismatch (stored registered : String)
  deriving DecidableEq, Repr

namespace SetupError

/-- The name of the kind of error. -/
def name : SetupError → String
  | unsupportedCombination _ => "UnsupportedCombination"
  | duplicateRegistration _ => "DuplicateRegistration"
  | conflictingTransition .. => "ConflictingTransition"
  | invalidTerms _ => "InvalidTerms"
  | emptyTradeId => "EmptyTradeId"
  | definitionMismatch .. => "DefinitionMismatch"

/-- The error in words. -/
def message : SetupError → String
  | unsupportedCombination c =>
    "no protocol registered for " ++ Catalog.name c.role ++ " in " ++ Catalog.name c.settlement
  | duplicateRegistration c =>
    "protocol for " ++ Catalog.name c.role ++ " in " ++ Catalog.name c.settlement ++
      " is registered twice"
  | conflictingTransition state event =>
    "transition from " ++ Catalog.name state ++ " on " ++ event.text ++ " is declared twice"
  | invalidTerms cause => "invalid trade terms: " ++ cause.message
  | emptyTradeId => "trade id must not be empty"
  | definitionMismatch stored registered =>
    "stored protocol fingerprint " ++ stored ++ " does not match registered " ++ registered

end SetupError

end PeerTrade
