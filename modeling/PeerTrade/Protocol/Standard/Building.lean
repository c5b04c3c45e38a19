import PeerTrade.Protocol.Draft

/-!
# Parts that the built-in tables share

Every built-in table begins with a handshake over the terms, lets either side walk away while no
payment has moved, and leaves only a dispute once one has.
-/

namespace PeerTrade.Standard

/-- The taker commits to the terms and waits for the maker's answer. -/
def takerHandshake (accepted : State) (armed : List DeadlineKind) : List Declaration := [
  { states := [.init]
    event := .command .takeOffer
    transition :=
      { target := .takeOfferSent
        send := some ⟨.takeOfferRequest, .termsFingerprint⟩
        arm := [.takeOfferResponse] } },
  { states := [.takeOfferSent]
    event := .message .takeOfferResponse
    transition := { target := accepted, arm := armed, clear := [.takeOfferResponse] } },
  { states := [.takeOfferSent]
    event := .timeout .takeOfferResponse
    transition := { target := .failed } }]

/-- The maker accepts a request that commits to the maker's own terms. -/
def makerHandshake (accepted : State) (armed : List DeadlineKind) : List Declaration := [
  { states := [.init]
    event := .message .takeOfferRequest
    transition :=
      { target := accepted
        guards := [.termsMatch]
        send := some ⟨.takeOfferResponse, .empty⟩
        arm := armed } }]

/-- Either side may walk away from these states. -/
def abortFrom (states : List State) : List Declaration := [
  { states
    event := .command .cancelTrade
    transition := { target := .cancelled, send := some ⟨.tradeCancelled, .empty⟩ } },
  { states
    event := .message .tradeCancelled
    transition := { target := .cancelled } }]

/-- Either side may open a dispute in these states. -/
def disputeFrom (states : List State) : List Declaration := [
  { states
    event := .command .openDispute
    transition := { target := .disputed, send := some ⟨.disputeOpened, .command⟩ } },
  { states
    event := .message .disputeOpened
    transition := { target := .disputed } }]

/-- The table of a list of declarations. -/
def tableOf (role : Role) (settlement : Settlement) (decls : List Declaration) : Protocol :=
  (Draft.declareAll { combination := ⟨role, settlement⟩ } decls).1.build

end PeerTrade.Standard
