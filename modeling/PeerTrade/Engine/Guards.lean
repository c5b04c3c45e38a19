import PeerTrade.Commitment
import PeerTrade.Event.Basic
import PeerTrade.Trade.Basic

/-!
# What the guards ask for

Each guard is a condition on a trade and an event. A guard that does not hold says what is wrong;
a built-in guard on messages never holds for another event, and one on commands neither. What a guard
asks for that is not built in, the surrounding program says.
-/

namespace PeerTrade

/-- The code of a guard that is not built in. -/
structure CustomCheck where
  /-- Whether the guard holds for an event of a trade; if not, what is wrong. -/
  check : Verifier → Trade → Event → Except String Unit := fun _ _ _ => .ok ()
  /-- Whether it asks the verifier. -/
  asksVerifier : Trade → Event → Bool := fun _ _ => false

/-- What guards consult besides trade and event. -/
structure GuardContext where
  verifier : Verifier
  /-- The code of the guards that are not built in, by address. -/
  custom : Nat → CustomCheck := fun _ => {}

namespace Guard

/-- A condition on a message. -/
def onMessage (event : Event) (check : Inbound → Except String Unit) : Except String Unit :=
  match event with
  | .inbound m => check m
  | _ => .error "expected an inbound message"

/-- A condition on a command. -/
def onCommand (event : Event) (check : Command → Except String Unit) : Except String Unit :=
  match event with
  | .command c => check c
  | _ => .error "expected a user command"

/-- Refuses with a diagnosis unless a condition holds. -/
def ensure (holds : Bool) (diagnosis : String) : Except String Unit :=
  if holds then .ok () else .error diagnosis

/-- The message belongs to the trade and comes from its counterparty. -/
def checkEnvelope (t : Trade) (m : Inbound) : Except String Unit := do
  ensure (m.tradeId == t.id) <|
    "message references trade " ++ m.tradeId ++ " but was routed to " ++ t.id
  ensure (m.sender == t.counterparty) <|
    "sender " ++ m.sender.handle ++ " is not the reserved counterparty " ++ t.counterparty.handle

/-- Whether the deposit stands, by state. -/
def isDepositConfirmed : State → Bool
  | .depositConfirmed | .fiatSent | .fiatSentReceived | .fiatReceiptConfirmed => true
  | _ => false

/-- Whether a guard holds for an event of a trade; if not, what is wrong. -/
def check (context : GuardContext) (t : Trade) (event : Event) : Guard → Except String Unit
  | envelope => onMessage event (checkEnvelope t)
  | termsMatch => onMessage event fun m =>
    ensure (m.payload == Bytes.ofText t.termsFingerprint) "taker committed to different terms"
  | signature => onMessage event fun m =>
    ensure (context.verifier.accepts m.sender m.payload m.signature) <|
      Catalog.name m.kind ++ " carries an invalid signature"
  | messagePayload => onMessage event fun m =>
    ensure (!m.payload.isEmpty) "message payload is empty"
  | commandPayload => onCommand event fun c =>
    ensure (!c.payload.isEmpty) "command requires a payload"
  | commandSigned => onCommand event fun c =>
    ensure (!c.signature.isEmpty) "command requires a wallet signature"
  | depositConfirmed =>
    ensure (isDepositConfirmed t.state) <|
      "deposit transaction is not confirmed yet (state " ++ Catalog.name t.state ++ ")"
  | fiatReceiptConfirmed =>
    ensure (t.state == .fiatReceiptConfirmed) <|
      "fiat receipt is not confirmed yet (state " ++ Catalog.name t.state ++ ")"
  | custom _ code => (context.custom code).check context.verifier t event

/-- Whether a guard asks the verifier about an event of a trade. -/
def asksVerifier (context : GuardContext) (t : Trade) (event : Event) : Guard → Bool
  | signature => event.kind.isMessage
  | custom _ code => (context.custom code).asksVerifier t event
  | _ => false

end Guard

end PeerTrade
